import TemplateTree.Position.Past

/-!
# Places

The running position of a lexer: how many line feeds and how many characters
after the last of them it has passed. It advances character by character,
whatever the characters belong to.
-/

namespace TemplateTree

@[ext] structure Place where
  line : Nat := 0
  column : Nat := 0
  deriving DecidableEq, Repr

namespace Place

def step (p : Place) (c : Char) : Place :=
  if c = '\n' then ⟨p.line + 1, 0⟩ else ⟨p.line, p.column + 1⟩

def advance (p : Place) (cs : List Char) : Place := cs.foldl step p

@[simp] theorem advance_nil (p : Place) : p.advance [] = p := rfl

@[simp] theorem advance_cons (p : Place) (c : Char) (cs : List Char) :
    p.advance (c :: cs) = (p.step c).advance cs := rfl

theorem advance_append (p : Place) (cs ds : List Char) :
    p.advance (cs ++ ds) = (p.advance cs).advance ds := List.foldl_append

def toPoint (p : Place) : Point where
  line := p.line + 1
  column := p.column + 1

theorem toPoint_le_step (p : Place) (c : Char) : p.toPoint ≤ (p.step c).toPoint := by
  simp only [Point.le_iff, toPoint, step]
  split <;> grind

theorem toPoint_le_advance (p : Place) (cs : List Char) : p.toPoint ≤ (p.advance cs).toPoint := by
  induction cs generalizing p with
  | nil => exact p.toPoint.le_refl
  | cons c cs ih => exact Point.le_trans (p.toPoint_le_step c) (ih (p.step c))

/-- The span that an advance passes over. -/
def spanOver (p : Place) (cs : List Char) : Span :=
  ⟨p.toPoint, (p.advance cs).toPoint, p.toPoint_le_advance cs⟩

end Place

end TemplateTree
