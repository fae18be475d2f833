/-!
# Splitting a text

Three ways of taking something off the front of a text: a given lead, all up
to a place where a condition holds of what is left, and all up to a character
that no backslash protects. Each splits without loss.
-/

namespace TemplateTree

/-- What follows `lead`, if the text starts with it. -/
def after? : (lead : List Char) → List Char → Option (List Char)
  | [], cs => some cs
  | _ :: _, [] => none
  | l :: lead, c :: cs => if l = c then after? lead cs else none

theorem after?_eq_some_iff {lead cs rest : List Char} :
    after? lead cs = some rest ↔ cs = lead ++ rest := by
  induction lead generalizing cs with
  | nil => simp [after?]
  | cons l lead ih =>
    cases cs with
    | nil => simp [after?]
    | cons c cs =>
      simp only [after?, List.cons_append, List.cons.injEq]
      split
      · next h => simp [h, ih]
      · next h => simp [Ne.symm h]

theorem after?_eq_none_iff {lead cs : List Char} : after? lead cs = none ↔ ¬lead <+: cs := by
  rw [Option.eq_none_iff_forall_ne_some]
  constructor
  · rintro h ⟨rest, rfl⟩
    exact h rest (after?_eq_some_iff.mpr rfl)
  · rintro h rest hr
    exact h ⟨rest, (after?_eq_some_iff.mp hr).symm⟩

/-- Splits before the first suffix for which `stop` holds, or takes all. -/
def splitWhen (stop : List Char → Bool) (cs : List Char) : List Char × List Char :=
  go [] cs
where
  go (passed : List Char) : List Char → List Char × List Char
    | [] => (passed.reverse, [])
    | c :: cs => if stop (c :: cs) then (passed.reverse, c :: cs) else go (c :: passed) cs

theorem splitWhen.go_eq (stop : List Char → Bool) (passed cs : List Char) :
    splitWhen.go stop passed cs =
      (passed.reverse ++ (splitWhen stop cs).1, (splitWhen stop cs).2) := by
  induction cs generalizing passed with
  | nil => simp [splitWhen, splitWhen.go]
  | cons c cs ih =>
    rw [splitWhen, splitWhen.go, splitWhen.go]
    split
    · simp
    · rw [ih, ih [c]]; simp

@[simp] theorem splitWhen_nil (stop : List Char → Bool) : splitWhen stop [] = ([], []) := rfl

theorem splitWhen_cons (stop : List Char → Bool) (c : Char) (cs : List Char) :
    splitWhen stop (c :: cs) =
      if stop (c :: cs) then ([], c :: cs)
      else (c :: (splitWhen stop cs).1, (splitWhen stop cs).2) := by
  rw [splitWhen, splitWhen.go]
  split
  · rfl
  · rw [splitWhen.go_eq]; simp

theorem splitWhen_append (stop : List Char → Bool) (cs : List Char) :
    (splitWhen stop cs).1 ++ (splitWhen stop cs).2 = cs := by
  induction cs with
  | nil => rfl
  | cons c cs ih =>
    rw [splitWhen_cons]
    split
    · rfl
    · simp [ih]

/-- The longest run of characters of a class, and what follows it. -/
def splitRun (p : Char → Bool) (cs : List Char) : List Char × List Char :=
  (cs.takeWhile p, cs.dropWhile p)

theorem splitRun_append (p : Char → Bool) (cs : List Char) :
    (splitRun p cs).1 ++ (splitRun p cs).2 = cs := List.takeWhile_append_dropWhile

/-- A text cut at a character: what stands before it, what follows it, and
whether the character was there at all. -/
structure Cut where
  body : List Char
  rest : List Char
  closed : Bool
  deriving DecidableEq, Repr

/-- Cuts at the first `mark` that does not follow a backslash. A backslash
protects the character after it, be it a backslash, and takes part in the body. -/
def cutAt (mark : Char) (cs : List Char) : Cut :=
  go [] cs
where
  go (passed : List Char) : List Char → Cut
    | [] => ⟨passed.reverse, [], false⟩
    -- the protected character is passed over without a look
    | '\\' :: c :: cs => go (c :: '\\' :: passed) cs
    | c :: cs => if c = mark then ⟨passed.reverse, cs, true⟩ else go (c :: passed) cs

/-- The text as it stood before the cut. -/
def Cut.whole (mark : Char) (cut : Cut) : List Char :=
  if cut.closed then cut.body ++ mark :: cut.rest else cut.body ++ cut.rest

theorem cutAt.whole_go (mark : Char) (passed cs : List Char) :
    (cutAt.go mark passed cs).whole mark = passed.reverse ++ cs := by
  fun_induction cutAt.go mark passed cs <;> simp_all [Cut.whole]

theorem whole_cutAt (mark : Char) (cs : List Char) : (cutAt mark cs).whole mark = cs :=
  cutAt.whole_go mark [] cs

theorem cutAt.rest_go (mark : Char) (passed cs : List Char)
    (h : (cutAt.go mark passed cs).closed = false) : (cutAt.go mark passed cs).rest = [] := by
  fun_induction cutAt.go mark passed cs <;> simp_all

/-- Nothing follows a cut that does not close. -/
theorem rest_cutAt {mark : Char} {cs : List Char} (h : (cutAt mark cs).closed = false) :
    (cutAt mark cs).rest = [] :=
  cutAt.rest_go mark [] cs h

end TemplateTree
