import Mathlib.Data.List.Induction
import Mathlib.Logic.ExistsUnique
import TemplateTree.Directive.Import

/-!
# The grammar of imported names

The words of a from-import between its path and its end, without the keywords that stand
beside the names, are `(as+ z)* (name (as+ alias)*)* as*`: words that are given before
there is a name, names with the aliases given to them, and an `as` at the end that gives
nothing. Any words are of this form, and in one way only (`NameWords.existsUnique`).
-/

namespace TemplateTree

/-- A run of `as` and the word that it gives. -/
structure Naming where
  marks : List Token
  word : Token
  marks_ne_nil : marks ≠ []
  value_marks : ∀ t ∈ marks, t.value = "as"
  value_word : word.value ≠ "as"

/-- A name and the words that are given to it, one after the other. -/
structure NameBlock where
  name : Token
  aliases : List Naming
  value_name : name.value ≠ "as"

structure NameWords where
  /-- Words that are given where there is no name yet. -/
  nameless : List Naming
  blocks : List NameBlock
  trailing : List Token
  value_trailing : ∀ t ∈ trailing, t.value = "as"

def Naming.words (n : Naming) : List Token := n.marks ++ [n.word]

def NameBlock.words (b : NameBlock) : List Token := b.name :: b.aliases.flatMap Naming.words

def NameBlock.push (b : NameBlock) (n : Naming) : NameBlock :=
  { b with aliases := b.aliases ++ [n] }

theorem NameBlock.words_push (b : NameBlock) (n : Naming) :
    (b.push n).words = b.words ++ n.words := by
  simp [words, push]

namespace NameWords

def words (d : NameWords) : List Token :=
  d.nameless.flatMap Naming.words ++ d.blocks.flatMap NameBlock.words ++ d.trailing

/-- Words that do not end in an `as`. -/
def closed (nameless : List Naming) (blocks : List NameBlock) : NameWords :=
  ⟨nameless, blocks, [], nofun⟩

/-- A word that is given goes to the last name, or it is nameless if there is none. -/
def give (nameless : List Naming) (blocks : List NameBlock) (n : Naming) : NameWords :=
  match blocks.getLast? with
  | none => closed (nameless ++ [n]) blocks
  | some b => closed nameless (blocks.dropLast ++ [b.push n])

def push (d : NameWords) (t : Token) : NameWords :=
  if ht : t.value = "as" then
    ⟨d.nameless, d.blocks, d.trailing ++ [t],
      List.forall_mem_append.mpr ⟨d.value_trailing, List.forall_mem_singleton.mpr ht⟩⟩
  else if hd : d.trailing = [] then closed d.nameless (d.blocks ++ [⟨t, [], ht⟩])
  else give d.nameless d.blocks ⟨d.trailing, t, hd, d.value_trailing, ht⟩

/-- The words taken apart, one after the other. -/
def ofWords (ts : List Token) : NameWords := ts.foldl push (closed [] [])

variable {nameless : List Naming} {blocks : List NameBlock}

theorem give_nil (n : Naming) : give nameless [] n = closed (nameless ++ [n]) [] := rfl

theorem give_concat (b : NameBlock) (n : Naming) :
    give nameless (blocks ++ [b]) n = closed nameless (blocks ++ [b.push n]) := by
  simp only [give, List.getLast?_concat, List.dropLast_concat]

theorem push_as {d : NameWords} {t : Token} (h : t.value = "as") :
    d.push t = ⟨d.nameless, d.blocks, d.trailing ++ [t],
      List.forall_mem_append.mpr ⟨d.value_trailing, List.forall_mem_singleton.mpr h⟩⟩ := by
  rw [push, dif_pos h]

theorem push_name {t : Token} (h : t.value ≠ "as") :
    (closed nameless blocks).push t = closed nameless (blocks ++ [⟨t, [], h⟩]) := by
  rw [push, dif_neg h]
  exact dif_pos rfl

theorem push_word {marks : List Token} {t : Token} (hm : marks ≠ [])
    (has : ∀ u ∈ marks, u.value = "as") (h : t.value ≠ "as") :
    (⟨nameless, blocks, marks, has⟩ : NameWords).push t =
      give nameless blocks ⟨marks, t, hm, has, h⟩ := by
  rw [push, dif_neg h, dif_neg]

-- ---------------------------------------------------------------------------
-- Existence
-- ---------------------------------------------------------------------------

theorem words_give (n : Naming) :
    (give nameless blocks n).words =
      nameless.flatMap Naming.words ++ blocks.flatMap NameBlock.words ++ n.words := by
  rcases List.eq_nil_or_concat blocks with rfl | ⟨bs, b, rfl⟩
  · simp [give_nil, words, closed]
  · rw [List.concat_eq_append, give_concat]
    simp [words, closed, NameBlock.words_push]

theorem words_push (d : NameWords) (t : Token) : (d.push t).words = d.words ++ [t] := by
  obtain ⟨nameless, blocks, trailing, has⟩ := d
  by_cases h : t.value = "as"
  · rw [push_as h]
    simp [words]
  · by_cases hd : trailing = []
    · subst hd
      rw [show (⟨nameless, blocks, [], has⟩ : NameWords) = closed nameless blocks from rfl,
        push_name h]
      simp [words, closed, NameBlock.words]
    · rw [push_word hd has h, words_give]
      simp [words, Naming.words]

theorem words_ofWords (ts : List Token) : (ofWords ts).words = ts := by
  induction ts using List.reverseRecOn with
  | nil => rfl
  | append_singleton ts t ih =>
    rw [ofWords, List.foldl_append]
    exact (words_push _ t).trans (congrArg (· ++ [t]) ih)

-- ---------------------------------------------------------------------------
-- Uniqueness
-- ---------------------------------------------------------------------------

theorem foldl_push_trailing {trailing : List Token} (has : ∀ t ∈ trailing, t.value = "as") :
    trailing.foldl push (closed nameless blocks) = ⟨nameless, blocks, trailing, has⟩ := by
  induction trailing using List.reverseRecOn with
  | nil => rfl
  | append_singleton ts t ih =>
    obtain ⟨hts, ht⟩ := List.forall_mem_append.mp has
    rw [List.foldl_append, ih hts]
    exact push_as (ht t (List.mem_singleton_self t))

theorem foldl_push_naming (n : Naming) :
    n.words.foldl push (closed nameless blocks) = give nameless blocks n := by
  rw [Naming.words, List.foldl_append, foldl_push_trailing n.value_marks]
  exact push_word n.marks_ne_nil n.value_marks n.value_word

theorem foldl_push_nameless (ns : List Naming) :
    (ns.flatMap Naming.words).foldl push (closed nameless []) = closed (nameless ++ ns) [] := by
  induction ns generalizing nameless with
  | nil => simp
  | cons n ns ih =>
    rw [List.flatMap_cons, List.foldl_append, foldl_push_naming, give_nil, ih, List.append_assoc,
      List.singleton_append]

theorem foldl_push_aliases (b : NameBlock) (ns : List Naming) :
    (ns.flatMap Naming.words).foldl push (closed nameless (blocks ++ [b])) =
      closed nameless (blocks ++ [{ b with aliases := b.aliases ++ ns }]) := by
  induction ns generalizing b with
  | nil => simp
  | cons n ns ih =>
    rw [List.flatMap_cons, List.foldl_append, foldl_push_naming, give_concat, ih]
    simp [NameBlock.push]

theorem foldl_push_block (b : NameBlock) :
    b.words.foldl push (closed nameless blocks) = closed nameless (blocks ++ [b]) := by
  rw [NameBlock.words, List.foldl_cons, push_name b.value_name, foldl_push_aliases]
  rfl

theorem foldl_push_blocks (bs : List NameBlock) :
    (bs.flatMap NameBlock.words).foldl push (closed nameless blocks) =
      closed nameless (blocks ++ bs) := by
  induction bs generalizing blocks with
  | nil => simp
  | cons b bs ih =>
    rw [List.flatMap_cons, List.foldl_append, foldl_push_block, ih, List.append_assoc,
      List.singleton_append]

theorem ofWords_words (d : NameWords) : ofWords d.words = d := by
  unfold ofWords words
  rw [List.foldl_append, List.foldl_append, foldl_push_nameless, foldl_push_blocks]
  exact foldl_push_trailing d.value_trailing

/-- Any words are of the form of imported names, in one way. -/
theorem existsUnique (ts : List Token) : ∃! d : NameWords, d.words = ts := by
  refine ⟨ofWords ts, words_ofWords ts, fun d h => ?_⟩
  rw [← h, ofWords_words]

end NameWords

end TemplateTree
