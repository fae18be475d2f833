import Mathlib.Data.List.Forall2
import TemplateTree.Proofs.Text.Split
import TemplateTree.Token.Literal

/-!
# Spellings of a string

What stands between the quotes of a string literal, as a relation to the value
it has. A value has many spellings, a spelling has one value. A literal that is
left open may end in a backslash with nothing to protect. Each character of a value
is written in a way of its own (`WrittenAs`), and the spellings of the value are these
one after the other (`spells_iff`).
-/

namespace TemplateTree

/-- `Spells quote spelling value`: between quotes, `spelling` stands for `value`. -/
inductive Spells (quote : Char) : List Char → List Char → Prop
  | nil : Spells quote [] []
  | plain {c : Char} {spelling value : List Char} (hq : c ≠ quote) (hb : c ≠ '\\')
      (h : Spells quote spelling value) : Spells quote (c :: spelling) (c :: value)
  | escaped {c : Char} {spelling value : List Char} (h : Spells quote spelling value) :
      Spells quote ('\\' :: c :: spelling) (unescape c :: value)

/-- `LiteralSlice slice value`: the whole of a string literal in a text, with
its quotes, and what it stands for. -/
inductive LiteralSlice : List Char → List Char → Prop
  | closed {quote : Char} {spelling value : List Char} (hq : quote = '"' ∨ quote = '\'')
      (h : Spells quote spelling value) : LiteralSlice (quote :: spelling ++ [quote]) value
  | unclosed {quote : Char} {spelling value : List Char} (hq : quote = '"' ∨ quote = '\'')
      (h : Spells quote spelling value) : LiteralSlice (quote :: spelling) value
  /-- The literal ends in a backslash that has nothing to protect. -/
  | cutShort {quote : Char} {spelling value : List Char} (hq : quote = '"' ∨ quote = '\'')
      (h : Spells quote spelling value) : LiteralSlice (quote :: spelling ++ ['\\']) value

/-- A string literal whose last quote is the first one that closes it. -/
def ClosedLiteral (slice : List Char) : Prop :=
  ∃ quote spelling value, (quote = '"' ∨ quote = '\'') ∧ Spells quote spelling value ∧
    slice = quote :: spelling ++ [quote]

theorem ne_backslash_of_quote {quote : Char} (h : quote = '"' ∨ quote = '\'') :
    quote ≠ '\\' := by
  rcases h with rfl | rfl <;> decide

-- ---------------------------------------------------------------------------
-- The ways to write a character
-- ---------------------------------------------------------------------------

/-- `WrittenAs quote c cs`: between quotes the character `c` can stand as `cs`. -/
inductive WrittenAs (quote : Char) : Char → List Char → Prop
  | plain {c : Char} (hq : c ≠ quote) (hb : c ≠ '\\') : WrittenAs quote c [c]
  | escaped {c : Char} (h : c ∉ ['n', 't', 'r']) : WrittenAs quote c ['\\', c]
  | lineFeed : WrittenAs quote '\n' ['\\', 'n']
  | tab : WrittenAs quote '\t' ['\\', 't']
  | carriageReturn : WrittenAs quote '\r' ['\\', 'r']

/-- The characters of the value, each written in one of its ways, make up the spelling. -/
def WritesOut (quote : Char) (value spelling : List Char) : Prop :=
  ∃ parts, List.Forall₂ (WrittenAs quote) value parts ∧ parts.flatten = spelling

theorem unescape_of_not_mem {c : Char} (h : c ∉ ['n', 't', 'r']) : unescape c = c := by
  simp only [List.mem_cons, List.not_mem_nil, or_false, not_or] at h
  obtain ⟨hn, ht, hr⟩ := h
  unfold unescape
  split
  · exact absurd rfl hn
  · exact absurd rfl ht
  · exact absurd rfl hr
  · rfl

/-- A backslash with a character behind it is a way to write what the two stand for. -/
theorem writtenAs_unescape (quote c : Char) : WrittenAs quote (unescape c) ['\\', c] := by
  by_cases h : c ∈ ['n', 't', 'r']
  · simp only [List.mem_cons, List.not_mem_nil, or_false] at h
    rcases h with rfl | rfl | rfl
    · exact .lineFeed
    · exact .tab
    · exact .carriageReturn
  · rw [unescape_of_not_mem h]
    exact .escaped h

theorem Spells.append_writtenAs {quote c : Char} {cs spelling value : List Char}
    (hc : WrittenAs quote c cs) (h : Spells quote spelling value) :
    Spells quote (cs ++ spelling) (c :: value) := by
  cases hc with
  | plain hq hb => exact .plain hq hb h
  | escaped hn =>
    have he := Spells.escaped (c := c) h
    rwa [unescape_of_not_mem hn] at he
  | lineFeed | tab | carriageReturn => exact .escaped h

/-- The spellings of a value are the ways to write its characters, one after the other. -/
theorem spells_iff {quote : Char} {spelling value : List Char} :
    Spells quote spelling value ↔ WritesOut quote value spelling := by
  constructor
  · intro h
    induction h with
    | nil => exact ⟨[], .nil, rfl⟩
    | plain hq hb _ ih =>
      obtain ⟨parts, hp, rfl⟩ := ih
      exact ⟨[_] :: parts, .cons (.plain hq hb) hp, rfl⟩
    | @escaped c _ _ _ ih =>
      obtain ⟨parts, hp, rfl⟩ := ih
      exact ⟨['\\', c] :: parts, .cons (writtenAs_unescape quote c) hp, rfl⟩
  · rintro ⟨parts, hp, rfl⟩
    induction hp with
    | nil => exact .nil
    | cons hc _ ih => exact ih.append_writtenAs hc

-- ---------------------------------------------------------------------------
-- Decoding
-- ---------------------------------------------------------------------------

theorem decodeString_plain {c : Char} (hb : c ≠ '\\') (cs : List Char) :
    decodeString (c :: cs) = c :: decodeString cs := by
  rw [decodeString]
  · exact fun h _ => absurd h hb
  · exact fun _ _ h _ => absurd h hb

theorem decodeString_escaped (c : Char) (cs : List Char) :
    decodeString ('\\' :: c :: cs) = unescape c :: decodeString cs := by
  rw [decodeString]

/-- A last backslash that protects nothing stands for nothing. -/
theorem Spells.decodeString_append {quote : Char} {spelling value tail : List Char}
    (h : Spells quote spelling value) (ht : tail = [] ∨ tail = ['\\']) :
    decodeString (spelling ++ tail) = value := by
  induction h with
  | nil => rcases ht with rfl | rfl <;> rfl
  | plain _ hb _ ih => rw [List.cons_append, decodeString_plain hb, ih]
  | escaped _ ih => rw [List.cons_append, List.cons_append, decodeString_escaped, ih]

theorem Spells.decodeString_eq {quote : Char} {spelling value : List Char}
    (h : Spells quote spelling value) : decodeString spelling = value := by
  simpa using h.decodeString_append (.inl rfl)

/-- Up to a quote that closes it, a literal is spelled out. -/
theorem spells_cutAt {quote : Char} (hq : quote ≠ '\\') {cs : List Char}
    (h : (cutAt quote cs).closed = true) :
    Spells quote (cutAt quote cs).body (decodeString (cutAt quote cs).body) := by
  induction cs using cut_induction quote with
  | nil => simp at h
  | mark_cons cs =>
    rw [cutAt_mark hq]
    exact .nil
  | backslash => simp [cutAt_backslash hq] at h
  | escaped c cs ih =>
    rw [cutAt_escaped] at h ⊢
    simp only [decodeString_escaped]
    exact .escaped (ih h)
  | plain c cs hc hb ih =>
    rw [cutAt_plain hc hb] at h ⊢
    simp only [decodeString_plain hb]
    exact .plain hc hb (ih h)

/-- Without a closing quote a literal is spelled out to the end of the text,
but perhaps for a last backslash. -/
theorem exists_spells_cutAt {quote : Char} (hq : quote ≠ '\\') {cs : List Char}
    (h : (cutAt quote cs).closed = false) :
    ∃ spelling, Spells quote spelling (decodeString (cutAt quote cs).body) ∧
      ((cutAt quote cs).body = spelling ∨ (cutAt quote cs).body = spelling ++ ['\\']) := by
  induction cs using cut_induction quote with
  | nil => exact ⟨[], .nil, .inl rfl⟩
  | mark_cons cs => simp [cutAt_mark hq] at h
  | backslash =>
    rw [cutAt_backslash hq]
    exact ⟨[], .nil, .inr rfl⟩
  | escaped c cs ih =>
    rw [cutAt_escaped] at h ⊢
    obtain ⟨spelling, hs, hb⟩ := ih h
    refine ⟨'\\' :: c :: spelling, ?_, by simpa using hb⟩
    simp only [decodeString_escaped]
    exact .escaped hs
  | plain c cs hc hb ih =>
    rw [cutAt_plain hc hb] at h ⊢
    obtain ⟨spelling, hs, hbody⟩ := ih h
    refine ⟨c :: spelling, ?_, by simpa using hbody⟩
    simp only [decodeString_plain hb]
    exact .plain hc hb hs

/-- A spelling is passed over whole, up to the quote that closes it. -/
theorem Spells.cutAt_append {quote : Char} (hq : quote ≠ '\\') {spelling value : List Char}
    (h : Spells quote spelling value) (rest : List Char) :
    cutAt quote (spelling ++ quote :: rest) = ⟨spelling, rest, true⟩ := by
  induction h with
  | nil => exact cutAt_mark hq rest
  | plain hc hb _ ih => rw [List.cons_append, cutAt_plain hc hb, ih]
  | escaped _ ih => rw [List.cons_append, List.cons_append, cutAt_escaped, ih]

/-- In a spelling without a quote behind it nothing closes the literal. -/
theorem Spells.cutAt_open {quote : Char} (hq : quote ≠ '\\') {spelling value tail : List Char}
    (h : Spells quote spelling value) (ht : tail = [] ∨ tail = ['\\']) :
    cutAt quote (spelling ++ tail) = ⟨spelling ++ tail, [], false⟩ := by
  induction h with
  | nil =>
    rcases ht with rfl | rfl
    · rfl
    · rw [List.nil_append, cutAt_backslash hq]
  | plain hc hb _ ih => rw [List.cons_append, cutAt_plain hc hb, ih]
  | escaped _ ih => rw [List.cons_append, List.cons_append, cutAt_escaped, ih]

theorem Spells.not_closedLiteral {quote : Char} (hq : quote = '"' ∨ quote = '\'')
    {spelling value tail : List Char} (h : Spells quote spelling value)
    (ht : tail = [] ∨ tail = ['\\']) : ¬ClosedLiteral (quote :: spelling ++ tail) := by
  have hb := ne_backslash_of_quote hq
  rintro ⟨mark, spelling', value', -, hs, he⟩
  obtain ⟨rfl, he⟩ := List.cons.inj he
  have hopen := h.cutAt_open hb ht
  rw [show spelling ++ tail = spelling' ++ [quote] from he, hs.cutAt_append hb] at hopen
  cases congrArg Cut.closed hopen

/-- The value of a literal is decoded from what stands before the quote that closes it. -/
theorem LiteralSlice.exists_eq_decodeString {slice value : List Char} (h : LiteralSlice slice value) :
    ∃ quote body, slice = quote :: body ∧ value = decodeString (cutAt quote body).body := by
  cases h with
  | @closed quote spelling _ hq h =>
    refine ⟨quote, spelling ++ [quote], rfl, ?_⟩
    rw [h.cutAt_append (ne_backslash_of_quote hq), h.decodeString_eq]
  | @unclosed quote spelling _ hq h =>
    have hcut := h.cutAt_open (ne_backslash_of_quote hq) (.inl rfl)
    rw [List.append_nil] at hcut
    exact ⟨quote, spelling, rfl, by rw [hcut, h.decodeString_eq]⟩
  | @cutShort quote spelling _ hq h =>
    refine ⟨quote, spelling ++ ['\\'], rfl, ?_⟩
    rw [h.cutAt_open (ne_backslash_of_quote hq) (.inr rfl), h.decodeString_append (.inr rfl)]

theorem LiteralSlice.value_unique {slice value value' : List Char} (h : LiteralSlice slice value)
    (h' : LiteralSlice slice value') : value = value' := by
  obtain ⟨quote, body, rfl, rfl⟩ := h.exists_eq_decodeString
  obtain ⟨_, _, he, rfl⟩ := h'.exists_eq_decodeString
  obtain ⟨rfl, rfl⟩ := List.cons.inj he
  rfl

end TemplateTree
