import Mathlib.Data.List.Induction
import TemplateTree.Directive.Phrase

/-!
# When a phrase is confirmed

A phrase of two different keywords is confirmed by just those tokens in which its first
keyword stands right in front of its second one, and it waits for the second one when the
last token is the first (`Phrase.state_feedAll`).
-/

namespace TemplateTree

open scoped List

theorem singleton_suffix_concat {α : Type} {x y : α} {xs : List α} :
    [x] <:+ xs ++ [y] ↔ x = y := by
  constructor
  · rintro ⟨front, h⟩
    exact List.singleton_inj.mp (List.append_inj' h rfl).2
  · rintro rfl
    exact List.suffix_append xs [x]

/-- Two neighbours are among the elements before the last one, or they are the last two. -/
theorem pair_infix_concat {α : Type} {x y z : α} {xs : List α} :
    [x, y] <:+: xs ++ [z] ↔ [x, y] <:+: xs ∨ [x] <:+ xs ∧ y = z := by
  constructor
  · intro h
    rcases List.infix_concat_iff.mp h with ⟨front, he⟩ | h
    · have he' : (front ++ [x]) ++ [y] = xs ++ [z] := by simpa using he
      obtain ⟨rfl, hyz⟩ := List.append_inj' he' rfl
      exact .inr ⟨List.suffix_append front [x], List.singleton_inj.mp hyz⟩
    · exact .inl h
  · rintro (h | ⟨⟨front, rfl⟩, rfl⟩)
    · exact h.trans (List.prefix_append xs [z]).isInfix
    · exact ⟨front, [], by simp⟩

/-- The token is a word other than these. -/
def Token.isWordBeside (words : List String) (t : Token) : Bool :=
  t.kind == .symbol && t.value ∉ words

namespace Phrase

/-- The first keyword stands right in front of the second one among the tokens. -/
def StandsIn (p : Phrase) (ts : List Token) : Prop :=
  ∃ t u, [t, u] <:+: ts ∧ t.isWord p.first ∧ u.isWord p.second

/-- The last of the tokens is the first keyword. -/
def EndsIn (p : Phrase) (ts : List Token) : Prop := ∃ t, [t] <:+ ts ∧ t.isWord p.first

/-- The phrase after some tokens. -/
def feedAll (p : Phrase) (ts : List Token) : Phrase := ts.foldl feed p

variable {p : Phrase} {t : Token} {ts : List Token}

theorem feedAll_concat (p : Phrase) (ts : List Token) (t : Token) :
    p.feedAll (ts ++ [t]) = (p.feedAll ts).feed t := List.foldl_append

theorem feedAll_first (p : Phrase) (ts : List Token) : (p.feedAll ts).first = p.first := by
  induction ts using List.reverseRecOn with
  | nil => rfl
  | append_singleton ts t ih => rw [feedAll_concat]; exact ih

theorem feedAll_second (p : Phrase) (ts : List Token) : (p.feedAll ts).second = p.second := by
  induction ts using List.reverseRecOn with
  | nil => rfl
  | append_singleton ts t ih => rw [feedAll_concat]; exact ih

theorem mentions_feedAll (p : Phrase) (ts : List Token) (t : Token) :
    (p.feedAll ts).mentions t = p.mentions t := by
  simp only [mentions, feedAll_first, feedAll_second]

theorem mentions_or_not_symbol (p : Phrase) (t : Token) :
    (p.mentions t || t.kind != .symbol) = !t.isWordBeside [p.first, p.second] := by
  simp only [mentions, Token.isWord, Token.isWordBeside, bne, List.mem_cons, List.not_mem_nil,
    or_false, not_or, Bool.decide_and, decide_not, beq_eq_decide]
  cases decide (t.kind = .symbol) <;> simp

theorem endsIn_concat : p.EndsIn (ts ++ [t]) ↔ t.isWord p.first := by
  simp only [EndsIn, singleton_suffix_concat, exists_eq_left]

theorem standsIn_concat :
    p.StandsIn (ts ++ [t]) ↔ p.StandsIn ts ∨ p.EndsIn ts ∧ t.isWord p.second := by
  simp only [StandsIn, EndsIn, pair_infix_concat]
  constructor
  · rintro ⟨u, v, huv | ⟨hs, rfl⟩, hu, hv⟩
    · exact .inl ⟨u, v, huv, hu, hv⟩
    · exact .inr ⟨⟨u, hs, hu⟩, hv⟩
  · rintro (⟨u, v, huv, hu, hv⟩ | ⟨⟨u, hs, hu⟩, ht⟩)
    · exact ⟨u, v, .inl huv, hu, hv⟩
    · exact ⟨u, t, .inr ⟨hs, rfl⟩, hu, ht⟩

/-- No token is both keywords of a phrase, if they differ. -/
theorem not_second_of_first (hne : p.first ≠ p.second) (h : t.isWord p.first) :
    t.isWord p.second = false := by
  simp only [Token.isWord, Bool.and_eq_true, beq_iff_eq] at h
  simp [Token.isWord, h.2, hne]

/-- What the state of a phrase says of the tokens it was fed with. -/
theorem state_feedAll (hp : p.state = .idle) (hne : p.first ≠ p.second) (ts : List Token) :
    match (p.feedAll ts).state with
    | .idle => ¬p.StandsIn ts ∧ ¬p.EndsIn ts
    | .pending => ¬p.StandsIn ts ∧ p.EndsIn ts
    | .confirmed => p.StandsIn ts := by
  induction ts using List.reverseRecOn with
  | nil =>
    change match p.state with | .idle => _ | .pending => _ | .confirmed => _
    rw [hp]
    exact ⟨by simp [StandsIn], by simp [EndsIn]⟩
  | append_singleton ts t ih =>
    rw [feedAll_concat]
    simp only [feed, after, feedAll_first, feedAll_second, endsIn_concat, standsIn_concat]
    cases hs : (p.feedAll ts).state with
    | idle =>
      rw [hs] at ih
      obtain ⟨hstands, hends⟩ := ih
      by_cases hf : t.isWord p.first <;> simp [hf, hstands, hends]
    | pending =>
      rw [hs] at ih
      obtain ⟨hstands, hends⟩ := ih
      by_cases hf : t.isWord p.first
      · simp [hf, hstands, not_second_of_first hne hf]
      · by_cases hw : t.isWord p.second <;> simp [hf, hw, hstands, hends]
    | confirmed =>
      rw [hs] at ih
      exact .inl ih

theorem isConfirmed_iff : p.isConfirmed ↔ p.state = .confirmed := beq_iff_eq

theorem isConfirmed_feedAll (hp : p.state = .idle) (hne : p.first ≠ p.second) (ts : List Token) :
    (p.feedAll ts).isConfirmed ↔ p.StandsIn ts := by
  have h := state_feedAll hp hne ts
  unfold isConfirmed
  cases hs : (p.feedAll ts).state with
  | idle | pending =>
    rw [hs] at h
    simp [h.1]
  | confirmed =>
    rw [hs] at h
    simp [h]

/-- A phrase of twice the same keyword is never confirmed: where its second keyword might
come, its first one comes again. -/
theorem not_confirmed_feedAll (hp : p.state = .idle) (heq : p.first = p.second)
    (ts : List Token) : (p.feedAll ts).state ≠ .confirmed := by
  induction ts using List.reverseRecOn with
  | nil => exact hp ▸ nofun
  | append_singleton ts t ih =>
    rw [feedAll_concat]
    simp only [feed, after, feedAll_first, feedAll_second, ← heq]
    cases hs : (p.feedAll ts).state with
    | idle | pending => by_cases hf : t.isWord p.first <;> simp [hf]
    | confirmed => exact absurd hs ih

/-- As long as a phrase is not confirmed, only the last token counts. -/
theorem after_of_not_confirmed (h : p.after t ≠ .confirmed) :
    p.after t = if t.isWord p.first then .pending else .idle := by
  unfold after at h ⊢
  cases hs : p.state with
  | idle => rfl
  | pending =>
    rw [hs] at h
    by_cases hf : t.isWord p.first
    · simp [hf]
    · by_cases hw : t.isWord p.second <;> simp_all
  | confirmed =>
    rw [hs] at h
    exact absurd rfl h

theorem state_feedAll_of_not_confirmed (hp : p.state = .idle)
    (h : (p.feedAll ts).state ≠ .confirmed) :
    ((p.feedAll ts).state = .pending ↔ p.EndsIn ts) ∧
      ((p.feedAll ts).state = .idle ↔ ¬p.EndsIn ts) := by
  rcases List.eq_nil_or_concat ts with rfl | ⟨ts, t, rfl⟩
  · simp [feedAll, hp, EndsIn]
  · rw [List.concat_eq_append] at *
    rw [feedAll_concat] at *
    have hstate : ((p.feedAll ts).feed t).state = _ := after_of_not_confirmed h
    rw [hstate, feedAll_first, endsIn_concat]
    by_cases hf : t.isWord p.first <;> simp [hf]

theorem mentions_iff (p : Phrase) (t : Token) :
    p.mentions t ↔ t.kind = .symbol ∧ (t.value = p.first ∨ t.value = p.second) := by
  simp only [mentions, Token.isWord, Bool.or_eq_true, Bool.and_eq_true, beq_iff_eq]
  exact and_or_left.symm

end Phrase

/-- A phrase of two different keywords that has been fed with some tokens is confirmed
exactly if the first keyword stands right in front of the second one among them. A phrase
of twice the same keyword is never confirmed. As long as a phrase is not, it waits for its
second keyword exactly if the last token is the first one. Whatever it was fed with, it
takes a token for one of its keywords exactly if the token is one. -/
theorem phrase_adjacent (first second : String) (ts : List Token) :
    let phrase : Phrase := { first, second }
    let fed := phrase.feedAll ts
    let endsInFirst := ∃ t, [t] <:+ ts ∧ t.isWord first
    (first ≠ second →
        (fed.state = .confirmed ↔ ∃ t u, [t, u] <:+: ts ∧ t.isWord first ∧ u.isWord second)) ∧
      (first = second → fed.state ≠ .confirmed) ∧
      (fed.state ≠ .confirmed →
        (fed.state = .pending ↔ endsInFirst) ∧ (fed.state = .idle ↔ ¬endsInFirst)) ∧
      ∀ t, fed.mentions t ↔ t.kind = .symbol ∧ (t.value = first ∨ t.value = second) := by
  intro phrase fed endsInFirst
  refine ⟨fun hne => ?_, fun heq => Phrase.not_confirmed_feedAll rfl heq ts,
    Phrase.state_feedAll_of_not_confirmed rfl, fun t => ?_⟩
  · rw [← Phrase.isConfirmed_iff]
    exact Phrase.isConfirmed_feedAll rfl hne ts
  · rw [Phrase.mentions_feedAll, Phrase.mentions_iff]

theorem phrase_adjacent_first_again :
    let word (value : String) : Token := ⟨.symbol, value, 1, 1⟩
    let literal : Token := ⟨.string, "context", 1, 1⟩
    let phrase : Phrase := { first := "with", second := "context" }
    let ts := [word "with", literal, word "with", word "with", word "context", word "x"]
    "with" ≠ "context" ∧ (phrase.feedAll ts).state = .confirmed ∧
      (phrase.feedAll (ts.take 4)).state = .pending ∧
      (phrase.feedAll (ts.take 2)).state = .idle := by
  intro word literal phrase ts
  have hne : "with" ≠ "context" := by decide
  obtain ⟨hconfirmed, -⟩ := phrase_adjacent "with" "context" ts
  obtain ⟨-, -, hwaits, -⟩ := phrase_adjacent "with" "context" (ts.take 4)
  obtain ⟨-, -, hidle, -⟩ := phrase_adjacent "with" "context" (ts.take 2)
  refine ⟨hne, (hconfirmed hne).mpr ?_, (hwaits (by decide)).1.mpr ?_, (hidle (by decide)).2.mpr ?_⟩
  · exact ⟨word "with", word "context", ⟨ts.take 3, [word "x"], rfl⟩, by decide, by decide⟩
  · exact ⟨word "with", ⟨ts.take 3, rfl⟩, by decide⟩
  · rintro ⟨t, ht, hword⟩
    obtain rfl := singleton_suffix_concat.mp (show [t] <:+ [word "with"] ++ [literal] from ht)
    exact absurd hword (by decide)

end TemplateTree
