import TemplateTree.Proofs.Position.Advance
import TemplateTree.Tree.CommentText

/-!
# The parts of a comment

What stands between the delimiters of a comment falls into trim markers, padding and
the text, and nothing is lost (`Comment.PartsOf`). So the line-aware span of
a comment is that of its text, and in either mode the span of a comment that is closed
lies between its delimiters (`Comment.spanFrom_between`).
-/

namespace TemplateTree

theorem dropLead_append (lead cs : List Char) : dropLead lead (lead ++ cs) = cs := by
  rw [dropLead, after?_eq_some_iff.mpr rfl]
  rfl

theorem dropTail_append (cs tail : List Char) : dropTail tail (cs ++ tail) = cs := by
  rw [dropTail, List.reverse_append, dropLead_append, List.reverse_reverse]

theorem dropTail_of_not_suffix {cs tail : List Char} (h : ¬tail <:+ cs) :
    dropTail tail cs = cs := by
  have hnone : after? tail.reverse cs.reverse = none := by
    rw [Option.eq_none_iff_forall_ne_some]
    intro rest hrest
    rw [after?_eq_some_iff] at hrest
    exact h (List.reverse_prefix.mp ⟨rest, hrest.symm⟩)
  rw [dropTail, dropLead, hnone, Option.getD_none, List.reverse_reverse]

/-- What a raw comment has between its delimiters. -/
def dropDelimiters (raw : List Char) : List Char := dropTail ['#', '}'] (dropLead ['{', '#'] raw)

theorem dropDelimiters_closed (inner : List Char) :
    dropDelimiters (['{', '#'] ++ inner ++ ['#', '}']) = inner := by
  rw [dropDelimiters, List.append_assoc, dropLead_append, dropTail_append]

theorem dropDelimiters_open {inner : List Char} (h : ¬['#', '}'] <:+ inner) :
    dropDelimiters (['{', '#'] ++ inner) = inner := by
  rw [dropDelimiters, dropLead_append, dropTail_of_not_suffix h]

theorem trim_append (cs : List Char) :
    trim cs ++ ((trimStart cs).reverse.takeWhile isBlank).reverse = trimStart cs := by
  rw [trim, trimEnd, ← List.reverse_append, List.takeWhile_append_dropWhile, List.reverse_reverse]

/-- Trimming splits off blanks at both ends. -/
theorem exists_trim (cs : List Char) :
    ∃ front back, front ++ trim cs ++ back = cs ∧ front.length = cs.length - (trimStart cs).length ∧
      (∀ c ∈ front, isBlank c) ∧ ∀ c ∈ back, isBlank c := by
  have hblank {cs : List Char} : ∀ c ∈ cs.takeWhile isBlank, isBlank c := by
    intro c hc
    exact List.all_eq_true.mp List.all_takeWhile c hc
  refine ⟨cs.takeWhile isBlank, ((trimStart cs).reverse.takeWhile isBlank).reverse, ?_, ?_,
    hblank, fun c hc => hblank c (List.mem_reverse.mp hc)⟩
  · rw [List.append_assoc, trim_append]
    exact List.takeWhile_append_dropWhile
  · have hl := congrArg List.length (List.takeWhile_append_dropWhile (p := isBlank) (l := cs))
    rw [List.length_append] at hl
    rw [trimStart]
    omega

theorem head?_dropWhile_isBlank (cs : List Char) :
    ∀ c ∈ (cs.dropWhile isBlank).head?, isBlank c = false := by
  intro c hc
  have h := List.head?_dropWhile_not isBlank cs
  rw [hc] at h
  simpa using h

theorem head?_trim (cs : List Char) : ∀ c ∈ (trim cs).head?, isBlank c = false := by
  intro c hc
  have hstart : (trimStart cs).head? = some c := by
    rw [← trim_append cs, List.head?_append, hc, Option.some_or]
  exact head?_dropWhile_isBlank cs c hstart

theorem getLast?_trim (cs : List Char) : ∀ c ∈ (trim cs).getLast?, isBlank c = false := by
  rw [trim, trimEnd, List.getLast?_reverse]
  exact head?_dropWhile_isBlank _

def trimMarker (trim : Bool) : List Char := if trim then ['-'] else []

namespace CommentText

theorem startsWithMarker_iff {cs : List Char} :
    startsWithMarker cs ↔ ∃ c rest, cs = '-' :: c :: rest ∧ isBlank c := by
  constructor
  · intro h
    unfold startsWithMarker at h
    split at h
    · exact ⟨_, _, rfl, h⟩
    · cases h
  · rintro ⟨c, rest, rfl, h⟩
    exact h

theorem startsWithMarker_reverse_iff {cs : List Char} :
    startsWithMarker cs.reverse ↔ ∃ rest c, cs = rest ++ [c, '-'] ∧ isBlank c := by
  rw [startsWithMarker_iff]
  constructor
  · rintro ⟨c, rest, hi, h⟩
    exact ⟨rest.reverse, c, by rw [← List.reverse_reverse cs, hi]; simp, h⟩
  · rintro ⟨rest, c, rfl, h⟩
    exact ⟨c, rest.reverse, by simp, h⟩

/-- The marker and the body between the delimiters make up what stands there. -/
theorem markers_append_body (raw : List Char) :
    trimMarker (ofRaw raw).trimLeft ++ (ofRaw raw).body ++ trimMarker (ofRaw raw).trimRight =
      dropDelimiters raw := by
  simp only [ofRaw, dropDelimiters]
  generalize dropTail ['#', '}'] (dropLead ['{', '#'] raw) = inner
  cases hl : startsWithMarker inner <;> cases hr : startsWithMarker inner.reverse
  · simp [trimMarker]
  · obtain ⟨rest, c, rfl, -⟩ := startsWithMarker_reverse_iff.mp hr
    simp [trimMarker]
  · obtain ⟨c, rest, rfl, -⟩ := startsWithMarker_iff.mp hl
    simp [trimMarker]
  · obtain ⟨c, rest, rfl, -⟩ := startsWithMarker_iff.mp hl
    obtain ⟨rest', d, hi, -⟩ := startsWithMarker_reverse_iff.mp hr
    -- the dash at the end is not the one at the front, since a blank follows that one
    have hlast : (c :: rest).getLast? = some '-' := by
      rw [← List.getLast?_cons_cons, hi]
      simp
    obtain ⟨body, hbody⟩ := List.getLast?_eq_some_iff.mp hlast
    simp [trimMarker, hbody]

/-- What stands between the delimiters: markers, padding, and the text. -/
theorem exists_padding (raw : List Char) :
    let c := ofRaw raw
    ∃ front back, dropDelimiters raw =
        trimMarker c.trimLeft ++ front ++ c.text ++ back ++ trimMarker c.trimRight ∧
      c.leadLength = 2 + (trimMarker c.trimLeft ++ front).length ∧
      (∀ c ∈ front, isBlank c) ∧ ∀ c ∈ back, isBlank c := by
  intro c
  obtain ⟨front, back, hbody, hfront, hf, hb⟩ := exists_trim c.body
  refine ⟨front, back, ?_, ?_, hf, hb⟩
  · rw [← markers_append_body raw, ← hbody, text]
    simp only [List.append_assoc]
    rfl
  · rw [leadLength, List.length_append, hfront, ← Nat.add_assoc]
    cases c.trimLeft <;> rfl

variable {raw inner tail : List Char}

/-- The text stands behind its lead. -/
theorem exists_lead (hraw : raw = ['{', '#'] ++ inner ++ tail)
    (hinner : dropDelimiters raw = inner) :
    ∃ lead back, raw = lead ++ (ofRaw raw).text ++ (back ++ tail) ∧
      (ofRaw raw).leadLength = lead.length := by
  obtain ⟨front, back, hparts, hlead, -, -⟩ := exists_padding raw
  refine ⟨['{', '#'] ++ trimMarker (ofRaw raw).trimLeft ++ front,
    back ++ trimMarker (ofRaw raw).trimRight, ?_, ?_⟩
  · rw [hinner] at hparts
    generalize ofRaw raw = c at *
    rw [hraw, hparts]
    simp only [List.append_assoc]
  · rw [hlead, List.append_assoc]
    have hlength : (['{', '#'] ++ (trimMarker (ofRaw raw).trimLeft ++ front)).length = 2 + _ :=
      List.length_append
    exact hlength.symm

theorem two_le_length_of_trimLeft (h : (ofRaw raw).trimLeft = true) :
    2 ≤ (dropDelimiters raw).length := by
  obtain ⟨c, rest, hi, -⟩ := startsWithMarker_iff.mp h
  rw [dropDelimiters, hi]
  exact Nat.le_add_left 2 _

end CommentText

namespace Comment

/-- What stands between the delimiters of a comment: its text without outer blanks, padded by
blanks, and the trim markers that it has. A dash is a marker if a blank keeps it from the
rest. -/
structure PartsOf (c : Comment) (inner : List Char) : Prop where
  padded : ∃ front back, inner =
      trimMarker c.trimLeft ++ front ++ c.text.toList ++ back ++ trimMarker c.trimRight ∧
    (∀ b ∈ front, isBlank b) ∧ ∀ b ∈ back, isBlank b
  head : ∀ b ∈ c.text.toList.head?, isBlank b = false
  last : ∀ b ∈ c.text.toList.getLast?, isBlank b = false
  trimLeft : c.trimLeft ↔ ∃ b rest, inner = '-' :: b :: rest ∧ isBlank b
  trimRight : c.trimRight ↔ ∃ rest b, inner = rest ++ [b, '-'] ∧ isBlank b

variable {raw inner lead rest : List Char}

theorem partsOf_ofRaw (hinner : dropDelimiters raw = inner)
    (span? : Option Span) :
    let c := CommentText.ofRaw raw
    PartsOf ⟨String.ofList c.text, c.trimLeft, c.trimRight, span?⟩ inner := by
  intro c
  obtain ⟨front, back, hparts, -, hf, hb⟩ := CommentText.exists_padding raw
  rw [hinner] at hparts
  have hleft : c.trimLeft = CommentText.startsWithMarker inner := by rw [← hinner]; rfl
  have hright : c.trimRight = CommentText.startsWithMarker inner.reverse := by rw [← hinner]; rfl
  refine ⟨⟨front, back, ?_, hf, hb⟩, ?_, ?_, ?_, ?_⟩ <;> simp only [String.toList_ofList]
  · exact hparts
  · exact head?_trim c.body
  · exact getLast?_trim c.body
  · rw [hleft, CommentText.startsWithMarker_iff]
  · rw [hright, CommentText.startsWithMarker_reverse_iff]

theorem le_start_spanFrom (p : Point) (mode : PositionMode) (raw : List Char)
    (c : CommentText) : p ≤ (spanFrom p mode raw c).start := by
  cases mode with
  | naive => exact p.le_right _
  | lineAware => exact p.le_past _ _

/-- In line-aware mode the span of a comment is that of its text. -/
theorem spanFrom_lineAware (p : Place) {c : CommentText} (hraw : raw = lead ++ c.text ++ rest)
    (hlead : c.leadLength = lead.length) :
    (spanFrom p.toPoint .lineAware raw c).start = (p.advance lead).toPoint ∧
      (spanFrom p.toPoint .lineAware raw c).stop = (p.advance (lead ++ c.text)).toPoint := by
  have htake : raw.take c.leadLength = lead := by
    rw [hlead, hraw, List.append_assoc, List.take_left]
  have hstart : (spanFrom p.toPoint .lineAware raw c).start = (p.advance lead).toPoint := by
    simp only [spanFrom, Span.ofText, htake, Place.past_lineAware]
  refine ⟨hstart, ?_⟩
  rw [Place.advance_append, ← Place.past_lineAware (p.advance lead), ← hstart]
  rfl

/-- In line-aware mode a comment spans just its text. -/
theorem slice?_lineAware {tail : List Char} (hraw : raw = ['{', '#'] ++ inner ++ tail)
    (hinner : dropDelimiters raw = inner) (front back : List Char) :
    let c := CommentText.ofRaw raw
    (spanFrom (Place.endOf front).toPoint .lineAware raw c).slice? (front ++ raw ++ back) =
      some c.text := by
  intro c
  obtain ⟨lead, rest, hsplit, hlead⟩ := CommentText.exists_lead hraw hinner
  obtain ⟨hstart, hstop⟩ := spanFrom_lineAware (Place.endOf front) hsplit hlead
  rw [Place.advance_eq, ← Place.endOf_append] at hstart hstop
  rw [← List.append_assoc] at hstop
  have hslice := Span.slice?_append (rest ++ tail ++ back) hstart hstop
  have htext : front ++ raw ++ back = front ++ lead ++ c.text ++ (rest ++ tail ++ back) := by
    conv => lhs; rw [hsplit]
    simp only [List.append_assoc]
    rfl
  rw [htext]
  exact hslice

theorem paddedWidth_lt (hraw : raw = ['{', '#'] ++ inner ++ ['#', '}'])
    (hinner : dropDelimiters raw = inner) :
    paddedWidth (CommentText.ofRaw raw).trimLeft < raw.length := by
  have hlen : raw.length = inner.length + 4 := by simp [hraw]
  cases ht : (CommentText.ofRaw raw).trimLeft with
  | false =>
    simp only [paddedWidth, Bool.false_eq_true, ↓reduceIte]
    omega
  | true =>
    have h := CommentText.two_le_length_of_trimLeft ht
    rw [hinner] at h
    simp only [paddedWidth, ↓reduceIte]
    omega

/-- In naive mode a closed comment stays on its first line, and there within its length. -/
theorem spanFrom_naive_within (p : Point) (hraw : raw = ['{', '#'] ++ inner ++ ['#', '}'])
    (hinner : dropDelimiters raw = inner) :
    let s := spanFrom p .naive raw (CommentText.ofRaw raw)
    s.start.line = p.line ∧ s.stop.line = p.line ∧ p.column ≤ s.start.column ∧
      s.stop.column ≤ p.column + raw.length := by
  have hleft := paddedWidth_lt hraw hinner
  refine ⟨rfl, rfl, ?_, ?_⟩ <;> simp only [spanFrom, Span.ofPaddedComment, Point.right] <;> omega

/-- The span of a closed comment starts in front of the closing delimiter and does not
reach beyond it. -/
theorem spanFrom_between (p : Place) (mode : PositionMode)
    (hraw : raw = ['{', '#'] ++ inner ++ ['#', '}']) :
    let s := spanFrom p.toPoint mode raw (CommentText.ofRaw raw)
    p.toPoint ≤ s.start ∧ s.start < (p.advance raw).toPoint ∧ s.stop ≤ (p.advance raw).toPoint := by
  intro s
  have hinner : dropDelimiters raw = inner := by
    rw [hraw, dropDelimiters_closed]
  cases mode with
  | naive =>
    have hleft := paddedWidth_lt hraw hinner
    have hend := p.right_le_advance raw
    obtain ⟨-, hline, -, hcolumn⟩ := spanFrom_naive_within p.toPoint hraw hinner
    have hstop : s.stop ≤ p.toPoint.right raw.length := Or.inr ⟨hline, hcolumn⟩
    have hstart := Point.lt_of_lt_of_le (Point.right_lt_right p.toPoint hleft) hend
    exact ⟨Point.le_right _ _, hstart, Point.le_trans hstop hend⟩
  | lineAware =>
    obtain ⟨lead, back, hsplit, hlead⟩ := CommentText.exists_lead hraw hinner
    obtain ⟨hstart, hstop⟩ := spanFrom_lineAware p hsplit hlead
    have hlt : s.stop < (p.advance raw).toPoint := by
      rw [hstop]
      conv => rhs; rw [hsplit, Place.advance_append]
      exact Place.toPoint_lt_advance _ (by simp)
    refine ⟨?_, Point.lt_of_le_of_lt s.start_le_stop hlt, Point.le_of_lt hlt⟩
    rw [hstart]
    exact p.toPoint_le_advance lead

end Comment

end TemplateTree
