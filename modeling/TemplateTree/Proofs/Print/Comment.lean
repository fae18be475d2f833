import TemplateTree.Proofs.Print.Part
import TemplateTree.Proofs.Tree.CommentText

/-!
# Printed comments

A comment as it is printed: its text between two blanks, markers next to the delimiters.
Both are read back from it. The naive span of a comment is computed for just this form, so
for a text on one line it is the line-aware one (`Comment.spanFrom_printComment`).
-/

namespace TemplateTree

/-- What stands between the delimiters of a printed comment. -/
def commentBody (text : List Char) (trimLeft trimRight : Bool) : List Char :=
  (if trimLeft then ['-'] else []) ++ [' '] ++ text ++ ([' '] ++ if trimRight then ['-'] else [])

theorem printComment_eq (text : List Char) (trimLeft trimRight : Bool) :
    printComment text trimLeft trimRight =
      '{' :: '#' :: commentBody text trimLeft trimRight ++ ['#', '}'] := by
  simp [printComment, commentBody]

theorem length_printComment (text : List Char) (trimLeft trimRight : Bool) :
    (printComment text trimLeft trimRight).length =
      paddedWidth trimLeft + text.length + paddedWidth trimRight := by
  cases trimLeft <;> cases trimRight <;> simp [printComment, paddedWidth] <;> omega

-- ---------------------------------------------------------------------------
-- The text
-- ---------------------------------------------------------------------------

theorem trimStart_of_head {cs : List Char} (h : ¬cs.head?.any isBlank) : trimStart cs = cs := by
  cases cs with
  | nil => rfl
  | cons c cs => exact List.dropWhile_cons_of_neg h

theorem trimStart_blank (cs : List Char) : trimStart (' ' :: cs) = trimStart cs :=
  List.dropWhile_cons_of_pos (by decide)

/-- Only the padding in front is taken off a text that has more than blanks. -/
theorem trimStart_padded {cs : List Char} (hne : cs ≠ []) (hlead : ¬cs.head?.any isBlank) :
    trimStart ([' '] ++ cs ++ [' ']) = cs ++ [' '] := by
  obtain ⟨c, cs, rfl⟩ := List.exists_cons_of_ne_nil hne
  rw [List.append_assoc, List.singleton_append, trimStart_blank]
  exact trimStart_of_head hlead

/-- Trimming takes the padding off, and nothing else. -/
theorem trim_padded {cs : List Char} (hlead : ¬cs.head?.any isBlank)
    (htail : ¬cs.getLast?.any isBlank) : trim ([' '] ++ cs ++ [' ']) = cs := by
  by_cases hne : cs = []
  · rw [hne]
    exact (by decide : trim [' ', ' '] = [])
  · have he : trimStart cs.reverse = cs.reverse :=
      trimStart_of_head (by rwa [List.head?_reverse])
    rw [trim, trimStart_padded hne hlead, trimEnd, List.reverse_append, List.reverse_singleton,
      List.singleton_append, ← trimStart, trimStart_blank, he, List.reverse_reverse]

theorem commentBody_reverse (text : List Char) (trimLeft trimRight : Bool) :
    (commentBody text trimLeft trimRight).reverse =
      commentBody text.reverse trimRight trimLeft := by
  cases trimLeft <;> cases trimRight <;> simp [commentBody]

theorem startsWithMarker_commentBody (text : List Char) (trimLeft trimRight : Bool) :
    CommentText.startsWithMarker (commentBody text trimLeft trimRight) = trimLeft := by
  cases trimLeft <;> rfl

theorem CommentText.ofRaw_printComment (text : List Char) (trimLeft trimRight : Bool) :
    ofRaw (printComment text trimLeft trimRight) =
      { trimLeft, trimRight, body := [' '] ++ text ++ [' '] } := by
  have hinner : dropDelimiters (printComment text trimLeft trimRight) =
      commentBody text trimLeft trimRight := by
    rw [printComment_eq]
    exact dropDelimiters_closed _
  rw [ofRaw, ← dropDelimiters, hinner, commentBody_reverse, startsWithMarker_commentBody,
    startsWithMarker_commentBody]
  congr 1
  cases trimLeft <;> cases trimRight <;> simp [commentBody, List.dropLast_cons_of_ne_nil]

-- ---------------------------------------------------------------------------
-- The spans
-- ---------------------------------------------------------------------------

/-- A text for a comment on one line, which is not empty and has no blanks around it. -/
structure SingleLine (text : List Char) : Prop where
  ne_nil : text ≠ []
  no_feed : '\n' ∉ text
  no_lead : ¬text.head?.any isBlank
  no_tail : ¬text.getLast?.any isBlank

theorem SingleLine.leadLength {text : List Char} (h : SingleLine text)
    (trimLeft trimRight : Bool) :
    (CommentText.ofRaw (printComment text trimLeft trimRight)).leadLength =
      paddedWidth trimLeft := by
  rw [CommentText.ofRaw_printComment, CommentText.leadLength,
    trimStart_padded h.ne_nil h.no_lead]
  cases trimLeft <;> simp [paddedWidth]

/-- In either mode the span of a printed comment is that of its text. -/
theorem Comment.spanFrom_printComment (p : Point) (mode : PositionMode) {text : List Char}
    (h : SingleLine text) (trimLeft trimRight : Bool) :
    let raw := printComment text trimLeft trimRight
    spanFrom p mode raw (CommentText.ofRaw raw) =
      Span.ofText (p.right (paddedWidth trimLeft)) mode text := by
  intro raw
  cases mode with
  | naive =>
    simp only [spanFrom, raw, CommentText.ofRaw_printComment, Span.ofPaddedComment,
      length_printComment, Span.ofText, Point.past, Span.ext_iff, Point.ext_iff, Point.right]
    grind
  | lineAware =>
    have htext : (CommentText.ofRaw raw).text = text := by
      rw [CommentText.ofRaw_printComment, CommentText.text, trim_padded h.no_lead h.no_tail]
    have hlead : '\n' ∉ raw.take (paddedWidth trimLeft) := by
      cases trimLeft <;> simp [raw, printComment, paddedWidth]
    have hwidth : (raw.take (paddedWidth trimLeft)).length = paddedWidth trimLeft := by
      rw [List.length_take, length_printComment]
      omega
    rw [spanFrom, h.leadLength, htext, Point.past_of_not_mem _ _ hlead, hwidth]

end TemplateTree
