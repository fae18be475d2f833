import TemplateTree.Proofs.Diagnostic.Kept
import TemplateTree.Proofs.Reading.FeedAll

/-!
# Readings report warnings

A token makes a reading note down one of two things (`Reading.feed_cases`). The keyword of
a tag that is known and has no node is logged and, if the options say so, reported. Every
other note is an aside (`Note.IsAside`): a tag that is ignored, or an `as` or a name that
has nothing to go with. Only the report of a skipped tag depends on the options beyond
their position mode, and the state after the token never does.

None of these reports is an error. An error stops the reading and is its fault, which is
no note.
-/

namespace TemplateTree

/-- The note is no log entry of a skipped tag, and no report but of an alias that dangles. -/
def Note.IsAside : Note → Prop
  | .report d => ∃ s, d = Code.danglingAlias.at (some s)
  | .log (.skipped ..) => False
  | .log (.ignored ..) => True

/-- All that the computation notes down is aside. -/
abbrev NoteM.Asides {α : Type} (x : NoteM α) : Prop := x.Gives Note.IsAside fun _ => True

/-- The warning that the tag of a keyword is skipped. -/
def Token.skipWarning (t : Token) (s : Span) : Diagnostic :=
  { Code.unmodeledDirective.at (some s) with
    message := s!"`{t.value}` directive is recognised but not modeled; no node produced" }

/-- What is noted down of a keyword whose tag is skipped. -/
def Token.noteSkipped (options : Options) (t : Token) : NoteM Unit := do
  NoteM.log (.skipped t.value t.line t.column)
  if options.reportUnmodeled then
    NoteM.report (t.skipWarning (← NoteM.ofPlace (t.span options.positionMode)))

variable {options : Options} {mode : PositionMode}

-- ---------------------------------------------------------------------------
-- The parts of a directive
-- ---------------------------------------------------------------------------

namespace ImportNames

theorem asides_name (p : ImportNames) {n : Leaf} {s : Span} (hn : n.span? = some s) :
    (p.name n).Asides := by
  unfold name
  split
  · exact .pure trivial
  split
  · exact .pure trivial
  · exact .bind (.note ⟨s, by rw [hn]⟩) fun _ _ => .pure trivial

theorem asides_feed (p : ImportNames) (t : Token) : (p.feed mode t).Asides := by
  unfold feed
  split
  · exact .pure trivial
  split
  · exact .pure trivial
  · exact .bind (.ofPlace _) fun _ _ => asides_name _ rfl

theorem asides_close (p : ImportNames) (template : Leaf) (opening closing : Token) :
    (p.close mode template opening closing).Asides := by
  obtain ⟨phrase, awaiting?, names⟩ := p
  have hend : (close mode ⟨phrase, none, names⟩ template opening closing).Asides :=
    .bind (.ofPlace _) fun _ _ => .pure trivial
  cases awaiting? with
  | none => exact hend
  | some as => exact .bind (.ofPlace _) fun s _ => .bind (.note ⟨s, rfl⟩) fun _ _ => hend

end ImportNames

namespace ImportTarget

theorem asides_feed (p : ImportTarget) (t : Token) : (p.feed mode t).Asides := by
  unfold feed
  split
  · exact .pure trivial
  split
  · exact .pure trivial
  split
  · exact .bind (.ofPlace _) fun _ _ => .pure trivial
  · exact .pure trivial

theorem asides_close (p : ImportTarget) (template : Leaf) (opening closing : Token) :
    (p.close mode template opening closing).Asides := by
  refine .bind (.ofPlace _) fun s _ => ?_
  split
  · exact .fail _
  · exact .pure trivial

end ImportTarget

theorem IncludeWords.asides_close (p : IncludeWords) (opening closing : Token) :
    (p.close mode opening closing).Asides := by
  refine .bind (.ofPlace _) fun s _ => ?_
  split
  · exact .fail _
  · exact .bind (.ofPlace _) fun _ _ => .pure trivial

-- ---------------------------------------------------------------------------
-- Directives
-- ---------------------------------------------------------------------------

namespace Directive

theorem asides_close (d : Directive) (opening closing : Token) :
    (d.close mode opening closing).Asides := by
  cases d with
  | keyword => exact .pure trivial
  | importPath form => exact .bind (.ofPlace _) fun _ _ => .fail _
  | importNames template part =>
    exact .bind (part.asides_close template opening closing) fun _ _ => .pure trivial
  | importTarget template part =>
    exact .bind (part.asides_close template opening closing) fun _ _ => .pure trivial
  | including part => exact .bind (part.asides_close opening closing) fun _ _ => .pure trivial

/-- A keyword opens a directive with a node, or its tag is skipped, or it is ignored. -/
theorem ofKeyword_cases (mode : PositionMode) (t : Token) :
    (∃ x, x.Asides ∧ ∀ reportUnmodeled, ofKeyword ⟨mode, reportUnmodeled⟩ t = x) ∨
      (t.value ∈ unmodeled ∧ ∀ reportUnmodeled, ofKeyword ⟨mode, reportUnmodeled⟩ t =
        t.noteSkipped ⟨mode, reportUnmodeled⟩ >>= fun _ => pure (.done none)) := by
  unfold ofKeyword
  split
  · exact .inl ⟨_, .pure trivial, fun _ => rfl⟩
  split
  · rename_i hu
    refine .inr ⟨hu, fun reportUnmodeled => ?_⟩
    cases reportUnmodeled with
    | false => simp [Token.noteSkipped]
    | true => simp [Token.noteSkipped, Token.skipWarning]
  · have hignored : (Note.log (.ignored t.value t.line t.column)).IsAside := trivial
    exact .inl ⟨_, .bind (.note hignored) fun _ _ => .pure trivial, fun _ => rfl⟩

theorem feed_cases (mode : PositionMode) (opening : Token) (d : Directive) (t : Token) :
    (∃ x, x.Asides ∧ ∀ reportUnmodeled, d.feed ⟨mode, reportUnmodeled⟩ opening t = x) ∨
      (t.kind = .symbol ∧ t.value ∈ unmodeled ∧ ∀ reportUnmodeled,
        d.feed ⟨mode, reportUnmodeled⟩ opening t =
          t.noteSkipped ⟨mode, reportUnmodeled⟩ >>= fun _ => pure (.done none)) := by
  unfold feed
  cases t.role with
  | closing =>
    exact .inl ⟨_, .bind (d.asides_close opening t) fun _ _ => .pure trivial, fun _ => rfl⟩
  | passedOver => exact .inl ⟨_, .pure trivial, fun _ => rfl⟩
  | word =>
    cases d with
    | keyword =>
      simp only [word]
      split
      · rename_i hk
        exact (ofKeyword_cases mode t).imp_right fun h => ⟨hk, h⟩
      · exact .inl ⟨_, .pure trivial, fun _ => rfl⟩
    | importPath form =>
      refine .inl ⟨word ⟨mode, true⟩ (.importPath form) t, ?_, fun _ => rfl⟩
      simp only [word]
      split
      · refine .bind (.ofPlace _) fun _ _ => ?_
        cases form <;> exact .pure trivial
      · exact .pure trivial
    | importNames template part =>
      exact .inl ⟨_, .bind (part.asides_feed t) fun _ _ => .pure trivial, fun _ => rfl⟩
    | importTarget template part =>
      exact .inl ⟨_, .bind (part.asides_feed t) fun _ _ => .pure trivial, fun _ => rfl⟩
    | including part => exact .inl ⟨_, .pure trivial, fun _ => rfl⟩

end Directive

-- ---------------------------------------------------------------------------
-- Readings
-- ---------------------------------------------------------------------------

/-- What a token makes a reading note down is aside, or it is that a tag is skipped. -/
theorem Reading.feed_cases (mode : PositionMode) (r : Reading) (t : Token) :
    (∃ x, x.Asides ∧ ∀ reportUnmodeled, r.feed ⟨mode, reportUnmodeled⟩ t = x) ∨
      (t.kind = .symbol ∧ t.value ∈ Directive.unmodeled ∧ ∃ r', ∀ reportUnmodeled,
        r.feed ⟨mode, reportUnmodeled⟩ t =
          t.noteSkipped ⟨mode, reportUnmodeled⟩ >>= fun _ => pure r') := by
  unfold feed
  cases r.open? with
  | none =>
    refine .inl ⟨r.outside mode t, ?_, fun _ => rfl⟩
    unfold outside
    split
    · exact .bind (.ofPlace _) fun _ _ => .pure trivial
    · exact .pure trivial
    · exact .pure trivial
  | some o =>
    simp only [inside]
    rcases Directive.feed_cases mode o.opening o.directive t with ⟨x, hx, hf⟩ | ⟨hk, hu, hf⟩
    · refine .inl ⟨_, ?_, fun reportUnmodeled => by rw [hf reportUnmodeled]⟩
      refine .bind hx fun progress _ => ?_
      cases progress <;> exact .pure trivial
    · refine .inr ⟨hk, hu, { r with open? := none }, fun reportUnmodeled => ?_⟩
      simp only [hf, bind_assoc, pure_bind]
      rfl

-- ---------------------------------------------------------------------------
-- Severity
-- ---------------------------------------------------------------------------

/-- The note is no report, or the report of a warning. -/
def Note.IsWarning (n : Note) : Prop := ∀ d ∈ n.diagnostic?, d.severity = .warning

theorem Note.IsAside.isWarning {n : Note} (h : n.IsAside) : n.IsWarning := by
  cases n with
  | report d =>
    obtain ⟨s, rfl⟩ := h
    rintro _ ⟨⟩
    rfl
  | log entry => exact nofun

theorem Token.warns_noteSkipped (t : Token) :
    (t.noteSkipped options).Gives Note.IsWarning fun _ => True := by
  refine .bind (.note nofun) fun _ _ => ?_
  split
  · exact .bind (.ofPlace _) fun s _ => .note (by rintro _ ⟨⟩; rfl)
  · exact .pure trivial

theorem Reading.warns_feed (options : Options) (r : Reading) (t : Token) :
    (r.feed options t).Gives Note.IsWarning fun _ => True := by
  rcases feed_cases options.positionMode r t with ⟨x, hx, hf⟩ | ⟨-, -, r', hf⟩
  · rw [hf options.reportUnmodeled]
    exact hx.mono (fun _ => Note.IsAside.isWarning) fun _ => id
  · rw [hf options.reportUnmodeled]
    exact .bind t.warns_noteSkipped fun _ _ => .pure trivial

/-- No error is among the diagnostics of a reading, whatever its tokens and its outcome. -/
theorem Document.warning_of_mem_diagnostics (options : Options) (ls : List Lexeme) :
    ∀ d ∈ (read options { rest := ls }).diagnostics, d.severity = .warning := by
  intro d hd
  obtain ⟨n, hn, hnd⟩ := List.mem_filterMap.mp (Diagnostic.mem_of_mem_kept hd)
  have step (r : Reading) (_ : List Token) (t : Token) (_ : True) :=
    r.warns_feed options t
  rw [notes_read] at hn
  exact (Reading.gives_feedAll (N := fun _ => Note.IsWarning) (fun _ _ _ => id) step [] trivial
    _).notes n hn d hnd

end TemplateTree
