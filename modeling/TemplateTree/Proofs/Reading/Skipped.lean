import Mathlib.Data.List.Forall2
import TemplateTree.Proofs.Reading.Warnings
import TemplateTree.Proofs.Token.Placed

/-!
# Skipped tags

The keyword of a skipped tag is logged, and right after that it is reported, so the log
entries and the warnings of skipped tags are of the same tokens (`Note.Skip`). A reading
that does not report them differs in nothing else: its notes are those of the other
reading without the warnings (`NoteM.quiet`), and neither its state nor its outcome
depends on them.
-/

namespace TemplateTree

open scoped List

def LogEntry.isSkipped : LogEntry → Bool
  | .skipped .. => true
  | .ignored .. => false

/-- The log entry that the tag of a keyword is skipped. -/
def Token.skipEntry (t : Token) : LogEntry := .skipped t.value t.line t.column

/-- The keyword of a tag that is known and has no node. -/
structure Token.IsSkipped (t : Token) : Prop where
  symbol : t.kind = .symbol
  unmodeled : t.value ∈ Directive.unmodeled

/-- The warning is of the tag of this keyword and spans the keyword. -/
def Token.WarnedBy (mode : PositionMode) (t : Token) (d : Diagnostic) : Prop :=
  ∃ s, t.span mode = .ok s ∧ d = t.skipWarning s

variable {mode : PositionMode} {t : Token} {ts ks : List Token} {ns ms : List Note}

theorem Token.noteSkipped_eq {s : Span} (h : t.span mode = .ok s) (reportUnmodeled : Bool) :
    t.noteSkipped ⟨mode, reportUnmodeled⟩ =
      ⟨.log t.skipEntry :: if reportUnmodeled then [.report (t.skipWarning s)] else [],
        .ok ()⟩ := by
  unfold noteSkipped
  simp only [h]
  cases reportUnmodeled <;> rfl

-- ---------------------------------------------------------------------------
-- Entries and warnings
-- ---------------------------------------------------------------------------

/-- Apart from asides, the notes are the entry and the warning of each of the keywords. -/
inductive Note.Skip (mode : PositionMode) : List Note → List Token → Prop
  | nil : Skip mode [] []
  | aside {n : Note} {ns : List Note} {ks : List Token} (hn : n.IsAside) (h : Skip mode ns ks) :
      Skip mode (n :: ns) ks
  | skipped {ns : List Note} {ks : List Token} {t : Token} {s : Span} (ht : t.IsSkipped)
      (hs : t.span mode = .ok s) (h : Skip mode ns ks) :
      Skip mode (.log t.skipEntry :: .report (t.skipWarning s) :: ns) (t :: ks)

namespace Note.Skip

theorem of_asides (h : ∀ n ∈ ns, n.IsAside) : Skip mode ns [] := by
  induction ns with
  | nil => exact .nil
  | cons n ns ih =>
    obtain ⟨hn, h⟩ := List.forall_mem_cons.mp h
    exact .aside hn (ih h)

theorem append {us : List Token} (h : Skip mode ns ks) (h' : Skip mode ms us) :
    Skip mode (ns ++ ms) (ks ++ us) := by
  induction h with
  | nil => exact h'
  | aside hn _ ih => exact .aside hn ih
  | skipped ht hs _ ih => exact .skipped ht hs ih

theorem isSkipped (h : Skip mode ns ks) : ∀ t ∈ ks, t.IsSkipped := by
  induction h with
  | nil => simp
  | aside _ _ ih => exact ih
  | skipped ht _ _ ih => exact List.forall_mem_cons.mpr ⟨ht, ih⟩

theorem entries (h : Skip mode ns ks) :
    (ns.filterMap Note.entry?).filter LogEntry.isSkipped = ks.map Token.skipEntry := by
  induction h with
  | nil => rfl
  | @aside n _ _ hn _ ih =>
    rw [← ih]
    cases n with
    | report d => rfl
    | log entry =>
      cases entry with
      | skipped => exact hn.elim
      | ignored => rfl
  | skipped ht hs _ ih => exact congrArg (_ :: ·) ih

theorem warnings (h : Skip mode ns ks) :
    List.Forall₂ (Token.WarnedBy mode) ks
      ((ns.filterMap Note.diagnostic?).filter (·.code = Code.unmodeledDirective.id)) := by
  induction h with
  | nil => exact .nil
  | @aside n _ _ hn _ ih =>
    cases n with
    | report d =>
      obtain ⟨s, rfl⟩ := hn
      exact ih
    | log entry => exact ih
  | @skipped _ _ _ s ht hs _ ih => exact .cons ⟨s, hs, rfl⟩ ih

theorem danglingAlias (h : Skip mode ns ks) {d : Diagnostic}
    (hd : d ∈ ns.filterMap Note.diagnostic?) (hc : d.code ≠ Code.unmodeledDirective.id) :
    ∃ s, d = Code.danglingAlias.at (some s) := by
  induction h with
  | nil => cases hd
  | @aside n _ _ hn _ ih =>
    cases n with
    | report e =>
      rcases List.mem_cons.mp hd with rfl | hd
      · exact hn
      · exact ih hd
    | log entry => exact ih hd
  | skipped ht hs _ ih =>
    rcases List.mem_cons.mp hd with rfl | hd
    · exact absurd rfl hc
    · exact ih hd

end Note.Skip

-- ---------------------------------------------------------------------------
-- Without the warnings
-- ---------------------------------------------------------------------------

/-- The note is not the report that a tag is skipped. -/
def Note.isKept : Note → Bool
  | .report d => d.code ≠ Code.unmodeledDirective.id
  | .log _ => true

theorem Note.IsAside.isKept {n : Note} (h : n.IsAside) : n.isKept := by
  cases n with
  | report d =>
    obtain ⟨s, rfl⟩ := h
    rfl
  | log entry => rfl

/-- Leaving out the reports leaves out their diagnostics. -/
theorem Note.diagnostics_isKept (ns : List Note) :
    (ns.filter Note.isKept).filterMap Note.diagnostic? =
      (ns.filterMap Note.diagnostic?).filter (·.code ≠ Code.unmodeledDirective.id) := by
  rw [List.filterMap_filter, List.filter_filterMap]
  congr 1
  funext n
  cases n with
  | report d => simp [isKept, diagnostic?, Option.filter]
  | log entry => rfl

theorem Note.entries_isKept (ns : List Note) :
    (ns.filter Note.isKept).filterMap Note.entry? = ns.filterMap Note.entry? := by
  rw [List.filterMap_filter]
  congr 1
  funext n
  cases n with
  | report d => exact ite_self none
  | log entry => rfl

namespace NoteM

variable {α β : Type}

/-- The computation without the reports that a tag is skipped. -/
def quiet (x : NoteM α) : NoteM α := ⟨x.notes.filter Note.isKept, x.outcome⟩

theorem quiet_bind (x : NoteM α) (f : α → NoteM β) :
    (x >>= f).quiet = x.quiet >>= fun a => (f a).quiet := by
  cases h : x.outcome with
  | ok a =>
    rw [bind_of_ok h, bind_of_ok (x := x.quiet) h]
    simp [quiet]
  | error fault =>
    rw [bind_of_error h, bind_of_error (x := x.quiet) h]
    rfl

theorem Asides.quiet {x : NoteM α} (h : x.Asides) : x.quiet = x := by
  have hn : x.notes.filter Note.isKept = x.notes :=
    List.filter_eq_self.mpr fun n hn => (h.notes n hn).isKept
  rw [NoteM.quiet, hn]

end NoteM

-- ---------------------------------------------------------------------------
-- Readings
-- ---------------------------------------------------------------------------

namespace Reading

theorem skips_feed (mode : PositionMode) {p : Point} (h : t.start = .ok p) (r : Reading) :
    ∃ ks, ks <+ [t] ∧ Note.Skip mode (r.feed ⟨mode, true⟩ t).notes ks := by
  rcases feed_cases mode r t with ⟨x, hx, hf⟩ | ⟨hk, hu, r', hf⟩
  · rw [hf]
    exact ⟨[], [t].nil_sublist, .of_asides hx.notes⟩
  · rw [hf, Token.noteSkipped_eq (Token.span_eq h mode)]
    exact ⟨[t], .refl _, .skipped ⟨hk, hu⟩ (Token.span_eq h mode) .nil⟩

/-- The entries and the warnings of a reading are of some of its tokens, in their order. -/
theorem skips_feedAll (mode : PositionMode) (h : ∀ t ∈ ts, ∃ p, t.start = .ok p)
    (r : Reading) :
    ∃ ks, ks <+ ts ∧ Note.Skip mode (r.feedAll ⟨mode, true⟩ ts).notes ks := by
  induction ts generalizing r with
  | nil => exact ⟨[], .refl _, .nil⟩
  | cons t ts ih =>
    obtain ⟨⟨p, hp⟩, hts⟩ := List.forall_mem_cons.mp h
    obtain ⟨ks, hks, hskip⟩ := skips_feed mode hp r
    rw [feedAll_cons]
    cases ho : (r.feed ⟨mode, true⟩ t).outcome with
    | ok r' =>
      obtain ⟨us, hus, hskip'⟩ := ih hts r'
      rw [NoteM.bind_of_ok ho]
      exact ⟨ks ++ us, hks.append hus, hskip.append hskip'⟩
    | error fault =>
      rw [NoteM.bind_of_error ho]
      exact ⟨ks, hks.trans (List.sublist_append_left [t] ts), hskip⟩

/-- A token does the same without the warnings, if it has a place. -/
theorem feed_quiet (mode : PositionMode) {p : Point} (h : t.start = .ok p) (r : Reading) :
    r.feed ⟨mode, false⟩ t = (r.feed ⟨mode, true⟩ t).quiet := by
  rcases feed_cases mode r t with ⟨x, hx, hf⟩ | ⟨-, -, r', hf⟩
  · rw [hf, hf, hx.quiet]
  · rw [hf, hf, Token.noteSkipped_eq (Token.span_eq h mode),
      Token.noteSkipped_eq (Token.span_eq h mode)]
    rfl

theorem feedAll_quiet (mode : PositionMode) (h : ∀ t ∈ ts, ∃ p, t.start = .ok p)
    (r : Reading) :
    r.feedAll ⟨mode, false⟩ ts = (r.feedAll ⟨mode, true⟩ ts).quiet := by
  induction ts generalizing r with
  | nil => rfl
  | cons t ts ih =>
    obtain ⟨⟨p, hp⟩, hts⟩ := List.forall_mem_cons.mp h
    rw [feedAll_cons, feedAll_cons, NoteM.quiet_bind, feed_quiet mode hp]
    exact congrArg _ (funext (ih hts))

end Reading

end TemplateTree
