import TemplateTree.Proofs.Diagnostic.Kept
import TemplateTree.Proofs.Reading.FeedAll
import TemplateTree.Proofs.Token.Order

/-!
# Reports and faults

Each report of a reading stands at a token of its own, and the reports come in the
order of the tokens (`Note.Stand`). A token is reported when it is read, but for
an `as` without a name, which is reported when its directive closes; until then no
other token is, which is what a directive that is open keeps (`Directive.Awaits`).

A token that is read can stop the reading by its place, or by closing a directive
that lacks its path or its name (`Fault.OfToken`). That the input ends too early is no
fault of a token: it is found out at the end, where no directive may be open.
-/

namespace TemplateTree

variable {mode : PositionMode} {t : Token} {ts us : List Token}

-- ---------------------------------------------------------------------------
-- Evidence
-- ---------------------------------------------------------------------------

/-- Both have a place, and the first one starts before the second. -/
def Diagnostic.StartsBefore (d e : Diagnostic) : Prop :=
  ∃ s s', d.span? = some s ∧ e.span? = some s' ∧ s.start < s'.start

theorem Diagnostic.StartsBefore.not_repeats {d e : Diagnostic} (h : d.StartsBefore e) :
    ¬e.Repeats d := by
  obtain ⟨s, s', hs, hs', hlt⟩ := h
  rintro ⟨-, he⟩
  rw [hs, hs', Option.some.injEq] at he
  exact Point.lt_iff_not_le.mp hlt (he ▸ s.start.le_refl)

/-- Reports of tokens that start one after the other. -/
theorem Diagnostic.StartsBefore.of_tokens {d e : Diagnostic} {t u : Token} {s s' : Span}
    (ht : t.span mode = .ok s) (hu : u.span mode = .ok s') (h : t.StrictlyBefore u)
    (hd : d.span? = some s) (he : e.span? = some s') : d.StartsBefore e :=
  ⟨s, s', hd, he,
    (Token.strictlyBefore_iff (Token.start_of_span ht) (Token.start_of_span hu)).mp h⟩

/-- The reports among the notes have the spans of tokens, each of one, in order. -/
inductive Note.Stand (mode : PositionMode) : List Note → List Token → Prop
  | nil : Stand mode [] []
  | log {ns : List Note} {ts : List Token} (entry : LogEntry) (h : Stand mode ns ts) :
      Stand mode (.log entry :: ns) ts
  | pass {ns : List Note} {ts : List Token} (t : Token) (h : Stand mode ns ts) :
      Stand mode ns (t :: ts)
  | report {ns : List Note} {ts : List Token} {d : Diagnostic} {t : Token} {s : Span}
      (hs : t.span mode = .ok s) (hd : d.span? = some s) (h : Stand mode ns ts) :
      Stand mode (.report d :: ns) (t :: ts)

namespace Note.Stand

theorem none (mode : PositionMode) (ts : List Token) : Stand mode [] ts := by
  induction ts with
  | nil => exact .nil
  | cons t ts ih => exact .pass t ih

theorem append {ns ms : List Note} (h : Stand mode ns ts) (h' : Stand mode ms us) :
    Stand mode (ns ++ ms) (ts ++ us) := by
  induction h with
  | nil => exact h'
  | log entry _ ih => exact .log entry ih
  | pass t _ ih => exact .pass t ih
  | report hs hd _ ih => exact .report hs hd ih

theorem exists_of_mem {ns : List Note} {d : Diagnostic} (h : Stand mode ns ts)
    (hd : .report d ∈ ns) : ∃ t ∈ ts, ∃ s, t.span mode = .ok s ∧ d.span? = some s := by
  induction h with
  | nil => cases hd
  | log entry _ ih => exact ih ((List.mem_cons.mp hd).resolve_left nofun)
  | pass t _ ih =>
    obtain ⟨u, hu, hs⟩ := ih hd
    exact ⟨u, List.mem_cons_of_mem t hu, hs⟩
  | @report _ _ _ t s hs hds _ ih =>
    rcases List.mem_cons.mp hd with hd | hd
    · cases hd
      exact ⟨t, by simp, s, hs, hds⟩
    · obtain ⟨u, hu, hs⟩ := ih hd
      exact ⟨u, List.mem_cons_of_mem t hu, hs⟩

/-- Reports at tokens that start one after the other start one after the other. -/
theorem pairwise_startsBefore {ns : List Note} (h : Stand mode ns ts)
    (ho : ts.Pairwise Token.StrictlyBefore) :
    (ns.filterMap Note.diagnostic?).Pairwise Diagnostic.StartsBefore := by
  induction h with
  | nil => exact .nil
  | log entry _ ih => exact ih ho
  | pass t _ ih => exact ih (List.pairwise_cons.mp ho).2
  | report hs hd h ih =>
    obtain ⟨hlt, ho⟩ := List.pairwise_cons.mp ho
    refine .cons (fun e he => ?_) (ih ho)
    obtain ⟨n, hn, hne⟩ := List.mem_filterMap.mp he
    cases n with
    | log entry => cases hne
    | report e' =>
      cases hne
      obtain ⟨u, hu, s', hs', he'⟩ := h.exists_of_mem hn
      exact .of_tokens hs hs' (hlt u hu) hd he'

end Note.Stand

/-- A fault that a token gives rise to. -/
inductive Fault.OfToken : Fault → Prop
  | place (error : PlaceError) : OfToken (.place error)
  | missingAlias (span : Span) : OfToken (.parse (.missingAlias span))
  | missingTemplatePath (construct : String) (span : Span) :
      OfToken (.parse (.missingTemplatePath construct span))

/-- A fault that the end of the tokens gives rise to. -/
inductive Fault.OfEnd : Fault → Prop
  | place (error : PlaceError) : OfEnd (.place error)
  | unexpectedEnd (construct : String) (span? : Option Span) :
      OfEnd (.parse (.unexpectedEnd construct span?))

namespace NoteM

variable {α β : Type} {Q : α → List Token → Prop} {x : NoteM α}

/-- Of the tokens `ts`, which were not reported yet, the notes report some of a
front, and the result satisfies `Q` with the tokens after it. A fault is one of a
token. -/
structure Reports (mode : PositionMode) (ts : List Token) (Q : α → List Token → Prop)
    (x : NoteM α) : Prop where
  notes : ∃ us vs, us ++ vs = ts ∧ Note.Stand mode x.notes us ∧ ∀ a, x.outcome = .ok a → Q a vs
  fault : ∀ fault, x.outcome = .error fault → fault.OfToken

theorem Reports.pure {a : α} (h : Q a ts) : (Pure.pure a : NoteM α).Reports mode ts Q :=
  ⟨⟨[], ts, rfl, .nil, by rintro b ⟨⟩; exact h⟩, by rintro fault ⟨⟩⟩

theorem Reports.fail {fault : Fault} (h : fault.OfToken) :
    (NoteM.fail fault : NoteM α).Reports mode ts Q :=
  ⟨⟨[], ts, rfl, .nil, by rintro b ⟨⟩⟩, by rintro fault' ⟨⟩; exact h⟩

theorem Reports.log (entry : LogEntry) :
    (NoteM.log entry).Reports mode ts fun _ vs => vs = ts :=
  ⟨⟨[], ts, rfl, .log entry .nil, fun _ _ => rfl⟩, by rintro fault ⟨⟩⟩

theorem Reports.report {d : Diagnostic} {s : Span} (ht : t ∈ ts) (hs : t.span mode = .ok s)
    (hd : d.span? = some s) : (NoteM.report d).Reports mode ts fun _ _ => True := by
  obtain ⟨us, vs, rfl⟩ := List.append_of_mem ht
  have hn : Note.Stand mode [.report d] (us ++ [t]) := .append (.none mode us) (.report hs hd .nil)
  exact ⟨⟨us ++ [t], vs, by simp, hn, fun _ _ => trivial⟩, by rintro fault ⟨⟩⟩

theorem Reports.ofPlace (x : Except PlaceError α) :
    (NoteM.ofPlace x).Reports mode ts fun a vs => x = .ok a ∧ vs = ts := by
  cases x with
  | ok a => exact ⟨⟨[], ts, rfl, .nil, by rintro b ⟨⟩; exact ⟨rfl, rfl⟩⟩, by rintro fault ⟨⟩⟩
  | error e => exact ⟨⟨[], ts, rfl, .nil, by rintro b ⟨⟩⟩, by rintro fault ⟨⟩; exact .place e⟩

theorem Reports.bind {S : β → List Token → Prop} {f : α → NoteM β} (h : x.Reports mode ts Q)
    (hf : ∀ a vs, Q a vs → (f a).Reports mode vs S) : (x >>= f).Reports mode ts S := by
  obtain ⟨⟨us, vs, rfl, hn, hq⟩, he⟩ := h
  cases ho : x.outcome with
  | ok a =>
    obtain ⟨⟨us', vs', rfl, hn', hs⟩, he'⟩ := hf a vs (hq a ho)
    rw [bind_of_ok ho]
    exact ⟨⟨us ++ us', vs', List.append_assoc .., hn.append hn', hs⟩, he'⟩
  | error fault =>
    rw [bind_of_error ho]
    exact ⟨⟨us, vs, rfl, hn, by rintro b ⟨⟩⟩, by rintro fault' ⟨⟩; exact he fault ho⟩

/-- More tokens behind the ones at hand are left as they are. -/
theorem Reports.append (h : x.Reports mode ts Q) (us : List Token) :
    x.Reports mode (ts ++ us) fun a vs => ∃ ws, ws ++ us = vs ∧ Q a ws := by
  obtain ⟨⟨fs, vs, rfl, hn, hq⟩, he⟩ := h
  exact ⟨⟨fs, vs ++ us, (List.append_assoc ..).symm, hn, fun a ha => ⟨vs, rfl, hq a ha⟩⟩, he⟩

theorem Reports.stand (h : x.Reports mode ts Q) : Note.Stand mode x.notes ts := by
  obtain ⟨us, vs, rfl, hn, -⟩ := h.notes
  simpa using hn.append (.none mode vs)

end NoteM

-- ---------------------------------------------------------------------------
-- Import directives
-- ---------------------------------------------------------------------------

/-- An `as` that waits for its name is among the tokens. -/
def ImportNames.Awaits (p : ImportNames) (ts : List Token) : Prop := ∀ t ∈ p.awaiting?, t ∈ ts

namespace ImportNames

theorem reports_name {p : ImportNames} {n : Leaf} {s : Span} (ht : t ∈ ts)
    (hs : t.span mode = .ok s) (hn : n.span? = some s) :
    (p.name n).Reports mode ts Awaits := by
  obtain ⟨phrase, awaiting?, ⟨names⟩⟩ := p
  cases awaiting? with
  | none => exact .pure (by rintro t ⟨⟩)
  | some as =>
    cases names with
    | nil => exact .bind (.report ht hs hn) fun _ _ _ => .pure (by rintro t ⟨⟩)
    | cons last earlier => exact .pure (by rintro t ⟨⟩)

theorem reports_feed {p : ImportNames} (h : p.Awaits ts) (t : Token) :
    (p.feed mode t).Reports mode (ts ++ [t]) Awaits := by
  simp only [feed]
  split
  · exact .pure fun u hu => List.mem_append_left [t] (h u hu)
  split
  · exact .pure (by rintro u ⟨⟩; simp)
  · refine .bind (.ofPlace _) ?_
    rintro s _ ⟨hs, rfl⟩
    exact reports_name (by simp) hs rfl

theorem reports_close {p : ImportNames} (h : p.Awaits ts) (template : Leaf)
    (opening closing : Token) :
    (p.close mode template opening closing).Reports mode (ts ++ [closing]) fun _ _ => True := by
  obtain ⟨phrase, awaiting?, names⟩ := p
  have hend (ts : List Token) :
      (close mode ⟨phrase, none, names⟩ template opening closing).Reports mode ts
        fun _ _ => True :=
    .bind (.ofPlace _) fun _ _ _ => .pure trivial
  cases awaiting? with
  | none => exact hend _
  | some as =>
    refine .bind (.ofPlace _) ?_
    rintro s _ ⟨hs, rfl⟩
    exact .bind (.report (List.mem_append_left _ (h as rfl)) hs rfl) fun _ vs _ => hend vs

end ImportNames

namespace ImportTarget

theorem reports_feed (p : ImportTarget) (t : Token) (ts : List Token) :
    (p.feed mode t).Reports mode ts fun _ _ => True := by
  simp only [feed]
  split
  · exact .pure trivial
  split
  · exact .pure trivial
  split
  · exact .bind (.ofPlace _) fun _ _ _ => .pure trivial
  · exact .pure trivial

theorem reports_close (p : ImportTarget) (template : Leaf) (opening closing : Token)
    (ts : List Token) :
    (p.close mode template opening closing).Reports mode ts fun _ _ => True := by
  refine .bind (.ofPlace _) fun s _ _ => ?_
  split
  · exact .fail (.missingAlias s)
  · exact .pure trivial

end ImportTarget

theorem IncludeWords.reports_close (p : IncludeWords) (opening closing : Token)
    (ts : List Token) : (p.close mode opening closing).Reports mode ts fun _ _ => True := by
  refine .bind (.ofPlace _) fun s _ _ => ?_
  split
  · exact .fail (.missingTemplatePath "include" s)
  · exact .bind (.ofPlace _) fun _ _ _ => .pure trivial

-- ---------------------------------------------------------------------------
-- Directives
-- ---------------------------------------------------------------------------

namespace Directive

/-- Only an `as` among the tokens may still be reported of those before. -/
def Awaits (d : Directive) (ts : List Token) : Prop :=
  match d with
  | .importNames _ part => part.Awaits ts
  | _ => True

theorem Awaits.append {d : Directive} (h : d.Awaits ts) (us : List Token) :
    d.Awaits (ts ++ us) := by
  cases d with
  | importNames template part => exact fun t ht => List.mem_append_left us (h t ht)
  | _ => trivial

def GoesOn : Progress Directive (Option Item) → List Token → Prop
  | .reading d, ts => d.Awaits ts
  | .done _, _ => True

variable {options : Options}

theorem reports_ofKeyword (ht : t ∈ ts) :
    (ofKeyword options t).Reports options.positionMode ts GoesOn := by
  unfold ofKeyword
  split
  · rename_i d hd
    rcases modeled_cases hd with ⟨-, rfl⟩ | ⟨-, rfl⟩ | ⟨-, rfl⟩ <;> exact .pure trivial
  split
  · refine .bind (.log _) ?_
    rintro _ _ rfl
    split
    · refine .bind (.ofPlace _) ?_
      rintro s _ ⟨hs, rfl⟩
      exact .bind (.report ht hs rfl) fun _ _ _ => .pure trivial
    · exact .pure trivial
  · exact .bind (.log _) fun _ _ _ => .pure trivial

theorem reports_word {d : Directive} (h : d.Awaits ts) (t : Token) :
    (d.word options t).Reports options.positionMode (ts ++ [t]) GoesOn := by
  cases d with
  | keyword =>
    simp only [word]
    split
    · exact reports_ofKeyword (by simp)
    · exact .pure trivial
  | importPath form =>
    simp only [word]
    split
    · refine .bind (.ofPlace _) fun _ _ _ => ?_
      cases form with
      | names => exact .pure (by rintro u ⟨⟩)
      | target => exact .pure trivial
    · exact .pure trivial
  | importNames template part =>
    exact .bind (ImportNames.reports_feed h t) fun part _ hp => .pure hp
  | importTarget template part =>
    exact .bind (part.reports_feed t _) fun _ _ _ => .pure trivial
  | including part => exact .pure trivial

theorem reports_close {d : Directive} (h : d.Awaits ts) (opening closing : Token) :
    (d.close mode opening closing).Reports mode (ts ++ [closing]) fun _ _ => True := by
  cases d with
  | keyword => exact .pure trivial
  | importPath form =>
    exact .bind (.ofPlace _) fun s _ _ => .fail (.missingTemplatePath form.construct s)
  | importNames template part =>
    exact .bind (ImportNames.reports_close h template opening closing) fun _ _ _ => .pure trivial
  | importTarget template part =>
    exact .bind (part.reports_close template opening closing _) fun _ _ _ => .pure trivial
  | including part =>
    exact .bind (part.reports_close opening closing _) fun _ _ _ => .pure trivial

theorem reports_feed {d : Directive} (h : d.Awaits ts) (opening t : Token) :
    (d.feed options opening t).Reports options.positionMode (ts ++ [t]) GoesOn := by
  simp only [feed]
  split
  · exact .bind (reports_close h opening t) fun _ _ _ => .pure trivial
  · exact reports_word h t
  · exact .pure (h.append [t])

end Directive

-- ---------------------------------------------------------------------------
-- Readings
-- ---------------------------------------------------------------------------

namespace Reading

def Awaits (r : Reading) (ts : List Token) : Prop := ∀ o ∈ r.open?, o.directive.Awaits ts

variable {options : Options}

theorem reports_feed {r : Reading} (h : r.Awaits ts) (t : Token) :
    (r.feed options t).Reports options.positionMode (ts ++ [t]) Awaits := by
  obtain ⟨items, open?⟩ := r
  cases open? with
  | none =>
    simp only [feed, outside]
    split
    · exact .bind (.ofPlace _) fun _ _ _ => .pure (by rintro o ⟨⟩)
    · exact .pure (by rintro o ⟨⟩; trivial)
    · exact .pure (by rintro o ⟨⟩)
  | some o =>
    refine .bind (Directive.reports_feed (h o rfl) o.opening t) ?_
    intro x vs hx
    cases x with
    | reading d => exact .pure (by rintro o' ⟨⟩; exact hx)
    | done item? => exact .pure (by rintro o' ⟨⟩)

theorem reports_feedAll {r : Reading} (h : r.Awaits ts) (us : List Token) :
    (r.feedAll options us).Reports options.positionMode (ts ++ us) Awaits := by
  induction us generalizing r ts with
  | nil => exact .pure (by rwa [List.append_nil])
  | cons t us ih =>
    have he : ts ++ t :: us = ts ++ [t] ++ us := by simp
    rw [feedAll_cons, he]
    refine .bind ((reports_feed h t).append us) ?_
    rintro r' _ ⟨vs, rfl, hr⟩
    exact ih hr

/-- A reading that starts has nothing to report of earlier tokens. -/
theorem reports_start (options : Options) (ts : List Token) :
    (({} : Reading).feedAll options ts).Reports options.positionMode ts Awaits := by
  have hstart : Awaits {} [] := by rintro o ⟨⟩
  exact reports_feedAll hstart ts

theorem ofEnd_of_finish {r : Reading} {last? : Option Token} {fault : Fault}
    (h : r.finish options last? = .error fault) : fault.OfEnd := by
  obtain ⟨o, -, rfl⟩ := exists_of_finish_error h
  unfold TokenSource.endFault
  split
  · exact .unexpectedEnd _ _
  · exact .place _

end Reading

/-- What is reported of some tokens stands at some of them, in their order. -/
theorem Document.stand_of_read (options : Options) (ls : List Lexeme) :
    Note.Stand options.positionMode (read options { rest := ls }).notes
      (ls.map Lexeme.toToken) := by
  rw [notes_read]
  exact (Reading.reports_start options _).stand

/-- The end of input is met when all tokens have been read. -/
theorem Document.exists_of_unexpectedEnd {options : Options} {ls : List Lexeme}
    {construct : String} {span? : Option Span}
    (h : (read options { rest := ls }).outcome = .error (.parse (.unexpectedEnd construct span?))) :
    ∃ r, (({} : Reading).feedAll options (ls.map Lexeme.toToken)).outcome = .ok r ∧
      r.finish options (ls.map Lexeme.toToken).getLast? =
        .error (.parse (.unexpectedEnd construct span?)) := by
  rw [outcome_read] at h
  cases hf : (({} : Reading).feedAll options (ls.map Lexeme.toToken)).outcome with
  | error fault =>
    rw [hf] at h
    cases h
    nomatch (Reading.reports_start options _).fault _ hf
  | ok r =>
    rw [hf] at h
    exact ⟨r, rfl, h⟩

end TemplateTree
