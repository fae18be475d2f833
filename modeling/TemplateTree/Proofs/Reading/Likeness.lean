import Mathlib.Data.List.Forall2
import TemplateTree.Options
import TemplateTree.Proofs.Reading.Gives
import TemplateTree.Proofs.Token.Placed
import TemplateTree.Proofs.Tree.MapSpan
import TemplateTree.Token.Source

/-!
# Likeness of two readings

Two readings of tokens that are alike, with options that may differ in the
position mode, compared up to what a likeness does to the spans of either side.
A likeness says when two tokens and two faults correspond, and carries the laws
that positions have to obey; that the readings then correspond step by step is
proved once, for every likeness.
-/

namespace TemplateTree

structure Likeness where
  left : Options
  right : Options
  onLeft : Option Span → Option Span
  onRight : Option Span → Option Span
  token : Token → Token → Prop
  fault : Fault → Fault → Prop
  reportUnmodeled : left.reportUnmodeled = right.reportUnmodeled
  kind {t u : Token} : token t u → u.kind = t.kind
  value {t u : Token} : token t u → u.value = t.value
  unknown : onLeft none = onRight none
  cover? {s s' r r' : Option Span} : onLeft s = onRight s' → onLeft r = onRight r' →
    onLeft (Span.cover? s r) = onRight (Span.cover? s' r')
  span {t u : Token} : token t u → t.kind.isSignificant →
    ∃ s s', t.span left.positionMode = .ok s ∧ u.span right.positionMode = .ok s' ∧
      onLeft (some s) = onRight (some s')
  spanTo {t u t' u' : Token} : token t u → token t' u' → t.kind = .blockStart →
    t'.kind = .blockEnd → t.Before t' →
    ∃ s s', t.spanTo t' left.positionMode = .ok s ∧ u.spanTo u' right.positionMode = .ok s' ∧
      onLeft (some s) = onRight (some s')
  comment {t u : Token} : token t u → t.kind = .comment →
    ∃ c d, Comment.ofToken left.positionMode t = .ok c ∧
      Comment.ofToken right.positionMode u = .ok d ∧ c.mapSpan onLeft = d.mapSpan onRight
  missingAlias {s s' : Span} : onLeft (some s) = onRight (some s') →
    fault (.parse (.missingAlias s)) (.parse (.missingAlias s'))
  missingTemplatePath {s s' : Span} (construct : String) : onLeft (some s) = onRight (some s') →
    fault (.parse (.missingTemplatePath construct s)) (.parse (.missingTemplatePath construct s'))
  unexpectedEnd {t u : Token} (construct : String) : token t u →
    fault (TokenSource.endFault ⟨[], some t⟩ left.positionMode construct)
      (TokenSource.endFault ⟨[], some u⟩ right.positionMode construct)

namespace Likeness

variable {α β γ δ : Type} (L : Likeness)

/-- Two words or strings that correspond. -/
def Word (t u : Token) : Prop := L.token t u ∧ t.kind.isSignificant

/-- The two delimiters of a directive on either side, in reading order. -/
structure Delimits (o c o' c' : Token) : Prop where
  opening : L.token o o'
  closing : L.token c c'
  blockStart : o.kind = .blockStart
  blockEnd : c.kind = .blockEnd
  before : o.Before c

inductive Noted : Note → Note → Prop
  | report {d d' : Diagnostic} (h : d.mapSpan L.onLeft = d'.mapSpan L.onRight) :
      Noted (.report d) (.report d')
  | skipped {t u : Token} (h : L.token t u) :
      Noted (.log (.skipped t.value t.line t.column)) (.log (.skipped u.value u.line u.column))
  | ignored {t u : Token} (h : L.token t u) :
      Noted (.log (.ignored t.value t.line t.column)) (.log (.ignored u.value u.line u.column))

inductive Outcome (R : α → β → Prop) : Except Fault α → Except Fault β → Prop
  | ok {a : α} {b : β} (h : R a b) : Outcome R (.ok a) (.ok b)
  | error {e e' : Fault} (h : L.fault e e') : Outcome R (.error e) (.error e')

/-- Two computations that note down alike and end alike. -/
structure Runs (R : α → β → Prop) (x : NoteM α) (y : NoteM β) : Prop where
  notes : List.Forall₂ L.Noted x.notes y.notes
  outcome : L.Outcome R x.outcome y.outcome

variable {L} {R : α → β → Prop} {S : γ → δ → Prop} {x : NoteM α} {y : NoteM β}

theorem Outcome.mono {R' : α → β → Prop} {x : Except Fault α} {y : Except Fault β}
    (h : L.Outcome R x y) (hr : ∀ a b, R a b → R' a b) : L.Outcome R' x y := by
  cases h with
  | ok hab => exact .ok (hr _ _ hab)
  | error he => exact .error he

theorem Outcome.eq_ok_iff {x y : Except Fault α} (h : L.Outcome Eq x y) {a : α} :
    x = .ok a ↔ y = .ok a := by
  cases h with
  | ok hab => rw [hab]
  | error => exact ⟨nofun, nofun⟩

theorem Outcome.bind {x : Except Fault α} {y : Except Fault β} {f : α → Except Fault γ}
    {g : β → Except Fault δ} (h : L.Outcome R x y)
    (hf : ∀ a b, x = .ok a → R a b → L.Outcome S (f a) (g b)) :
    L.Outcome S (x.bind f) (y.bind g) := by
  cases h with
  | ok hab => exact hf _ _ rfl hab
  | error he => exact .error he

theorem Runs.pure {a : α} {b : β} (h : R a b) : L.Runs R (pure a) (pure b) := ⟨.nil, .ok h⟩

theorem Runs.fail {e e' : Fault} (h : L.fault e e') : L.Runs R (NoteM.fail e) (NoteM.fail e') :=
  ⟨.nil, .error h⟩

theorem Runs.note {n n' : Note} (h : L.Noted n n') :
    L.Runs (fun _ _ => True) (NoteM.note n) (NoteM.note n') := ⟨.cons h .nil, .ok trivial⟩

theorem Runs.bind {f : α → NoteM γ} {g : β → NoteM δ} (h : L.Runs R x y)
    (hf : ∀ a b, R a b → L.Runs S (f a) (g b)) : L.Runs S (x >>= f) (y >>= g) := by
  obtain ⟨notes, outcome⟩ := x
  obtain ⟨notes', outcome'⟩ := y
  obtain ⟨hn, ho⟩ := h
  cases ho with
  | ok hab =>
    rw [NoteM.bind_of_ok rfl, NoteM.bind_of_ok rfl]
    exact ⟨List.rel_append hn (hf _ _ hab).notes, (hf _ _ hab).outcome⟩
  | error he =>
    rw [NoteM.bind_of_error rfl, NoteM.bind_of_error rfl]
    exact ⟨hn, .error he⟩

theorem Runs.of_gives {N : Note → Prop} {Q : α → Prop} (h : L.Runs R x y) (hx : x.Gives N Q) :
    L.Runs (fun a b => R a b ∧ Q a) x y := by
  obtain ⟨notes, outcome⟩ := x
  obtain ⟨notes', outcome'⟩ := y
  obtain ⟨hn, ho⟩ := h
  cases ho with
  | ok hab => exact ⟨hn, .ok ⟨hab, hx.result _ rfl⟩⟩
  | error he => exact ⟨hn, .error he⟩

/-- What is reported on either side is the same up to the spans. -/
theorem reported_of_noted {ns ms : List Note} (h : List.Forall₂ L.Noted ns ms) :
    (ns.filterMap Note.diagnostic?).map (·.mapSpan L.onLeft) =
      (ms.filterMap Note.diagnostic?).map (·.mapSpan L.onRight) := by
  induction h with
  | nil => rfl
  | cons hn _ ih =>
    cases hn with
    | report hd => exact List.cons_eq_cons.mpr ⟨hd, ih⟩
    | skipped | ignored => exact ih

/-- If only equal tokens correspond, the log entries on either side are the same. -/
theorem log_of_noted {ns ms : List Note} (h : List.Forall₂ L.Noted ns ms)
    (hL : ∀ t u, L.token t u → t = u) : ns.filterMap Note.entry? = ms.filterMap Note.entry? := by
  induction h with
  | nil => rfl
  | cons hn _ ih =>
    cases hn with
    | report => exact ih
    | skipped ht =>
      obtain rfl := hL _ _ ht
      exact List.cons_eq_cons.mpr ⟨rfl, ih⟩
    | ignored ht =>
      obtain rfl := hL _ _ ht
      exact List.cons_eq_cons.mpr ⟨rfl, ih⟩

theorem Runs.span {t u : Token} (h : L.Word t u) :
    L.Runs (fun s s' => L.onLeft (some s) = L.onRight (some s'))
      (NoteM.ofPlace (t.span L.left.positionMode))
      (NoteM.ofPlace (u.span L.right.positionMode)) := by
  obtain ⟨s, s', hs, hs', he⟩ := L.span h.1 h.2
  rw [hs, hs']
  exact ⟨.nil, .ok he⟩

theorem Runs.spanTo {o c o' c' : Token} (h : L.Delimits o c o' c') :
    L.Runs (fun s s' => L.onLeft (some s) = L.onRight (some s'))
      (NoteM.ofPlace (o.spanTo c L.left.positionMode))
      (NoteM.ofPlace (o'.spanTo c' L.right.positionMode)) := by
  obtain ⟨s, s', hs, hs', he⟩ := L.spanTo h.opening h.closing h.blockStart h.blockEnd h.before
  rw [hs, hs']
  exact ⟨.nil, .ok he⟩

end Likeness

end TemplateTree
