import TemplateTree.Diagnostic.Journal
import TemplateTree.Fault

/-!
# Notes

What a reading says on its way: diagnostics, and log entries about tags that
leave no node. `NoteM` is a computation that notes things down and then gives
a value or stops with a fault; what it noted before the fault is kept. Notes
are only ever added, so no computation depends on those made before it.
-/

namespace TemplateTree

/-- A tag that leaves no node, by its keyword and where that stands. -/
inductive LogEntry
  /-- The keyword is known but has no node of its own. -/
  | skipped (keyword : String) (line column : Int)
  | ignored (keyword : String) (line column : Int)
  deriving DecidableEq, Repr

def LogEntry.message : LogEntry → String
  | .skipped keyword line column => s!"Skipping unmodeled `{keyword}` directive at {line}:{column}"
  | .ignored keyword line column => s!"Ignoring unknown directive `{keyword}` at {line}:{column}"

inductive Note
  | report (diagnostic : Diagnostic)
  | log (entry : LogEntry)
  deriving DecidableEq, Repr

def Note.diagnostic? : Note → Option Diagnostic
  | .report d => some d
  | .log _ => none

def Note.entry? : Note → Option LogEntry
  | .report _ => none
  | .log entry => some entry

structure NoteM (α : Type) where
  notes : List Note
  outcome : Except Fault α

namespace NoteM

variable {α β : Type}

def pure (a : α) : NoteM α := ⟨[], .ok a⟩

def bind (x : NoteM α) (f : α → NoteM β) : NoteM β :=
  match x.outcome with
  | .ok a =>
    let y := f a
    ⟨x.notes ++ y.notes, y.outcome⟩
  | .error fault => ⟨x.notes, .error fault⟩

instance : Monad NoteM where
  pure := pure
  bind := bind

instance : LawfulMonad NoteM := LawfulMonad.mk' NoteM
  (by
    intro α x
    obtain ⟨notes, outcome⟩ := x
    cases outcome <;> simp [Functor.map, bind, pure])
  (by intro α β a f; simp [Bind.bind, Pure.pure, pure, bind])
  (by
    intro α β γ x f g
    obtain ⟨notes, outcome⟩ := x
    cases outcome with
    | error => rfl
    | ok a => simp only [Bind.bind, bind]; split <;> simp)

theorem bind_of_ok {x : NoteM α} {f : α → NoteM β} {a : α} (h : x.outcome = .ok a) :
    x >>= f = ⟨x.notes ++ (f a).notes, (f a).outcome⟩ := by
  simp only [Bind.bind, bind, h]

theorem bind_of_error {x : NoteM α} {f : α → NoteM β} {fault : Fault}
    (h : x.outcome = .error fault) : x >>= f = ⟨x.notes, .error fault⟩ := by
  simp only [Bind.bind, bind, h]

theorem map_eq (f : α → β) (x : NoteM α) : f <$> x = ⟨x.notes, x.outcome.map f⟩ := by
  obtain ⟨notes, outcome⟩ := x
  cases outcome with
  | ok a => exact (bind_of_ok rfl).trans (congrArg (NoteM.mk · _) (List.append_nil notes))
  | error fault => exact bind_of_error rfl

def fail (fault : Fault) : NoteM α := ⟨[], .error fault⟩

def note (n : Note) : NoteM Unit := ⟨[n], .ok ()⟩

def report (d : Diagnostic) : NoteM Unit := note (.report d)

def log (entry : LogEntry) : NoteM Unit := note (.log entry)

/-- A place that is needed for what follows. -/
def ofPlace : Except PlaceError α → NoteM α
  | .ok a => ⟨[], .ok a⟩
  | .error e => ⟨[], .error (.place e)⟩

end NoteM

end TemplateTree
