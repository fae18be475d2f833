import TemplateTree.Note

/-!
# What a reading gives

A condition on all that a computation notes down and one on its result, if it
has one (`NoteM.Gives`), or a result for certain, with a condition on it (`NoteM.Succeeds`).
The rules follow the ways in which computations are put together.
-/

namespace TemplateTree.NoteM

variable {α β : Type}

structure Gives (N : Note → Prop) (Q : α → Prop) (x : NoteM α) : Prop where
  notes : ∀ n ∈ x.notes, N n
  result : ∀ a, x.outcome = .ok a → Q a

variable {N : Note → Prop} {Q : α → Prop} {x : NoteM α}

/-- Of a computation of which nothing is known. -/
theorem Gives.any (x : NoteM α) : x.Gives (fun _ => True) fun _ => True :=
  ⟨fun _ _ => trivial, fun _ _ => trivial⟩

theorem Gives.pure {a : α} (h : Q a) : (Pure.pure a : NoteM α).Gives N Q where
  notes := by simp [Pure.pure, NoteM.pure]
  result := by rintro b ⟨⟩; exact h

theorem Gives.fail (fault : Fault) : (NoteM.fail fault : NoteM α).Gives N Q where
  notes := by simp [NoteM.fail]
  result := by rintro b ⟨⟩

theorem Gives.note {n : Note} (h : N n) : (NoteM.note n).Gives N fun _ => True where
  notes := by simpa [NoteM.note] using h
  result := fun _ _ => trivial

theorem Gives.ofPlace (x : Except PlaceError α) : (NoteM.ofPlace x).Gives N fun a => x = .ok a := by
  cases x with
  | ok a => exact ⟨by simp [NoteM.ofPlace], by rintro b ⟨⟩; rfl⟩
  | error e => exact ⟨by simp [NoteM.ofPlace], by rintro b ⟨⟩⟩

theorem Gives.bind {S : β → Prop} {f : α → NoteM β} (h : x.Gives N Q)
    (hf : ∀ a, Q a → (f a).Gives N S) : (x >>= f).Gives N S := by
  cases ho : x.outcome with
  | ok a =>
    have ha := hf a (h.result a ho)
    rw [bind_of_ok ho]
    exact ⟨fun n hn => (List.mem_append.mp hn).elim (h.notes n) (ha.notes n), ha.result⟩
  | error fault =>
    rw [bind_of_error ho]
    exact ⟨h.notes, by rintro b ⟨⟩⟩

theorem Gives.mono {N' : Note → Prop} {Q' : α → Prop} (h : x.Gives N Q) (hn : ∀ n, N n → N' n)
    (hq : ∀ a, Q a → Q' a) : x.Gives N' Q' :=
  ⟨fun n hm => hn n (h.notes n hm), fun a ha => hq a (h.result a ha)⟩

-- ---------------------------------------------------------------------------
-- Results for certain
-- ---------------------------------------------------------------------------

/-- There is a result, and it satisfies the condition. -/
def Succeeds (Q : α → Prop) (x : NoteM α) : Prop := ∃ a, x.outcome = .ok a ∧ Q a

theorem Succeeds.pure {a : α} (h : Q a) : (Pure.pure a : NoteM α).Succeeds Q := ⟨a, rfl, h⟩

theorem Succeeds.note (n : Note) : (NoteM.note n).Succeeds fun _ => True := ⟨(), rfl, trivial⟩

theorem Succeeds.ofPlace {x : Except PlaceError α} {a : α} (h : x = .ok a) :
    (NoteM.ofPlace x).Succeeds (· = a) := by
  subst h
  exact ⟨a, rfl, rfl⟩

theorem Succeeds.bind {S : β → Prop} {f : α → NoteM β} (h : x.Succeeds Q)
    (hf : ∀ a, Q a → (f a).Succeeds S) : (x >>= f).Succeeds S := by
  obtain ⟨a, ho, hq⟩ := h
  obtain ⟨b, hb, hs⟩ := hf a hq
  exact ⟨b, by rw [bind_of_ok ho]; exact hb, hs⟩

end TemplateTree.NoteM
