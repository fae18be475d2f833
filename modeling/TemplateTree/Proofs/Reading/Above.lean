import TemplateTree.Proofs.Reading.FeedAll

/-!
# Readings that go on

A reading goes on over a second list of tokens from where the first one left it
(`run_append_of_ok`), unless a token of the first list stops it, with the second
list still to be read (`run_append_of_error`). The items read before are never
looked at again (`run_above`), so a reading with no directive open goes on as one
that starts.
-/

namespace TemplateTree.Reading

variable {options : Options}

-- ---------------------------------------------------------------------------
-- Older items
-- ---------------------------------------------------------------------------

/-- The reading with older items in front of its own. -/
def above (older : List Item) (r : Reading) : Reading :=
  { r with newestFirst := r.newestFirst ++ older }

theorem feed_above (options : Options) (older : List Item) (r : Reading) (t : Token) :
    (r.above older).feed options t = above older <$> r.feed options t := by
  obtain ⟨items, open?⟩ := r
  cases open? with
  | none =>
    simp only [above, feed, outside]
    split
    · simp only [map_bind, map_pure]
      rfl
    · rfl
    · rfl
  | some o =>
    simp only [above, feed, inside, map_bind]
    congr 1
    funext x
    cases x with
    | reading d => rfl
    | done item? => cases item? <;> rfl

theorem finish_above (older : List Item) (r : Reading) (last? : Option Token) :
    (r.above older).finish options last? =
      (r.finish options last?).map fun d => { d with items := older.reverse ++ d.items } := by
  obtain ⟨items, open?⟩ := r
  cases open? with
  | none => simp only [finish, machine, above, document, List.reverse_append]; rfl
  | some o => rfl

-- ---------------------------------------------------------------------------
-- Runs
-- ---------------------------------------------------------------------------

/-- Tokens that are all read leave the run to those behind them. -/
theorem run_append_of_ok {r r' : Reading} {as : List Lexeme}
    (h : (r.feedAll options (as.map Lexeme.toToken)).outcome = .ok r') (last? : Option Token)
    (bs : List Lexeme) :
    let rest := (machine options).run r' ⟨bs, (as.map Lexeme.toToken).getLast?.or last?⟩
    (machine options).run r ⟨as ++ bs, last?⟩ =
      { rest with
        notes := (r.feedAll options (as.map Lexeme.toToken)).notes ++ rest.notes } := by
  induction as generalizing r last? with
  | nil => cases h; rfl
  | cons a as ih =>
    rw [List.map_cons, feedAll_cons] at h
    rw [List.map_cons, feedAll_cons, List.getLast?_cons, List.cons_append]
    cases ho : (r.feed options a.toToken).outcome with
    | error fault => rw [NoteM.bind_of_error ho] at h; cases h
    | ok r₁ =>
      have hlast : (as.map Lexeme.toToken).getLast?.or (some a.toToken) =
          some ((as.map Lexeme.toToken).getLast?.getD a.toToken) := by
        cases (as.map Lexeme.toToken).getLast? <;> rfl
      rw [NoteM.bind_of_ok ho] at h ⊢
      simp only [run_cons_of_ok ho, ih h (some a.toToken), hlast, Option.some_or,
        List.append_assoc]

/-- A token that stops the run leaves those behind it to be read. -/
theorem run_append_of_error {r : Reading} {fault : Fault} {as : List Lexeme}
    (h : (r.feedAll options (as.map Lexeme.toToken)).outcome = .error fault)
    (last? : Option Token) :
    ∃ rest last?', ∀ bs, (machine options).run r ⟨as ++ bs, last?⟩ =
      ⟨.error fault, (r.feedAll options (as.map Lexeme.toToken)).notes, ⟨rest ++ bs, last?'⟩⟩ := by
  induction as generalizing r last? with
  | nil => cases h
  | cons a as ih =>
    rw [List.map_cons, feedAll_cons] at h ⊢
    cases ho : (r.feed options a.toToken).outcome with
    | error fault' =>
      rw [NoteM.bind_of_error ho] at h ⊢
      cases h
      exact ⟨as, some a.toToken, fun bs => run_cons_of_error ho last? (as ++ bs)⟩
    | ok r₁ =>
      rw [NoteM.bind_of_ok ho] at h ⊢
      obtain ⟨rest, last?', hr⟩ := ih h (some a.toToken)
      refine ⟨rest, last?', fun bs => ?_⟩
      rw [List.cons_append, run_cons_of_ok ho, hr bs]

/-- What is read does not depend on the items read before, but for the items
themselves, nor on the last token before, unless a directive is open. -/
theorem run_above (options : Options) (older : List Item) {r : Reading}
    {last? last?' : Option Token} (hl : r.open?.isSome → last? = last?') (bs : List Lexeme) :
    let more := (machine options).run (r.above older) ⟨bs, last?⟩
    let run := (machine options).run r ⟨bs, last?'⟩
    more.notes = run.notes ∧
      more.outcome = run.outcome.map (fun d => { d with items := older.reverse ++ d.items }) ∧
      ∀ fault, run.outcome = .error fault → more.source = run.source := by
  induction bs generalizing r last? last?' with
  | nil =>
    cases ho : r.open? with
    | none =>
      have hr (last? : Option Token) : r.finish options last? = .ok r.document :=
        finish_of_closed ho last?
      refine ⟨rfl, ?_, fun fault hf => ?_⟩
      · exact (finish_above older r last?).trans (by rw [hr, ← hr last?']; rfl)
      · cases (hr last?').symm.trans hf
    | some o =>
      obtain rfl := hl (by rw [ho]; rfl)
      exact ⟨rfl, finish_above older r last?, fun _ _ => rfl⟩
  | cons b bs ih =>
    have hf := feed_above options older r b.toToken
    rw [NoteM.map_eq] at hf
    cases ho : (r.feed options b.toToken).outcome with
    | error fault =>
      have ho' : ((r.above older).feed options b.toToken).outcome = .error fault := by
        rw [hf, ho]
        rfl
      intro more run
      rw [show more = _ from run_cons_of_error ho' last? bs,
        show run = _ from run_cons_of_error ho last?' bs, hf]
      exact ⟨rfl, rfl, fun _ _ => rfl⟩
    | ok r₁ =>
      have ho' : ((r.above older).feed options b.toToken).outcome = .ok (r₁.above older) := by
        rw [hf, ho]
        rfl
      obtain ⟨hn, hout, hs⟩ := ih (r := r₁) fun _ => rfl
      intro more run
      rw [show more = _ from run_cons_of_ok ho' last? bs,
        show run = _ from run_cons_of_ok ho last?' bs, hf]
      exact ⟨congrArg ((r.feed options b.toToken).notes ++ ·) hn, hout, hs⟩

end TemplateTree.Reading
