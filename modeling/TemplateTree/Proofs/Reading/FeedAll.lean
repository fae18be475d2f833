import TemplateTree.Document.Reading
import TemplateTree.Proofs.Reading.Gives

/-!
# Reading as a fold

A reading fed with tokens one after the other, apart from what becomes of it
when they end. Running the machine is this fold and then the finish
(`run_eq`), so a run over two lists of tokens splits where the
first list ends.
-/

namespace TemplateTree

/-- The kinds of tokens that a reading looks at. -/
def TokenKind.counts (kind : TokenKind) : Bool :=
  kind ∈ [.comment, .blockStart, .blockEnd, .symbol, .string]

namespace Reading

/-- The reading after some tokens, with all that they made it note down. -/
def feedAll (options : Options) (r : Reading) (ts : List Token) : NoteM Reading :=
  ts.foldlM (feed options) r

variable {options : Options}

@[simp] theorem feedAll_nil (r : Reading) : r.feedAll options [] = pure r := rfl

theorem feedAll_cons (r : Reading) (t : Token) (ts : List Token) :
    r.feedAll options (t :: ts) = r.feed options t >>= fun r => r.feedAll options ts := rfl

theorem feedAll_append (r : Reading) (ts us : List Token) :
    r.feedAll options (ts ++ us) = r.feedAll options ts >>= fun r => r.feedAll options us :=
  List.foldlM_append

/-- What each token keeps of a reading and of the tokens read so far, all of them keep. -/
theorem gives_feedAll {N : List Token → Note → Prop} {I : Reading → List Token → Prop}
    (mono : ∀ n ts us, N ts n → N (ts ++ us) n)
    (step : ∀ r ts t, I r ts →
      (r.feed options t).Gives (N (ts ++ [t])) fun r' => I r' (ts ++ [t]))
    {r : Reading} (ts : List Token) (h : I r ts) (us : List Token) :
    (r.feedAll options us).Gives (N (ts ++ us)) fun r' => I r' (ts ++ us) := by
  induction us generalizing r ts with
  | nil => exact .pure (by rwa [List.append_nil])
  | cons t us ih =>
    have he : ts ++ t :: us = ts ++ [t] ++ us := by simp
    rw [he]
    refine .bind ((step r ts t h).mono (fun n hn => ?_) fun _ => id) fun r' hr => ih _ hr
    exact mono n _ us hn

/-- A token of another kind is passed over, wherever it stands. -/
theorem feed_of_not_counts {t : Token} (h : t.kind.counts = false) (r : Reading) :
    r.feed options t = pure r := by
  simp only [TokenKind.counts, List.mem_cons, List.not_mem_nil, or_false, decide_eq_false_iff_not,
    not_or] at h
  obtain ⟨hc, hs, he, hw, ht⟩ := h
  obtain ⟨items, open?⟩ := r
  cases open? with
  | none => simp only [feed, outside]
  | some o =>
    have hr : t.role = .passedOver := by
      simp [Token.role, TokenKind.isSignificant, he, hw, ht]
    simp only [feed, inside, Directive.feed, hr, pure_bind]

theorem feedAll_filter (r : Reading) (ts : List Token) :
    r.feedAll options (ts.filter fun t => t.kind.counts) = r.feedAll options ts := by
  induction ts generalizing r with
  | nil => rfl
  | cons t ts ih =>
    rw [feedAll_cons]
    cases h : t.kind.counts with
    | true =>
      simp only [List.filter_cons, h, ↓reduceIte, feedAll_cons]
      exact congrArg _ (funext ih)
    | false =>
      simp only [List.filter_cons, h, Bool.false_eq_true, ↓reduceIte, feed_of_not_counts h,
        pure_bind, ih]

/-- What becomes of a reading when the tokens end with `last?`. -/
def finish (options : Options) (r : Reading) (last? : Option Token) : Except Fault Document :=
  (machine options).finish r ⟨[], last?⟩

theorem finish_of_closed {r : Reading} (h : r.open? = none) (last? : Option Token) :
    r.finish options last? = .ok r.document := by
  simp only [finish, machine, h]

/-- At the end of the tokens a reading fails only with a directive still open. -/
theorem exists_of_finish_error {r : Reading} {last? : Option Token} {fault : Fault}
    (h : r.finish options last? = .error fault) :
    ∃ o, r.open? = some o ∧
      fault = TokenSource.endFault ⟨[], last?⟩ options.positionMode o.directive.construct := by
  cases hopen : r.open? with
  | none =>
    rw [finish_of_closed hopen] at h
    cases h
  | some o =>
    simp only [finish, machine, hopen] at h
    cases h
    exact ⟨o, rfl, rfl⟩

theorem machine_feed (r : Reading) (t : Token) :
    (machine options).feed r t =
      ⟨(r.feed options t).notes, (r.feed options t).outcome.map .reading⟩ :=
  NoteM.map_eq Progress.reading (r.feed options t)

theorem run_cons_of_ok {r r' : Reading} {l : Lexeme}
    (h : (r.feed options l.toToken).outcome = .ok r') (last? : Option Token) (ls : List Lexeme) :
    let rest := (machine options).run r' ⟨ls, some l.toToken⟩
    (machine options).run r ⟨l :: ls, last?⟩ =
      { rest with notes := (r.feed options l.toToken).notes ++ rest.notes } := by
  simp only [Machine.run_cons, machine_feed, h, Except.map]

theorem run_cons_of_error {r : Reading} {l : Lexeme} {fault : Fault}
    (h : (r.feed options l.toToken).outcome = .error fault) (last? : Option Token)
    (ls : List Lexeme) :
    (machine options).run r ⟨l :: ls, last?⟩ =
      ⟨.error fault, (r.feed options l.toToken).notes, ⟨ls, some l.toToken⟩⟩ := by
  simp only [Machine.run_cons, machine_feed, h, Except.map]

theorem run_eq (r : Reading) (source : TokenSource) :
    let fed := r.feedAll options source.drain.1
    ((machine options).run r source).notes = fed.notes ∧
      ((machine options).run r source).outcome =
        fed.outcome.bind fun r' => r'.finish options source.drain.2.last? := by
  obtain ⟨lexemes, last?⟩ := source
  induction lexemes generalizing r last? with
  | nil => exact ⟨rfl, rfl⟩
  | cons lexeme rest ih =>
    have hd : (TokenSource.drain ⟨lexeme :: rest, last?⟩).2 =
        (TokenSource.drain ⟨rest, some lexeme.toToken⟩).2 := by
      simp [TokenSource.drain, List.getLast?_cons]
    have hc : r.feedAll options (TokenSource.drain ⟨lexeme :: rest, last?⟩).1 =
        r.feed options lexeme.toToken >>= fun r' =>
          r'.feedAll options (TokenSource.drain ⟨rest, some lexeme.toToken⟩).1 := rfl
    simp only [hd, hc]
    cases ho : (r.feed options lexeme.toToken).outcome with
    | ok r' =>
      obtain ⟨hn, ho'⟩ := ih r' (some lexeme.toToken)
      rw [run_cons_of_ok ho, NoteM.bind_of_ok ho]
      exact ⟨congrArg ((r.feed options lexeme.toToken).notes ++ ·) hn, ho'⟩
    | error fault =>
      rw [run_cons_of_error ho, NoteM.bind_of_error ho]
      exact ⟨rfl, rfl⟩

theorem exists_of_read {source : TokenSource} {d : Document}
    (h : (Document.read options source).outcome = .ok d) :
    ∃ r, (({} : Reading).feedAll options source.drain.1).outcome = .ok r ∧ r.open? = none ∧
      d = r.document := by
  rw [Document.read, (run_eq {} source).2] at h
  cases hr : (({} : Reading).feedAll options source.drain.1).outcome with
  | error fault => rw [hr] at h; cases h
  | ok r =>
    rw [hr] at h
    simp only [Except.bind, finish, machine] at h
    split at h
    · cases h
      exact ⟨r, rfl, ‹_›, rfl⟩
    · cases h

/-- A directive that is open after a token is opened by it or was open before. -/
theorem opening_feed (r : Reading) (t : Token) :
    (r.feed options t).Gives (fun _ => True) fun r' =>
      ∀ o' ∈ r'.open?, o'.opening = t ∨ ∃ o ∈ r.open?, o'.opening = o.opening := by
  have hsame : ∀ o' ∈ r.open?, o'.opening = t ∨ ∃ o ∈ r.open?, o'.opening = o.opening :=
    fun o' ho => .inr ⟨o', ho, rfl⟩
  unfold feed
  split
  · unfold outside
    split
    · exact .bind (.ofPlace _) fun c _ => .pure hsame
    · exact .pure (by rintro o' ⟨⟩; exact .inl rfl)
    · exact .pure hsame
  · rename_i o ho
    refine .bind (.any _) fun x _ => ?_
    cases x with
    | reading d => exact .pure (by rintro o' ⟨⟩; exact .inr ⟨o, ho, rfl⟩)
    | done item? => exact .pure (by rintro o' ⟨⟩)

end Reading

namespace Document

variable (options : Options) (ls : List Lexeme)

theorem notes_read :
    (read options { rest := ls }).notes =
      (({} : Reading).feedAll options (ls.map Lexeme.toToken)).notes :=
  (Reading.run_eq {} { rest := ls }).1

theorem outcome_read :
    (read options { rest := ls }).outcome =
      (({} : Reading).feedAll options (ls.map Lexeme.toToken)).outcome.bind fun r =>
        r.finish options (ls.map Lexeme.toToken).getLast? := by
  have h := (@Reading.run_eq options {} { rest := ls }).2
  rwa [TokenSource.drain, Option.or_none] at h

end Document

end TemplateTree
