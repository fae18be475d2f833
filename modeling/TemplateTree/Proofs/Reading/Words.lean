import TemplateTree.Directive.Basic
import TemplateTree.Proofs.Reading.Gives
import TemplateTree.Proofs.Token.Order
import TemplateTree.Token.Scan

/-!
# The words of a directive

Tokens up to a closing delimiter are the words of a directive, with others in between
that do not matter. A scan gives out these words and has the delimiter in the end
(`Scan.exists_of_drain`). Once a directive needs nothing but words, reading it is reading
these and then closing it with the delimiter (`Directive.read_cut`), which is what a
scan of its tokens serves for (`Directive.read_of_drain`).
-/

namespace TemplateTree

/-- The words among some tokens. -/
def wordsOf (ls : List Lexeme) : List Token :=
  (ls.map Lexeme.toToken).filter fun t => t.role = .word

theorem wordsOf_cons_of_word {l : Lexeme} (h : l.toToken.role = .word) (ls : List Lexeme) :
    wordsOf (l :: ls) = l.toToken :: wordsOf ls := by
  simp [wordsOf, h]

theorem wordsOf_cons_of_passedOver {l : Lexeme} (h : l.toToken.role = .passedOver)
    (ls : List Lexeme) : wordsOf (l :: ls) = wordsOf ls := by
  simp [wordsOf, h]

theorem exists_of_mem_wordsOf {t : Token} {ls : List Lexeme} (h : t ∈ wordsOf ls) :
    ∃ l ∈ ls, l.toToken = t :=
  List.mem_map.mp (List.mem_filter.mp h).1

theorem role_of_mem_wordsOf {t : Token} {ls : List Lexeme} (h : t ∈ wordsOf ls) :
    t.role = .word := by
  simpa using (List.mem_filter.mp h).2

theorem mem_wordsOf {l : Lexeme} {ls : List Lexeme} (hl : l ∈ ls) (hk : l.kind.isSignificant) :
    l.toToken ∈ wordsOf ls :=
  List.mem_filter.mpr ⟨List.mem_map_of_mem hl, by simpa using Token.role_eq_word hk⟩

theorem exists_span_of_mem_wordsOf {ls ms : List Lexeme} (h : Lexeme.InOrder ls) (hm : ms ⊆ ls)
    (mode : PositionMode) : ∀ t ∈ wordsOf ms, ∃ s, t.span mode = .ok s := by
  intro t ht
  obtain ⟨l, hl, rfl⟩ := exists_of_mem_wordsOf ht
  exact h.exists_span (hm hl) mode

-- ---------------------------------------------------------------------------
-- Scans
-- ---------------------------------------------------------------------------

namespace Scan

variable {construct : String} {mode : PositionMode} {last? : Option Token} {s' : Scan}
  {lexemes : List Lexeme} {read words : List Token}

theorem next.go_source (s : Scan) (source : TokenSource) (last? : Option Token)
    (lexemes : List Lexeme) :
    next.go { s with source } last? lexemes = next.go s last? lexemes := by
  induction lexemes generalizing last? with
  | nil => rfl
  | cons lexeme rest ih => simp only [next.go, ih]

/-- What the next token makes of a scan that has not reached its closing delimiter. -/
theorem next_cons (lexeme : Lexeme) (rest : List Lexeme) :
    next ⟨construct, mode, ⟨lexeme :: rest, last?⟩, none⟩ =
      let source : TokenSource := ⟨rest, some lexeme.toToken⟩
      match lexeme.toToken.role with
      | .closing => (.ok none, ⟨construct, mode, source, some lexeme.toToken⟩)
      | .word => (.ok (some lexeme.toToken), ⟨construct, mode, source, none⟩)
      | .passedOver => next ⟨construct, mode, source, none⟩ := by
  cases hr : lexeme.toToken.role with
  | closing | word => simp only [next, next.go, hr]
  | passedOver =>
    simp only [next, next.go, hr]
    exact next.go_source ⟨construct, mode, ⟨rest, some lexeme.toToken⟩, none⟩ _ _ rest

theorem drain.go_eq (read : List Token) (s : Scan) :
    drain.go read s =
      match s.next with
      | (.ok (some token), s') => drain.go (token :: read) s'
      | (.ok none, s') => (.ok read.reverse, s')
      | (.error fault, s') => (.error fault, s') := by
  rw [drain.go]
  split <;> rename_i h <;> rw [h]

theorem exists_of_drain_go
    (h : drain.go read ⟨construct, mode, ⟨lexemes, last?⟩, none⟩ = (.ok words, s')) :
    ∃ before closing after, lexemes = before ++ closing :: after ∧
      (∀ l ∈ before, l.toToken.role ≠ .closing) ∧ closing.toToken.role = .closing ∧
      words = read.reverse ++ wordsOf before ∧
      s' = ⟨construct, mode, ⟨after, some closing.toToken⟩, some closing.toToken⟩ := by
  induction lexemes generalizing read last? with
  | nil =>
    rw [drain.go_eq] at h
    cases h
  | cons lexeme rest ih =>
    rw [drain.go_eq, next_cons] at h
    cases hr : lexeme.toToken.role with
    | closing =>
      rw [hr] at h
      cases h
      exact ⟨[], lexeme, rest, rfl, by simp, hr, by simp [wordsOf], rfl⟩
    | word =>
      rw [hr] at h
      obtain ⟨before, closing, after, rfl, hb, hc, rfl, rfl⟩ := ih h
      refine ⟨lexeme :: before, closing, after, rfl, ?_, hc, ?_, rfl⟩
      · exact List.forall_mem_cons.mpr ⟨by rw [hr]; nofun, hb⟩
      · rw [wordsOf_cons_of_word hr, List.reverse_cons, List.append_assoc]
        rfl
    | passedOver =>
      rw [hr] at h
      simp only [← drain.go_eq] at h
      obtain ⟨before, closing, after, rfl, hb, hc, rfl, rfl⟩ := ih h
      refine ⟨lexeme :: before, closing, after, rfl, ?_, hc, ?_, rfl⟩
      · exact List.forall_mem_cons.mpr ⟨by rw [hr]; nofun, hb⟩
      · rw [wordsOf_cons_of_passedOver hr]

/-- A scan that is drained stops at the first closing delimiter, which it keeps, and has
given out the words before it. -/
theorem exists_of_drain {s : Scan} (hs : s.closing? = none) (h : s.drain = (.ok words, s')) :
    ∃ before closing after, s.source.rest = before ++ closing :: after ∧
      (∀ l ∈ before, l.toToken.role ≠ .closing) ∧ closing.toToken.role = .closing ∧
      words = wordsOf before ∧ s'.closing = .ok closing.toToken ∧
      s'.source = ⟨after, some closing.toToken⟩ := by
  obtain ⟨construct, mode, source, closing?⟩ := s
  obtain rfl : closing? = none := hs
  obtain ⟨before, closing, after, hrest, hb, hc, rfl, rfl⟩ := exists_of_drain_go h
  exact ⟨before, closing, after, hrest, hb, hc, rfl, rfl, rfl⟩

/-- A scan that has no more words has its closing delimiter. -/
theorem exists_closing_of_drain {s : Scan} (h : s.drain = (.ok words, s')) :
    ∃ closing, s'.closing = .ok closing := by
  cases hs : s.closing? with
  | none =>
    obtain ⟨-, closing, -, -, -, -, -, hc, -⟩ := exists_of_drain hs h
    exact ⟨closing.toToken, hc⟩
  | some closing =>
    rw [drain, drain.go_eq] at h
    simp only [next, hs] at h
    cases h
    exact ⟨closing, by simp only [Scan.closing, hs]⟩

end Scan

-- ---------------------------------------------------------------------------
-- Directives
-- ---------------------------------------------------------------------------

namespace Directive

/-- Only words are still to come: the keyword was read, and so was the path of an import. -/
def takesWords : Directive → Bool
  | .keyword | .importPath _ => false
  | .importNames .. | .importTarget .. | .including _ => true

variable {options : Options} {d : Directive}

/-- What a word makes of a directive that takes words. -/
def take (options : Options) (d : Directive) (t : Token) : NoteM Directive :=
  let mode := options.positionMode
  match d with
  | .importNames template part => do return .importNames template (← part.feed mode t)
  | .importTarget template part => do return .importTarget template (← part.feed mode t)
  | .including part => return .including (part.feed t)
  | d => return d

theorem word_of_takesWords (h : d.takesWords) (t : Token) :
    d.word options t = Progress.reading <$> d.take options t := by
  cases d with
  | keyword | importPath => cases h
  | importNames | importTarget => simp only [word, take, map_eq_pure_bind, bind_assoc, pure_bind]
  | including => rfl

theorem takesWords_take (h : d.takesWords) (t : Token) :
    (d.take options t).Gives (fun _ => True) fun d' => d'.takesWords := by
  cases d with
  | keyword | importPath => cases h
  | importNames | importTarget => exact .bind (.any _) fun _ _ => .pure rfl
  | including => exact .pure rfl

/-- Words are taken, and the directive closed, as the part says that the directive is of. -/
theorem foldlM_close {σ α : Type} {part : σ → Directive} {feed : σ → Token → NoteM σ}
    {close : σ → NoteM α} {item? : α → Option Item} {opening closing : Token}
    (hfeed : ∀ x t, (part x).take options t = part <$> feed x t)
    (hclose : ∀ x, (part x).close options.positionMode opening closing = item? <$> close x)
    (ts : List Token) (x : σ) :
    (ts.foldlM (take options) (part x) >>= fun d =>
        d.close options.positionMode opening closing) =
      item? <$> (ts.foldlM feed x >>= close) := by
  induction ts generalizing x with
  | nil => simp only [List.foldlM_nil, pure_bind, hclose]
  | cons t ts ih =>
    simp only [List.foldlM_cons, hfeed, map_eq_pure_bind, bind_assoc, pure_bind] at ih ⊢
    simp only [ih]

theorem read_cons_of_ok {d' : Directive} {opening : Token} {l : Lexeme}
    (h : (d.feed options opening l.toToken).outcome = .ok (.reading d')) (last? : Option Token)
    (ls : List Lexeme) :
    let run := d'.read options opening ⟨ls, some l.toToken⟩
    d.read options opening ⟨l :: ls, last?⟩ =
      { run with notes := (d.feed options opening l.toToken).notes ++ run.notes } := by
  simp only [read, Machine.run_cons, machine, h]

/-- The closing delimiter ends the reading, and is the last token taken, whatever it makes
of the directive. -/
theorem read_closing {closing : Lexeme} (hc : closing.toToken.role = .closing) (d : Directive)
    (opening : Token) (last? : Option Token) (after : List Lexeme) :
    let closed := d.close options.positionMode opening closing.toToken
    d.read options opening ⟨closing :: after, last?⟩ =
      ⟨closed.outcome, closed.notes, ⟨after, some closing.toToken⟩⟩ := by
  intro closed
  have hf : d.feed options opening closing.toToken = Progress.done <$> closed := by
    simp only [feed, hc, map_eq_pure_bind, closed]
  simp only [read, Machine.run_cons, machine, hf, NoteM.map_eq]
  cases closed.outcome <;> rfl

/-- Reading a directive that takes words is reading the words before the closing delimiter
and then closing it, with no token taken beyond. -/
theorem read_cut {before : List Lexeme} {closing : Lexeme}
    (hb : ∀ l ∈ before, l.toToken.role ≠ .closing) (hc : closing.toToken.role = .closing)
    (h : d.takesWords) (opening : Token) (last? : Option Token) (after : List Lexeme) :
    let run := d.read options opening ⟨before ++ closing :: after, last?⟩
    let fed := (wordsOf before).foldlM (take options) d >>= fun d =>
      d.close options.positionMode opening closing.toToken
    run.notes = fed.notes ∧ run.outcome = fed.outcome ∧
      ∀ item?, run.outcome = .ok item? → run.source = ⟨after, some closing.toToken⟩ := by
  induction before generalizing d last? with
  | nil =>
    rw [List.nil_append, read_closing hc]
    exact ⟨rfl, rfl, fun _ _ => rfl⟩
  | cons l before ih =>
    obtain ⟨hl, hb⟩ := List.forall_mem_cons.mp hb
    cases hr : l.toToken.role with
    | closing => exact absurd hr hl
    | passedOver =>
      have hf : d.feed options opening l.toToken = pure (.reading d) := by simp only [feed, hr]
      rw [List.cons_append, read_cons_of_ok (congrArg NoteM.outcome hf), hf,
        wordsOf_cons_of_passedOver hr]
      exact ih hb h _
    | word =>
      have hf : d.feed options opening l.toToken =
          Progress.reading <$> d.take options l.toToken := by
        simp only [feed, hr, word_of_takesWords h]
      rw [wordsOf_cons_of_word hr, List.foldlM_cons, bind_assoc]
      cases ho : (d.take options l.toToken).outcome with
      | error fault =>
        simp only [read, List.cons_append, Machine.run_cons, machine, hf, NoteM.map_eq, ho]
        rw [NoteM.bind_of_error ho]
        exact ⟨rfl, rfl, by rintro item? ⟨⟩⟩
      | ok d' =>
        obtain ⟨hn, hout, hs⟩ := ih hb ((takesWords_take h _).result _ ho) (some l.toToken)
        have hfed : (d.feed options opening l.toToken).outcome = .ok (.reading d') := by
          rw [hf, NoteM.map_eq, ho]
          rfl
        rw [List.cons_append, read_cons_of_ok hfed, hf, NoteM.map_eq, NoteM.bind_of_ok ho]
        exact ⟨congrArg ((d.take options l.toToken).notes ++ ·) hn, hout, hs⟩

/-- A directive that takes words is read by a scan of its tokens. -/
theorem read_of_drain {s s' : Scan} {words : List Token} {closing : Token}
    (hs : s.closing? = none) (hw : s.drain = (.ok words, s')) (hc : s'.closing = .ok closing)
    (h : d.takesWords) (opening : Token) :
    let run := d.read options opening s.source
    let fed := words.foldlM (take options) d >>= fun d =>
      d.close options.positionMode opening closing
    run.notes = fed.notes ∧ run.outcome = fed.outcome ∧
      ∀ item?, run.outcome = .ok item? → run.source = s'.source := by
  obtain ⟨before, last, after, hrest, hb, hl, rfl, hlast, hsource⟩ := Scan.exists_of_drain hs hw
  obtain rfl := Except.ok.inj (hc.symm.trans hlast)
  obtain ⟨construct, mode, ⟨rest, last?⟩, closing?⟩ := s
  obtain rfl : rest = before ++ last :: after := hrest
  rw [hsource]
  exact read_cut hb hl h opening last? after

end Directive

end TemplateTree
