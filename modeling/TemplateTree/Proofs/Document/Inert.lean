import TemplateTree.Proofs.Reading.FeedAll
import TemplateTree.Proofs.Token.Order

/-!
# Tokens that leave no trace

A reading looks at comments, at the delimiters of blocks, and at words and strings.
Tokens of any other kind may be left out wherever they stand: the same is read and
the same is noted down. Only the place where the input ends is that of the last
token, whatever its kind.
-/

namespace TemplateTree

/-- Inside a directive, the end of tokens with valid starts is the end of input. -/
theorem Reading.finish_of_open (options : Options) {r : Reading} {o : OpenDirective}
    (h : r.open? = some o) {ts : List Token} (hts : ∀ t ∈ ts, ∃ p, t.start = .ok p)
    (hne : ts ≠ []) :
    ∃ s, r.finish options ts.getLast? =
      .error (.parse (.unexpectedEnd o.directive.construct s)) := by
  obtain ⟨p, hp⟩ := hts _ (List.getLast_mem hne)
  rw [List.getLast?_eq_some_getLast hne]
  simp only [finish, machine, h, TokenSource.endFault_eq hp]
  exact ⟨_, rfl⟩

theorem Lexeme.map_filter_counts (ls : List Lexeme) :
    (ls.filter (·.kind.counts)).map toToken = (ls.map toToken).filter (·.kind.counts) := by
  rw [List.filter_map]
  rfl

/-- Leaving out all tokens that do not count changes nothing but the place of the
end of input, where the tokens end inside a directive. -/
theorem read_filter_counts (options : Options) {ls : List Lexeme}
    (h : ∀ l ∈ ls, 0 ≤ l.line ∧ 0 ≤ l.column) :
    let whole := Document.read options { rest := ls }
    let bare := Document.read options { rest := ls.filter (·.kind.counts) }
    bare.diagnostics = whole.diagnostics ∧ bare.log = whole.log ∧
      (bare.outcome = whole.outcome ∨
        ∃ construct s s', bare.outcome = .error (.parse (.unexpectedEnd construct s)) ∧
          whole.outcome = .error (.parse (.unexpectedEnd construct s'))) := by
  intro whole bare
  have hts : ∀ t ∈ ls.map Lexeme.toToken, ∃ p, t.start = .ok p := by
    simpa only [List.forall_mem_map, Lexeme.start_toToken_isOk] using h
  have hnotes : bare.notes = whole.notes := by
    rw [Document.notes_read, Document.notes_read, Lexeme.map_filter_counts, Reading.feedAll_filter]
  refine ⟨by rw [Run.diagnostics, Run.reported, hnotes]; rfl, by rw [Run.log, hnotes]; rfl, ?_⟩
  rw [Document.outcome_read, Document.outcome_read, Lexeme.map_filter_counts,
    Reading.feedAll_filter]
  generalize ls.map Lexeme.toToken = ts at *
  cases hr : (({} : Reading).feedAll options ts).outcome with
  | error fault => exact .inl rfl
  | ok r =>
    cases hopen : r.open? with
    | none => exact .inl (by simp only [Except.bind, Reading.finish_of_closed hopen])
    | some o =>
      -- a directive is open, so the token that opened it is there in either case
      have hne : ts.filter (·.kind.counts) ≠ [] := by
        intro hnil
        rw [← Reading.feedAll_filter, hnil] at hr
        cases hr
        cases hopen
      obtain ⟨s, hs⟩ := Reading.finish_of_open options hopen
        (fun t ht => hts t (List.mem_filter.mp ht).1) hne
      obtain ⟨s', hs'⟩ := Reading.finish_of_open options hopen hts
        (fun hnil => hne (by rw [hnil]; rfl))
      exact .inr ⟨_, s, s', hs, hs'⟩

theorem read_filter_counts_open_tag :
    let ls : List Lexeme := [⟨.blockStart, "\x7b%", 0, 0⟩, ⟨.whitespace, "  ", 0, 2⟩]
    let whole := Document.read {} { rest := ls }
    let bare := Document.read {} { rest := ls.filter (·.kind.counts) }
    (∀ l ∈ ls, 0 ≤ l.line ∧ 0 ≤ l.column) ∧ bare.diagnostics = whole.diagnostics ∧
      ∃ construct s s', bare.outcome = .error (.parse (.unexpectedEnd construct s)) ∧
        whole.outcome = .error (.parse (.unexpectedEnd construct s')) := by
  intro ls whole bare
  have h : ∀ l ∈ ls, 0 ≤ l.line ∧ 0 ≤ l.column := by decide
  obtain ⟨hd, -, ho⟩ := read_filter_counts {} h
  exact ⟨h, hd, ho.resolve_left (by rintro ⟨⟩)⟩

end TemplateTree
