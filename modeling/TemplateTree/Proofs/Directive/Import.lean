import TemplateTree.Proofs.Reading.Words

/-!
# Imports from their keyword on

After its keyword an import passes over its tokens up to the first string, which is its
path. Then only words matter, up to the closing delimiter (`Directive.read_import`).
-/

namespace TemplateTree.Directive

variable {options : Options} {d d' : Directive} {opening : Token}

/-- Reading goes on with the directive that a token makes of another one without a note. -/
theorem read_cons {l : Lexeme} (h : d.feed options opening l.toToken = pure (.reading d'))
    (last? : Option Token) (ls : List Lexeme) :
    d.read options opening ⟨l :: ls, last?⟩ = d'.read options opening ⟨ls, some l.toToken⟩ := by
  rw [read_cons_of_ok (congrArg NoteM.outcome h), h]
  rfl

/-- An import once its path is read. -/
def ofPath : ImportForm → Leaf → Directive
  | .names, template => .importNames template {}
  | .target, template => .importTarget template {}

theorem takesWords_ofPath (form : ImportForm) (template : Leaf) :
    (ofPath form template).takesWords := by
  cases form <;> rfl

theorem feed_path {path : Lexeme} {s : Span} (hp : path.kind = .string)
    (hs : path.toToken.span options.positionMode = .ok s) (form : ImportForm) :
    (importPath form).feed options opening path.toToken =
      pure (.reading (ofPath form ⟨path.value, some s⟩)) := by
  have hk : path.toToken.kind = .string := hp
  have hr : path.toToken.role = .word := Token.role_eq_word (by rw [hk]; rfl)
  simp only [feed, hr, word, hk, hs, ↓reduceIte]
  cases form <;> rfl

theorem feed_of_no_path {l : Lexeme} (hstring : l.kind ≠ .string) (hend : l.kind ≠ .blockEnd)
    (form : ImportForm) :
    (importPath form).feed options opening l.toToken = pure (.reading (importPath form)) := by
  unfold feed
  cases hr : l.toToken.role with
  | closing => exact absurd (Token.role_eq_closing.mp hr) hend
  | word => exact if_neg hstring
  | passedOver => rfl

/-- An import takes the first string for its path. -/
theorem read_path {before : List Lexeme} {path : Lexeme} {s : Span}
    (hb : ∀ l ∈ before, l.kind ≠ .string ∧ l.kind ≠ .blockEnd) (hp : path.kind = .string)
    (hs : path.toToken.span options.positionMode = .ok s) (form : ImportForm)
    (last? : Option Token) (rest : List Lexeme) :
    (importPath form).read options opening ⟨before ++ path :: rest, last?⟩ =
      (ofPath form ⟨path.value, some s⟩).read options opening ⟨rest, some path.toToken⟩ := by
  induction before generalizing last? with
  | nil => exact read_cons (feed_path hp hs form) last? rest
  | cons l before ih =>
    obtain ⟨⟨hstring, hend⟩, hb⟩ := List.forall_mem_cons.mp hb
    exact (read_cons (feed_of_no_path hstring hend form) last? _).trans (ih hb _)

/-- Reading an import is reading the words between its path and its closing delimiter and
then closing it, with no token taken beyond. -/
theorem read_import {before between : List Lexeme} {path closing : Lexeme} {s : Span}
    (hbefore : ∀ l ∈ before, l.kind ≠ .string ∧ l.kind ≠ .blockEnd) (hpath : path.kind = .string)
    (hs : path.toToken.span options.positionMode = .ok s)
    (hbetween : ∀ l ∈ between, l.kind ≠ .blockEnd) (hclosing : closing.kind = .blockEnd)
    (form : ImportForm) (opening : Token) (last? : Option Token) (after : List Lexeme) :
    let run := (importPath form).read options opening
      ⟨before ++ path :: between ++ closing :: after, last?⟩
    let fed := (wordsOf between).foldlM (take options) (ofPath form ⟨path.value, some s⟩) >>=
      fun d => d.close options.positionMode opening closing.toToken
    run.notes = fed.notes ∧ run.outcome = fed.outcome ∧
      ∀ item?, run.outcome = .ok item? → run.source = ⟨after, some closing.toToken⟩ := by
  have hwords : ∀ l ∈ between, l.toToken.role ≠ .closing :=
    fun l hl => mt Token.role_eq_closing.mp (hbetween l hl)
  rw [List.append_assoc, List.cons_append, read_path hbefore hpath hs]
  exact read_cut hwords (Token.role_eq_closing.mpr hclosing) (takesWords_ofPath form _) opening _
    after

end TemplateTree.Directive
