import TemplateTree.Proofs.Diagnostic.Kept
import TemplateTree.Proofs.Document.ReadText
import TemplateTree.Proofs.Reading.Drawn
import TemplateTree.Proofs.Reading.Moved
import TemplateTree.Proofs.Token.Append

/-!
# One template after another

A template that closes its last tag or comment is read to the end before the
text behind it is looked at, and the text behind it is read as a template of its
own, further down. So the two trees stand side by side, and so do the diagnostics.
-/

namespace TemplateTree

variable {options : Options}

-- ---------------------------------------------------------------------------
-- Reports on either side
-- ---------------------------------------------------------------------------

/-- All that is reported of a text, in the order of its tokens. -/
def Document.reported (options : Options) (text : String) : List Diagnostic :=
  (readText options text).reported

theorem Document.exists_of_mem_reported {text : String} {d : Diagnostic}
    (h : d ∈ reported options text) :
    ∃ t ∈ tokensAfter [] (pieces false text.toList), ∃ s, t.start = .ok s.start ∧
      d.span? = some s := by
  obtain ⟨n, hn, hd⟩ := List.mem_filterMap.mp h
  have hf := from_of_read n hn
  cases n with
  | log e => cases hd
  | report d' =>
    cases hd
    obtain ⟨t, ht, s, hs, hds⟩ := hf
    rw [TokenSource.drain, tokens_lex] at ht
    obtain ⟨p, hp⟩ := exists_start_of_mem_tokensAfter ht
    rw [Token.span_eq hp] at hs
    cases hs
    exact ⟨t, ht, _, hp, hds⟩

/-- What is reported of a text starts before its end, so what is reported of the
text behind it says something else. -/
theorem not_repeats_of_reported {a b : String} {d e : Diagnostic}
    (hd : d ∈ Document.reported options a) (he : e ∈ Document.reported options b) :
    ¬(e.mapSpan (Option.map (Span.moved (Place.endOf a.toList)))).Repeats d := by
  rintro ⟨-, hs⟩
  obtain ⟨t, ht, s, hts, hds⟩ := Document.exists_of_mem_reported hd
  obtain ⟨-, -, s', -, hes⟩ := Document.exists_of_mem_reported he
  have hm : s'.start.moved (Place.endOf a.toList) = s.start := by
    simp only [Diagnostic.mapSpan, hes, hds, Option.map_some, Option.some.injEq] at hs
    exact congrArg Span.start hs
  obtain ⟨qs, p, rs, hp, rfl⟩ := exists_of_mem_tokensAfter ht
  rw [Piece.start_tokenAfter] at hts
  have hlt : s.start < (Place.endOf a.toList).toPoint := by
    obtain ⟨_, hsc⟩ := exists_scanned_of_mem_pieces (hp ▸ List.mem_append_right qs (.head rs))
    rw [← Except.ok.inj hts, ← slices_pieces false a.toList, hp, slices_append]
    exact Place.endOf_lt_endOf_append (slices qs) (by simp [hsc.slice_ne_nil])
  have hle := s'.start.toPoint_le_moved (Place.endOf a.toList)
  rw [hm] at hle
  exact Point.lt_iff_not_le.mp hlt hle

-- ---------------------------------------------------------------------------
-- Both readings
-- ---------------------------------------------------------------------------

/-- A document with what comes after it in the same text. -/
def Document.followedBy (d : Document) (base : Place) (e : Document) : Document :=
  { items := d.items ++ e.items.map (·.mapSpan (Option.map (Span.moved base))) }

theorem reported_of_noted {base : Place} {ns ms : List Note}
    (h : List.Forall₂ (Likeness.moving options base).Noted ns ms) :
    ns.filterMap Note.diagnostic? =
      (ms.filterMap Note.diagnostic?).map (·.mapSpan (Option.map (Span.moved base))) := by
  have hr := Likeness.reported_of_noted h
  simpa only [Likeness.moving, Diagnostic.mapSpan_id, List.map_id'] using hr

theorem tokens_append {a b : String}
    (h : a = "" ∨ ∃ l, (Lexer.ofText a).lex.1.getLast? = some l ∧ l.EndsMarkup) :
    tokensAfter [] (pieces false (a ++ b).toList) =
      tokensAfter [] (pieces false a.toList) ++
        (tokensAfter [] (pieces false b.toList)).map (Token.moved (Place.endOf a.toList)) := by
  rw [← tokens_lex, ← tokens_lex, ← tokens_lex, lex_append h, List.map_append, List.map_map,
    List.map_map]
  simp only [Function.comp_def, Lexeme.toToken_moved]

/-- A reading with no directive open goes on as a reading of its own does. -/
theorem Reading.alike_of_closed (options : Options) {r : Reading} (hr : r.open? = none)
    (base : Place) (ps : List Piece) :
    (Likeness.moving options base).Runs (Alike (Likeness.moving options base) r.newestFirst)
      (r.feedAll options ((tokensAfter [] ps).map (Token.moved base)))
      (({} : Reading).feedAll options (tokensAfter [] ps)) := by
  have hstart : ∀ t ∈ tokensAfter [] ps, (Likeness.moving options base).token (t.moved base) t :=
    fun t ht => ⟨rfl, exists_start_of_mem_tokensAfter ht⟩
  have hb : ((tokensAfter [] ps).map (Token.moved base)).Pairwise Token.Before := by
    rw [List.pairwise_map]
    refine (pairwise_tokensAfter [] ps).imp_of_mem fun {t u} ht hu h => ?_
    obtain ⟨p, hp⟩ := exists_start_of_mem_tokensAfter ht
    obtain ⟨q, hq⟩ := exists_start_of_mem_tokensAfter hu
    rw [Token.before_iff hp hq] at h
    rw [Token.before_iff (Token.start_moved base hp) (Token.start_moved base hq)]
    exact Point.moved_le_iff.mpr h
  refine alike_feedAll ⟨?_, ?_⟩ ?_ hb ?_
  · simp [Likeness.moving]
  · rw [hr]
    exact .none
  · rw [List.forall₂_map_left_iff]
    exact List.forall₂_same.mpr hstart
  · rintro t - o ho
    rw [hr] at ho
    cases ho

/-- What is noted down and what comes of a text behind one that is read to its end. -/
theorem Document.readText_append {a b : String} {d : Document}
    (h : a = "" ∨ ∃ l, (Lexer.ofText a).lex.1.getLast? = some l ∧ l.EndsMarkup)
    (hd : (readText options a).outcome = .ok d) :
    let L := Likeness.moving options (Place.endOf a.toList)
    ∃ notes, (readText options (a ++ b)).notes = (readText options a).notes ++ notes ∧
      List.Forall₂ L.Noted notes (readText options b).notes ∧
      L.Outcome (fun d' e => d' = d.followedBy (Place.endOf a.toList) e)
        (readText options (a ++ b)).outcome (readText options b).outcome := by
  intro L
  obtain ⟨r, hr, hc, rfl⟩ := Reading.exists_of_read hd
  rw [TokenSource.drain, tokens_lex] at hr
  have hruns := Reading.alike_of_closed options hc (Place.endOf a.toList)
    (pieces false b.toList)
  have hab := readText_eq options (a ++ b)
  have hb := readText_eq options b
  rw [tokens_append h, Reading.feedAll_append, NoteM.bind_of_ok hr] at hab
  have ha := (readText_eq options a).1
  generalize hts : tokensAfter [] (pieces false b.toList) = ts at *
  refine ⟨_, by rw [hab.1, ha], by rw [hb.1]; exact hruns.notes, ?_⟩
  rw [hab.2, hb.2]
  refine hruns.outcome.bind fun p q hp hpq => (Reading.alike_finish hpq fun ho => ?_).mono ?_
  · have hne : ts ≠ [] := by
      rintro rfl
      cases hp
      rw [hc] at ho
      cases ho
    obtain ⟨t, ht⟩ := Option.isSome_iff_exists.mp (List.getLast?_isSome.mpr hne)
    have hm : t ∈ tokensAfter [] (pieces false b.toList) := hts ▸ List.mem_of_getLast? ht
    exact ⟨t.moved _, t, by simp [List.getLast?_append, ht], ht, rfl,
      exists_start_of_mem_tokensAfter hm⟩
  · rintro ⟨items, span?⟩ e ⟨hitems, rfl, -⟩
    simpa [Likeness.moving, followedBy, Reading.document] using hitems

/-- One template after another. If the first is empty or ends a tag or a
comment, the lexemes of both together are those of the first and those of the
second, moved. If moreover the first is read to its end, then reading both gives
the items of both and the diagnostics of both, those of the second moved, or
fails as the second does, with the place of the fault moved and its code and its words
kept. -/
theorem ofText_append (options : Options) {a b : String}
    (h : a = "" ∨ ∃ l, (Lexer.ofText a).lex.1.getLast? = some l ∧ l.EndsMarkup) :
    let base := Place.endOf a.toList
    (Lexer.ofText (a ++ b)).lex.1 =
        (Lexer.ofText a).lex.1 ++ (Lexer.ofText b).lex.1.map (Lexeme.moved base) ∧
      ∀ d, Document.ofText options a = .ok d →
        Document.ofText options (a ++ b) =
            (match Document.ofText options b with
              | .ok e => .ok (d.followedBy base e)
              | .error fault => .error (fault.moved base)) ∧
          (Document.readText options (a ++ b)).diagnostics =
              (Document.readText options a).diagnostics ++
                (Document.readText options b).diagnostics.map
                  (·.mapSpan (Option.map (Span.moved base))) ∧
          ∀ e, Document.ofText options b = .error (.parse e) →
            ∃ e', Document.ofText options (a ++ b) = .error (.parse e') ∧
              e'.diagnostic = e.diagnostic.mapSpan (Option.map (Span.moved base)) := by
  intro base
  refine ⟨lex_append h, ?_⟩
  intro d hd
  have hdocument : Document.ofText options (a ++ b) =
      (match Document.ofText options b with
        | .ok e => .ok (d.followedBy base e)
        | .error fault => .error (fault.moved base)) := by
    rw [Document.ofText_eq] at hd
    obtain ⟨-, -, -, ho⟩ := Document.readText_append (b := b) h hd
    rw [Document.ofText_eq, Document.ofText_eq]
    generalize (Document.readText options (a ++ b)).outcome = x at ho ⊢
    generalize (Document.readText options b).outcome = y at ho ⊢
    cases ho with
    | ok hde => exact congrArg Except.ok hde
    | error he => exact congrArg Except.error he
  refine ⟨hdocument, ?_, fun e he => ?_⟩
  · rw [Document.ofText_eq] at hd
    obtain ⟨notes, hn, hnotes, -⟩ := Document.readText_append (b := b) h hd
    have hr := reported_of_noted hnotes
    simp only [Run.diagnostics, Run.reported, hn, List.filterMap_append, hr]
    rw [Diagnostic.kept_append, Diagnostic.kept_map]
    · exact Option.map_injective fun s t => Span.moved_injective
    · intro d' hd' e' he'
      obtain ⟨e, he, rfl⟩ := List.mem_map.mp he'
      exact not_repeats_of_reported hd' he
  · rw [he] at hdocument
    exact ⟨e.moved base, hdocument, e.diagnostic_moved base⟩

theorem ofText_append_includes :
    let a := "\x7b% include 'a' %\x7d"
    let b := "\n\x7b% include b + 'c' %\x7d"
    (Lexer.ofText a).lex.1.getLast? = some ⟨.blockEnd, "%\x7d", 0, 15⟩ ∧
      ∃ d e, Document.ofText {} a = .ok d ∧ d.items.length = 1 ∧
        Document.ofText {} b = .ok e ∧ e.items.length = 1 ∧
        Document.ofText {} (a ++ b) = .ok (d.followedBy (Place.endOf a.toList) e) := by
  intro a b
  have hlast : (Lexer.ofText a).lex.1.getLast? = some ⟨.blockEnd, "%\x7d", 0, 15⟩ := by
    decide +kernel
  have ha : (Document.ofText {} a).toOption.map (·.items.length) = some 1 := by decide +kernel
  have hb : (Document.ofText {} b).toOption.map (·.items.length) = some 1 := by decide +kernel
  obtain ⟨d, hd, hdl⟩ := exists_ok_of_toOption (Option.map_eq_some_iff.mp ha)
  obtain ⟨e, he, hel⟩ := exists_ok_of_toOption (Option.map_eq_some_iff.mp hb)
  have h := ((ofText_append {} (.inr ⟨_, hlast, .inl rfl⟩) (b := b)).2 d hd).1
  rw [he] at h
  exact ⟨hlast, d, e, hd, hdl, he, hel, h⟩

end TemplateTree
