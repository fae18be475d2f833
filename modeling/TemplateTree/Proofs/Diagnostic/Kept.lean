import TemplateTree.Diagnostic.Journal
import TemplateTree.Proofs.Tree.MapSpan

/-!
# The diagnostics that are kept

A report is dropped only for the one kept last, which has the code and the place of the
report right before, whether that was kept or not (`kept_eq`). So of two sequences of
reports the second loses at most its first, where it repeats the last of the other
(`kept_append_eq`), and reports that all move alike are dropped alike.
-/

namespace TemplateTree

/-- The diagnostics of a sequence that do not repeat the one right before them, with
`previous?` right before the first. -/
def Diagnostic.fresh (previous? : Option Diagnostic) (ds : List Diagnostic) : List Diagnostic :=
  ((ds.zip (previous? :: ds.map some)).filter fun (d, before?) =>
    !before?.any (d.Repeats ·)).map Prod.fst

theorem Diagnostic.fresh_cons (previous? : Option Diagnostic) (d : Diagnostic)
    (ds : List Diagnostic) :
    fresh previous? (d :: ds) =
      if previous?.any (d.Repeats ·) then fresh (some d) ds else d :: fresh (some d) ds := by
  simp only [fresh, List.map_cons, List.zip_cons_cons, List.filter_cons]
  cases previous?.any (d.Repeats ·) <;> rfl

namespace Journal

theorem report_cons (d previous : Diagnostic) (earlier : List Diagnostic) :
    report ⟨previous :: earlier⟩ d =
      if d.Repeats previous then ⟨previous :: earlier⟩ else ⟨d :: previous :: earlier⟩ := rfl

theorem reportAll_cons (j : Journal) (d : Diagnostic) (ds : List Diagnostic) :
    j.reportAll (d :: ds) = (j.report d).reportAll ds := rfl

/-- Behind a report that the last one kept stands for, further reports are kept if they
do not repeat the one right before them. -/
theorem reportAll_newest {d e : Diagnostic} (h : d.Repeats e) (older ds : List Diagnostic) :
    reportAll ⟨d :: older⟩ ds = ⟨(Diagnostic.fresh (some e) ds).reverse ++ d :: older⟩ := by
  induction ds generalizing d e older with
  | nil => rfl
  | cons f ds ih =>
    have hf : f.Repeats d ↔ f.Repeats e := by simp only [Diagnostic.Repeats, h.1, h.2]
    rw [reportAll_cons, report_cons, Diagnostic.fresh_cons, Option.any_some]
    by_cases hr : f.Repeats e
    · rw [if_pos (hf.mpr hr), if_pos (decide_eq_true hr)]
      exact ih ⟨h.1.trans hr.1.symm, h.2.trans hr.2.symm⟩ older
    · rw [if_neg (mt hf.mp hr), if_neg (by simpa using hr), List.reverse_cons, List.append_assoc]
      exact ih ⟨rfl, rfl⟩ (d :: older)

theorem mem_of_mem_report {j : Journal} {e d : Diagnostic} (h : d ∈ (j.report e).newestFirst) :
    d = e ∨ d ∈ j.newestFirst := by
  obtain ⟨ds⟩ := j
  cases ds with
  | nil => exact .inl (List.mem_singleton.mp h)
  | cons previous earlier =>
    simp only [report] at h
    split at h
    · exact .inr h
    · exact List.mem_cons.mp h

theorem mem_of_mem_reportAll {j : Journal} {ds : List Diagnostic} {d : Diagnostic}
    (h : d ∈ (j.reportAll ds).newestFirst) : d ∈ ds ∨ d ∈ j.newestFirst := by
  induction ds generalizing j with
  | nil => exact .inr h
  | cons e ds ih =>
    rcases ih h with h | h
    · exact .inl (List.mem_cons_of_mem e h)
    · rcases mem_of_mem_report h with rfl | h
      · exact .inl (by simp)
      · exact .inr h

variable {f : Option Span → Option Span}

theorem report_map (hf : Function.Injective f) (ds : List Diagnostic) (d : Diagnostic) :
    report ⟨ds.map (·.mapSpan f)⟩ (d.mapSpan f) =
      ⟨(report ⟨ds⟩ d).newestFirst.map (·.mapSpan f)⟩ := by
  cases ds with
  | nil => rfl
  | cons previous earlier =>
    have hr : (d.mapSpan f).Repeats (previous.mapSpan f) ↔ d.Repeats previous := by
      simp only [Diagnostic.Repeats, Diagnostic.mapSpan, hf.eq_iff]
    simp only [List.map_cons, report, hr]
    split <;> rfl

theorem reportAll_map (hf : Function.Injective f) (ds es : List Diagnostic) :
    reportAll ⟨ds.map (·.mapSpan f)⟩ (es.map (·.mapSpan f)) =
      ⟨(reportAll ⟨ds⟩ es).newestFirst.map (·.mapSpan f)⟩ := by
  induction es generalizing ds with
  | nil => rfl
  | cons e es ih =>
    have ih := ih (report ⟨ds⟩ e).newestFirst
    simp only [reportAll, List.map_cons, List.foldl_cons, report_map hf] at ih ⊢
    exact ih

end Journal

namespace Diagnostic

/-- Diagnostics that are kept, and behind them others that are kept by themselves:
the first of these is dropped if it repeats the last of those. -/
def joined (ds : List Diagnostic) : List Diagnostic → List Diagnostic
  | [] => ds
  | e :: es => if ds.getLast?.any (e.Repeats ·) then ds ++ es else ds ++ e :: es

theorem kept_cons (d : Diagnostic) (ds : List Diagnostic) :
    kept (d :: ds) = d :: fresh (some d) ds := by
  have h : Journal.reportAll {} (d :: ds) = _ :=
    Journal.reportAll_newest (d := d) (e := d) ⟨rfl, rfl⟩ [] ds
  simp [kept, h, Journal.toList]

/-- Of some reports those are kept that do not repeat the one right before them. -/
theorem kept_eq (ds : List Diagnostic) : kept ds = fresh none ds := by
  cases ds with
  | nil => rfl
  | cons d ds => rw [kept_cons, fresh_cons, Option.any_none, if_neg Bool.false_ne_true]

theorem kept_append_eq (ds es : List Diagnostic) :
    kept (ds ++ es) = joined (kept ds) (kept es) := by
  cases es with
  | nil =>
    rw [List.append_nil]
    rfl
  | cons e es =>
    have he := kept_cons e es
    rw [he, kept, kept, Journal.reportAll_append]
    obtain ⟨kept⟩ := Journal.reportAll {} ds
    cases kept with
    | nil => exact he
    | cons previous earlier =>
      rw [Journal.reportAll_cons, Journal.report_cons]
      by_cases h : e.Repeats previous
      · rw [if_pos h, Journal.reportAll_newest (d := previous) (e := e) ⟨h.1.symm, h.2.symm⟩]
        simp [Journal.toList, joined, h]
      · rw [if_neg h, Journal.reportAll_newest (d := e) (e := e) ⟨rfl, rfl⟩]
        simp [Journal.toList, joined, h]

theorem mem_of_mem_kept {ds : List Diagnostic} {d : Diagnostic} (h : d ∈ kept ds) : d ∈ ds :=
  (Journal.mem_of_mem_reportAll (List.mem_reverse.mp h)).resolve_right List.not_mem_nil

theorem kept_append {ds es : List Diagnostic} (h : ∀ d ∈ ds, ∀ e ∈ es, ¬e.Repeats d) :
    kept (ds ++ es) = kept ds ++ kept es := by
  rw [kept_append_eq]
  cases hes : kept es with
  | nil => exact (List.append_nil _).symm
  | cons e es' =>
    have he : e ∈ es := mem_of_mem_kept (by simp [hes])
    have hn : ¬(kept ds).getLast?.any (e.Repeats ·) := by
      simp only [Option.any_eq_true, decide_eq_true_eq, not_exists, not_and]
      exact fun d hd => h d (mem_of_mem_kept (List.mem_of_getLast? hd)) e he
    exact if_neg hn

theorem kept_eq_self {ds : List Diagnostic} (h : ds.Pairwise fun d e => ¬e.Repeats d) :
    kept ds = ds := by
  induction ds with
  | nil => rfl
  | cons d ds ih =>
    obtain ⟨hd, h⟩ := List.pairwise_cons.mp h
    have ha : kept ([d] ++ ds) = kept [d] ++ kept ds := kept_append (by simpa using hd)
    rw [ih h] at ha
    exact ha

theorem kept_map {f : Option Span → Option Span} (hf : Function.Injective f)
    (ds : List Diagnostic) : kept (ds.map (·.mapSpan f)) = (kept ds).map (·.mapSpan f) := by
  have hm := Journal.reportAll_map hf [] ds
  rw [kept, kept, Journal.toList, Journal.toList, List.map_reverse]
  exact congrArg (·.newestFirst.reverse) hm

end Diagnostic

end TemplateTree
