import Mathlib.Data.List.SplitBy
import TemplateTree.Proofs.Diagnostic.Kept
import TemplateTree.Token.Place

/-!
# Runs of repeated diagnostics

Reports of one code and place that come right after each other form a run. What is kept of
a sequence of reports is the first of each of its runs, so that no two neighbours are left
that repeat each other (`kept_reports`).
-/

namespace TemplateTree

namespace Diagnostic

variable {previous? : Option Diagnostic} {d e : Diagnostic}

theorem fresh_append (previous? : Option Diagnostic) (ds es : List Diagnostic) :
    fresh previous? (ds ++ es) = fresh previous? ds ++ fresh (ds.getLast?.or previous?) es := by
  induction ds generalizing previous? with
  | nil => rfl
  | cons d ds ih =>
    have hlast : (d :: ds).getLast?.or previous? = ds.getLast?.or (some d) := by
      rw [List.getLast?_cons, Option.some_or]
      cases ds.getLast? <;> rfl
    rw [List.cons_append, fresh_cons, fresh_cons, ih, hlast]
    split
    · rfl
    · rw [List.cons_append]

/-- Neighbours do not repeat each other, also where the last one kept stands for `e`. -/
theorem isChain_fresh (h : d.Repeats e) (ds : List Diagnostic) :
    (d :: fresh (some e) ds).IsChain fun d e => ¬e.Repeats d := by
  induction ds generalizing d e with
  | nil => exact .singleton d
  | cons f ds ih =>
    rw [fresh_cons, Option.any_some]
    by_cases hr : f.Repeats e
    · rw [if_pos (decide_eq_true hr)]
      exact ih ⟨h.1.trans hr.1.symm, h.2.trans hr.2.symm⟩
    · have hd : ¬f.Repeats d := fun hd => hr ⟨hd.1.trans h.1, hd.2.trans h.2⟩
      rw [if_neg (by simpa using hr)]
      exact .cons_cons hd (ih ⟨rfl, rfl⟩)

theorem isChain_kept (ds : List Diagnostic) : (kept ds).IsChain fun d e => ¬e.Repeats d := by
  cases ds with
  | nil => exact .nil
  | cons d ds =>
    rw [kept_cons]
    exact isChain_fresh ⟨rfl, rfl⟩ ds

-- ---------------------------------------------------------------------------
-- Runs
-- ---------------------------------------------------------------------------

/-- Nothing is fresh in the rest of a run. -/
theorem fresh_of_isChain {ds : List Diagnostic}
    (h : (d :: ds).IsChain fun d e => decide (e.Repeats d)) : fresh (some d) ds = [] := by
  induction ds generalizing d with
  | nil => rfl
  | cons e ds ih =>
    obtain ⟨hr, h⟩ := List.isChain_cons_cons.mp h
    rw [fresh_cons, Option.any_some, if_pos hr]
    exact ih h

theorem fresh_flatten {runs : List (List Diagnostic)} (hne : [] ∉ runs)
    (hruns : ∀ run ∈ runs, run.IsChain fun d e => decide (e.Repeats d))
    (hapart : runs.IsChain fun run next =>
      ∃ h h', decide ((next.head h').Repeats (run.getLast h)) = false)
    (hfirst : ∀ run ∈ runs.head?, ∀ d ∈ run.head?, previous?.any (d.Repeats ·) = false) :
    fresh previous? runs.flatten = runs.filterMap List.head? := by
  induction runs generalizing previous? with
  | nil => rfl
  | cons run runs ih =>
    cases run with
    | nil => exact absurd List.mem_cons_self hne
    | cons d ds =>
      obtain ⟨hrun, hothers⟩ := List.forall_mem_cons.mp hruns
      obtain ⟨hnext, hapart⟩ := List.isChain_cons.mp hapart
      have hd := hfirst (d :: ds) rfl d rfl
      have hrest : fresh ((d :: ds).getLast?.or previous?) runs.flatten =
          runs.filterMap List.head? := by
        refine ih (fun hn => hne (List.mem_cons_of_mem _ hn)) hothers hapart ?_
        intro next hm e he
        obtain ⟨_, _, hno⟩ := hnext next hm
        rwa [List.getLast?_eq_some_getLast (List.cons_ne_nil d ds), Option.some_or,
          Option.any_some, ← List.head_of_mem_head? he]
      rw [List.flatten_cons, fresh_append, hrest, fresh_cons, hd, fresh_of_isChain hrun]
      rfl

/-- Each run leaves its first diagnostic. -/
theorem kept_eq_firsts (ds : List Diagnostic) :
    kept ds = (ds.splitBy fun d e => e.Repeats d).filterMap List.head? := by
  generalize hr : (ds.splitBy fun d e => decide (e.Repeats d)) = runs
  obtain ⟨rfl, hne, hruns, hapart⟩ := List.splitBy_eq_iff.mp hr
  rw [kept_eq]
  exact fresh_flatten hne hruns hapart fun _ _ _ _ => rfl

end Diagnostic

/-- Of some reports those are kept that have not the code and the place of the one right
before them, kept or not: no two neighbours of these have the same, and they are the first
ones of the runs in which the reports repeat each other. Reports that are made behind these
leave what all of them would. -/
theorem kept_reports (ds : List Diagnostic) :
    Diagnostic.kept ds = Diagnostic.fresh none ds ∧
      (∀ d e, [d, e] <:+: Diagnostic.kept ds → ¬(e.code = d.code ∧ e.span? = d.span?)) ∧
      Diagnostic.kept ds = (ds.splitBy fun d e => e.Repeats d).filterMap List.head? ∧
      ∀ es, ((Journal.reportAll {} ds).reportAll es).toList = Diagnostic.kept (ds ++ es) := by
  refine ⟨Diagnostic.kept_eq ds, fun d e h => ?_, Diagnostic.kept_eq_firsts ds, fun es => ?_⟩
  · obtain ⟨front, back, hds⟩ := h
    apply List.isChain_iff_forall_rel_of_append_cons_cons.mp (Diagnostic.isChain_kept ds)
    rw [← hds, List.append_assoc]
    rfl
  · rw [← Journal.reportAll_append]
    rfl

theorem kept_reports_two_runs :
    let unplaced := Code.danglingAlias.at none
    let again := { unplaced with message := "once more", severity := .error }
    let placed := Code.danglingAlias.at (some (.empty (Place.toPoint {})))
    let ds := [unplaced, again, placed, placed, again]
    Diagnostic.kept ds = [unplaced, placed, again] ∧
      [unplaced, placed] <:+: Diagnostic.kept ds ∧
      ¬(placed.code = unplaced.code ∧ placed.span? = unplaced.span?) := by
  intro unplaced again placed ds
  obtain ⟨hfresh, hneighbours, -⟩ := kept_reports ds
  have hkept : Diagnostic.kept ds = [unplaced, placed, again] := hfresh.trans (by decide)
  have h : [unplaced, placed] <:+: Diagnostic.kept ds := hkept ▸ ⟨[], [again], rfl⟩
  exact ⟨hkept, h, hneighbours unplaced placed h⟩

end TemplateTree
