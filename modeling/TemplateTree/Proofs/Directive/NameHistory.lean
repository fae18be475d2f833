import Mathlib.Data.List.Induction
import Mathlib.Data.List.TakeWhile
import TemplateTree.Directive.NameList

/-!
# Histories of a list of names

What a list of names holds after any sequence of calls. Only a push adds an entry; the
entry of a push is settled by the aliases given before the next push, of which the last
one counts, and no later call changes it.
-/

namespace TemplateTree

/-- The least span that contains those of the two that are known; unknown if neither is. -/
inductive Span.IsKnownCover : Option Span → Option Span → Option Span → Prop
  | both {e s t : Span} (h : e.IsCover s t) : IsKnownCover (some e) (some s) (some t)
  | left (s : Span) : IsKnownCover (some s) (some s) none
  | right (t : Span) : IsKnownCover (some t) none (some t)
  | none : IsKnownCover none none none

theorem Span.isKnownCover_cover? (s? t? : Option Span) :
    IsKnownCover (cover? s? t?) s? t? := by
  cases s? with
  | none => cases t? with
    | none => exact .none
    | some t => exact .right t
  | some s => cases t? with
    | none => exact .left s
    | some t => exact .both (s.isCover_cover t)

namespace NameList

inductive Call
  | push (name : Leaf)
  | aliasLast (value : Leaf)
  | build
  deriving DecidableEq, Repr

inductive Answer
  | pushed
  | aliased (accepted : Bool)
  | built (names : ImportedNames)
  deriving DecidableEq, Repr

def call (l : NameList) : Call → Answer × NameList
  | .push name => (.pushed, l.push name)
  | .aliasLast value =>
    match l.aliasLast? value with
    | some l => (.aliased true, l)
    | none => (.aliased false, l)
  | .build => (.built l.build, l)

/-- The list after calls in this order, empty before them. -/
def after (calls : List Call) : NameList := calls.foldl (fun l c => (l.call c).2) {}

namespace Call

def name? : Call → Option Leaf
  | .push name => some name
  | _ => none

def value? : Call → Option Leaf
  | .aliasLast value => some value
  | _ => none

end Call

def pushed (calls : List Call) : List Leaf := calls.filterMap Call.name?

/-- The last alias that is given before the next push. -/
def lastAlias? (since : List Call) : Option Leaf :=
  ((since.takeWhile fun c => c.name?.isNone).filterMap Call.value?).getLast?

/-- The entry of a name, by the alias that it has in the end. -/
inductive EntryOf (name : Leaf) : Option Leaf → ImportedName → Prop
  | plain : EntryOf name none (.plain name)
  | aliased {value : Leaf} {span? : Option Span}
      (h : Span.IsKnownCover span? name.span? value.span?) :
      EntryOf name (some value) (.aliased ⟨name, value, span?⟩)

theorem EntryOf.key {name : Leaf} {value? : Option Leaf} {e : ImportedName}
    (h : EntryOf name value? e) : e.key = name := by
  cases h <;> rfl

-- ---------------------------------------------------------------------------
-- Calls
-- ---------------------------------------------------------------------------

variable {l : NameList}

theorem call_aliasLast_nil (h : l.newestFirst = []) (value : Leaf) :
    l.call (.aliasLast value) = (.aliased false, l) := by
  simp only [call, aliasLast?, h]

theorem call_aliasLast_cons {last : ImportedName} {earlier : List ImportedName}
    (h : l.newestFirst = last :: earlier) (value : Leaf) :
    l.call (.aliasLast value) =
      (.aliased true,
        ⟨.aliased ⟨last.key, value, Span.cover? last.key.span? value.span?⟩ :: earlier⟩) := by
  simp only [call, aliasLast?, h]

theorem length_call (l : NameList) (c : Call) :
    (l.call c).2.newestFirst.length = l.newestFirst.length + c.name?.toList.length := by
  cases c with
  | push name => rfl
  | aliasLast value =>
    cases h : l.newestFirst with
    | nil => rw [call_aliasLast_nil h, h]; rfl
    | cons last earlier => rw [call_aliasLast_cons h]; rfl
  | build => rfl

theorem after_concat (calls : List Call) (c : Call) :
    after (calls ++ [c]) = ((after calls).call c).2 := by
  simp only [after, List.foldl_append, List.foldl_cons, List.foldl_nil]

theorem pushed_concat (calls : List Call) (c : Call) :
    pushed (calls ++ [c]) = pushed calls ++ c.name?.toList := by
  rw [pushed, List.filterMap_append]
  cases hc : c.name? <;> simp [pushed, hc]

/-- An alias counts until the next push. -/
theorem lastAlias?_concat (since : List Call) (c : Call) :
    lastAlias? (since ++ [c]) =
      if pushed since = [] then c.value?.or (lastAlias? since) else lastAlias? since := by
  have hall : (since.takeWhile fun c => c.name?.isNone) = since ↔ pushed since = [] := by
    simp [pushed, List.takeWhile_eq_self_iff, List.filterMap_eq_nil_iff]
  simp only [lastAlias?, List.takeWhile_append]
  by_cases h : pushed since = []
  · rw [hall.mpr h, if_pos rfl, if_pos h, List.filterMap_append, List.getLast?_append]
    cases c <;> rfl
  · have hlt : (since.takeWhile fun c => c.name?.isNone).length ≠ since.length :=
      fun hl => h (hall.mp ((List.takeWhile_prefix _).eq_of_length hl))
    rw [if_neg hlt, if_neg h]

-- ---------------------------------------------------------------------------
-- Histories
-- ---------------------------------------------------------------------------

theorem length_after (calls : List Call) :
    (after calls).newestFirst.length = (pushed calls).length := by
  induction calls using List.reverseRecOn with
  | nil => rfl
  | append_singleton calls c ih =>
    rw [after_concat, length_call, ih, pushed_concat, List.length_append]

/-- The entry of a push stands between the entries before it and those of the pushes
since. -/
theorem exists_entryOf (before : List Call) (name : Leaf) (since : List Call) :
    ∃ newer e, (after (before ++ .push name :: since)).newestFirst =
        newer ++ e :: (after before).newestFirst ∧
      newer.length = (pushed since).length ∧ EntryOf name (lastAlias? since) e := by
  -- a call reaches the newest entry at most, so it leaves those before the push alone
  induction since using List.reverseRecOn with
  | nil => exact ⟨[], .plain name, by rw [after_concat]; rfl, rfl, .plain⟩
  | append_singleton since c ih =>
    obtain ⟨newer, e, hl, hlen, he⟩ := ih
    have hstate : after (before ++ .push name :: (since ++ [c])) =
        ((after (before ++ .push name :: since)).call c).2 := by
      rw [← after_concat, List.append_assoc, List.cons_append]
    rw [hstate, lastAlias?_concat, pushed_concat]
    cases c with
    | push next =>
      exact ⟨.plain next :: newer, e, congrArg (_ :: ·) hl, by simp [hlen, Call.name?],
        by simpa [Call.value?] using he⟩
    | build =>
      exact ⟨newer, e, hl, by simp [hlen, Call.name?], by simpa [Call.value?] using he⟩
    | aliasLast value =>
      cases newer with
      | nil =>
        -- nothing was pushed since, so the alias goes to the entry itself
        have hnone : pushed since = [] := List.eq_nil_of_length_eq_zero hlen.symm
        rw [call_aliasLast_cons hl, he.key, hnone]
        exact ⟨[], _, rfl, rfl, .aliased (Span.isKnownCover_cover? _ _)⟩
      | cons last newer =>
        have hsome : pushed since ≠ [] := by
          rintro hnone
          simp [hnone] at hlen
        rw [call_aliasLast_cons hl, if_neg hsome]
        exact ⟨_ :: newer, e, rfl, by simpa [Call.name?] using hlen, he⟩

end NameList

/-- After any calls, a list of names has an entry for each push, in order. The entry of a
push has the pushed name with its span, and it has an alias exactly if one is given before
the next push; then its alias is the last of these, and its span covers both as far as they
are known. An alias is refused exactly if nothing has been pushed, and changes nothing then;
to build changes nothing, and the list that is built spans from its first entry to its last. -/
theorem nameList_history (calls : List NameList.Call) :
    let l := NameList.after calls
    l.entries.length = (NameList.pushed calls).length ∧
      (∀ before name since, calls = before ++ .push name :: since →
        ∃ e, l.entries[(NameList.pushed before).length]? = some e ∧
          NameList.EntryOf name (NameList.lastAlias? since) e) ∧
      (∀ value, ∃ accepted, (l.call (.aliasLast value)).1 = .aliased accepted ∧
        (accepted = false ↔ NameList.pushed calls = []) ∧
          (accepted = false → (l.call (.aliasLast value)).2 = l)) ∧
      ∃ names, l.call .build = (.built names, l) ∧ names.entries = l.entries ∧
        Span.IsKnownCover names.span? (l.entries.head?.bind ImportedName.span?)
          (l.entries.getLast?.bind ImportedName.span?) := by
  intro l
  have hlength : l.newestFirst.length = (NameList.pushed calls).length :=
    NameList.length_after calls
  refine ⟨by rw [NameList.entries, List.length_reverse, hlength], ?_, fun value => ?_, ?_⟩
  · rintro before name since rfl
    obtain ⟨newer, e, hl, -, he⟩ := NameList.exists_entryOf before name since
    refine ⟨e, ?_, he⟩
    rw [NameList.entries, hl, ← NameList.length_after before]
    simp
  · cases h : l.newestFirst with
    | nil =>
      have hnone : NameList.pushed calls = [] := by simpa [h] using hlength.symm
      rw [NameList.call_aliasLast_nil h]
      exact ⟨false, rfl, by simp [hnone], fun _ => rfl⟩
    | cons last earlier =>
      have hsome : NameList.pushed calls ≠ [] := by
        rintro hnone
        simp [h, hnone] at hlength
      rw [NameList.call_aliasLast_cons h]
      exact ⟨true, rfl, by simp [hsome], nofun⟩
  · refine ⟨l.build, rfl, rfl, ?_⟩
    rw [NameList.entries, List.getLast?_reverse]
    exact Span.isKnownCover_cover? _ _

theorem nameList_history_realiased :
    let calls : List NameList.Call :=
      [.aliasLast ⟨"z", none⟩, .push ⟨"a", none⟩, .aliasLast ⟨"b", none⟩, .build,
        .aliasLast ⟨"c", some (.empty { line := 1, column := 4 })⟩, .push ⟨"d", none⟩]
    let l := NameList.after calls
    l.entries.length = 2 ∧
      (∃ e, l.entries[0]? = some e ∧ NameList.EntryOf ⟨"a", none⟩
        (some ⟨"c", some (.empty { line := 1, column := 4 })⟩) e) ∧
      ∃ e, l.entries[1]? = some e ∧ NameList.EntryOf ⟨"d", none⟩ none e := by
  intro calls l
  obtain ⟨hlength, hentry, -⟩ := nameList_history calls
  exact ⟨hlength, hentry [.aliasLast ⟨"z", none⟩] _ _ rfl, hentry (calls.take 5) _ [] rfl⟩

end TemplateTree
