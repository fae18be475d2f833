import TemplateTree.Proofs.Reading.FeedAll
import TemplateTree.Proofs.Reading.Likeness

/-!
# Readings that go alike

For every likeness, one token keeps two corresponding readings corresponding
(`Reading.alike_feed`), and so do all the tokens of two inputs: the readings
note down alike (`Reading.alike_feedAll`) and end alike (`Reading.alike_finish`).
The left input has to be in reading order, so that a directive closes no earlier
than it opens. It may have been read from before, with items of its own.
-/

namespace TemplateTree

open Likeness

variable (L : Likeness)

-- ---------------------------------------------------------------------------
-- Import directives
-- ---------------------------------------------------------------------------

structure ImportNames.Alike (p q : ImportNames) : Prop where
  withContext : p.withContext = q.withContext
  awaiting : Option.Rel L.Word p.awaiting? q.awaiting?
  names : p.names.newestFirst.map (·.mapSpan L.onLeft) =
    q.names.newestFirst.map (·.mapSpan L.onRight)

structure ImportTarget.Alike (p q : ImportTarget) : Prop where
  withContext : p.withContext = q.withContext
  awaiting : p.awaiting = q.awaiting
  target : p.target?.map (·.mapSpan L.onLeft) = q.target?.map (·.mapSpan L.onRight)

structure IncludeWords.Alike (p q : IncludeWords) : Prop where
  ignoreMissing : p.ignoreMissing = q.ignoreMissing
  path : Option.Rel L.Word p.path? q.path?
  left : Option.Rel L.Word p.left? q.left?

variable {L}

theorem Likeness.Word.isWord {t u : Token} (h : L.Word t u) (word : String) :
    u.isWord word = t.isWord word := by
  simp only [Token.isWord, L.kind h.1, L.value h.1]

theorem Likeness.Word.feed {t u : Token} (h : L.Word t u) (p : Phrase) : p.feed u = p.feed t := by
  simp only [Phrase.feed, Phrase.after, h.isWord]

theorem Likeness.Word.mentions {t u : Token} (h : L.Word t u) (p : Phrase) :
    p.mentions u = p.mentions t := by
  simp only [Phrase.mentions, h.isWord]

namespace ImportNames

theorem alike_name {p q : ImportNames} (h : Alike L p q) {n m : Leaf}
    (hn : n.mapSpan L.onLeft = m.mapSpan L.onRight) : L.Runs (Alike L) (p.name n) (q.name m) := by
  obtain ⟨phrase, awaiting?, names⟩ := p
  obtain ⟨phrase', awaiting?', names'⟩ := q
  obtain ⟨rfl, ha, hl⟩ := h
  simp only at ha hl
  cases ha with
  | none => exact .pure ⟨rfl, .none, by simp [NameList.push, hn, hl]⟩
  | some hw =>
    obtain ⟨names⟩ := names
    obtain ⟨names'⟩ := names'
    cases names with
    | nil =>
      obtain rfl : names' = [] := by simpa using hl.symm
      refine .bind (.note (.report ?_)) fun _ _ _ => .pure ⟨rfl, .none, rfl⟩
      exact congrArg Code.danglingAlias.at (congrArg Leaf.span? hn)
    | cons last earlier =>
      cases names' with
      | nil => simp at hl
      | cons last' earlier' =>
        obtain ⟨hk, he⟩ := List.cons.inj hl
        have hk := congrArg ImportedName.key hk
        simp only [ImportedName.key_mapSpan] at hk
        have hs := L.cover? (congrArg Leaf.span? hk) (congrArg Leaf.span? hn)
        exact .pure ⟨rfl, .none, by simp [Alias.mapSpan, hk, hn, hs, he]⟩

theorem alike_feed {p q : ImportNames} (h : Alike L p q) {t u : Token} (hw : L.Word t u) :
    L.Runs (Alike L) (p.feed L.left.positionMode t) (q.feed L.right.positionMode u) := by
  have hp : Alike L { p with withContext := p.withContext.feed t }
      { q with withContext := p.withContext.feed t } := ⟨rfl, h.awaiting, h.names⟩
  simp only [feed, hw.mentions, hw.feed, L.kind hw.1, L.value hw.1, ← h.withContext]
  split
  · exact .pure hp
  split
  · exact .pure ⟨rfl, .some hw, h.names⟩
  · refine .bind (.span hw) fun s s' hs => alike_name hp ?_
    simp only [Leaf.mapSpan, hs]

theorem head?_alike {l l' : List ImportedName}
    (h : l.map (·.mapSpan L.onLeft) = l'.map (·.mapSpan L.onRight)) :
    L.onLeft (l.head?.bind ImportedName.span?) = L.onRight (l'.head?.bind ImportedName.span?) := by
  cases l with
  | nil =>
    obtain rfl : l' = [] := by simpa using h.symm
    exact L.unknown
  | cons name l =>
    cases l' with
    | nil => simp at h
    | cons name' l' =>
      have hs := congrArg ImportedName.span? (List.cons.inj h).1
      simp only [ImportedName.span?_mapSpan] at hs
      exact hs

theorem build_alike {p q : NameList}
    (h : p.newestFirst.map (·.mapSpan L.onLeft) = q.newestFirst.map (·.mapSpan L.onRight)) :
    p.build.mapSpan L.onLeft = q.build.mapSpan L.onRight := by
  have he : p.entries.map (·.mapSpan L.onLeft) = q.entries.map (·.mapSpan L.onRight) := by
    simp only [NameList.entries, List.map_reverse, h]
  simp only [NameList.build, ImportedNames.mapSpan, he,
    L.cover? (head?_alike he) (head?_alike h)]

theorem alike_close {p q : ImportNames} (h : Alike L p q) {n m : Leaf}
    (hn : n.mapSpan L.onLeft = m.mapSpan L.onRight) {o o' c c' : Token}
    (hd : L.Delimits o c o' c') :
    L.Runs (fun i j => i.mapSpan L.onLeft = j.mapSpan L.onRight)
      (p.close L.left.positionMode n o c) (q.close L.right.positionMode m o' c') := by
  obtain ⟨phrase, awaiting?, names⟩ := p
  obtain ⟨phrase', awaiting?', names'⟩ := q
  obtain ⟨rfl, ha, hl⟩ := h
  have hend : L.Runs (fun i j => i.mapSpan L.onLeft = j.mapSpan L.onRight)
      (close L.left.positionMode ⟨phrase, none, names⟩ n o c)
      (close L.right.positionMode ⟨phrase, none, names'⟩ m o' c') :=
    .bind (.spanTo hd) fun s s' hs => .pure (by
      simp only [Import.mapSpan, Binding.mapSpan, hn, hs, build_alike hl])
  cases ha with
  | none => exact hend
  | some hw =>
    refine .bind (.span hw) fun s s' hs => .bind (.note (.report ?_)) fun _ _ _ => hend
    exact congrArg Code.danglingAlias.at hs

end ImportNames

-- ---------------------------------------------------------------------------
-- The other directives
-- ---------------------------------------------------------------------------

namespace ImportTarget

theorem alike_feed {p q : ImportTarget} (h : Alike L p q) {t u : Token} (hw : L.Word t u) :
    L.Runs (Alike L) (p.feed L.left.positionMode t) (q.feed L.right.positionMode u) := by
  have hp : Alike L { p with withContext := p.withContext.feed t }
      { withContext := p.withContext.feed t, awaiting := p.awaiting, target? := q.target? } :=
    ⟨rfl, rfl, h.target⟩
  simp only [feed, hw.mentions, hw.feed, L.kind hw.1, L.value hw.1, ← h.withContext, ← h.awaiting]
  split
  · exact .pure hp
  split
  · exact .pure ⟨rfl, rfl, h.target⟩
  split
  · exact .bind (.span hw) fun s s' hs => .pure ⟨rfl, rfl, by simp [Leaf.mapSpan, hs]⟩
  · exact .pure hp

theorem alike_close {p q : ImportTarget} (h : Alike L p q) {n m : Leaf}
    (hn : n.mapSpan L.onLeft = m.mapSpan L.onRight) {o o' c c' : Token}
    (hd : L.Delimits o c o' c') :
    L.Runs (fun i j => i.mapSpan L.onLeft = j.mapSpan L.onRight)
      (p.close L.left.positionMode n o c) (q.close L.right.positionMode m o' c') := by
  obtain ⟨phrase, awaiting, target?⟩ := p
  obtain ⟨phrase', awaiting', target?'⟩ := q
  obtain ⟨rfl, rfl, ht⟩ := h
  refine .bind (.spanTo hd) ?_
  intro s s' hs
  cases target? with
  | none =>
    obtain rfl : target?' = none := by simpa using ht.symm
    exact .fail (L.missingAlias hs)
  | some name =>
    obtain ⟨name', rfl, hname⟩ := Option.map_eq_some_iff.1 ht.symm
    exact .pure (by simp only [Import.mapSpan, Binding.mapSpan, hn, hs, hname])

end ImportTarget

namespace IncludeWords

theorem alike_feed {p q : IncludeWords} (h : Alike L p q) {t u : Token} (hw : L.Word t u) :
    Alike L (p.feed t) (q.feed u) := by
  simp only [feed, hw.mentions, hw.feed, L.kind hw.1, ← h.ignoreMissing]
  split
  · exact ⟨rfl, h.path, h.left⟩
  split
  · exact ⟨rfl, .some hw, h.left⟩
  · exact ⟨rfl, h.path, .some hw⟩

theorem alike_template {p q : Token} (hp : L.Word p q) {l r : Option Token}
    (hl : Option.Rel L.Word l r) :
    L.Runs (fun a b => a.mapSpan L.onLeft = b.mapSpan L.onRight)
      (NoteM.ofPlace (template L.left.positionMode p l))
      (NoteM.ofPlace (template L.right.positionMode q r)) := by
  obtain ⟨s, s', hs, hs', he⟩ := L.span hp.1 hp.2
  simp only [template, hs, hs', L.value hp.1]
  cases hl with
  | none => exact ⟨.nil, .ok (by simp only [IncludePath.mapSpan, Leaf.mapSpan, he])⟩
  | some hw =>
    obtain ⟨t, t', ht, ht', het⟩ := L.span hw.1 hw.2
    have hc : L.onLeft (some (t.cover s)) = L.onRight (some (t'.cover s')) := L.cover? het he
    simp only [ht, ht', L.value hw.1]
    exact ⟨.nil, .ok (by
      simp only [IncludePath.mapSpan, PathExpression.mapSpan, Leaf.mapSpan, he, het, hc])⟩

theorem alike_close {p q : IncludeWords} (h : Alike L p q) {o o' c c' : Token}
    (hd : L.Delimits o c o' c') :
    L.Runs (fun i j => i.mapSpan L.onLeft = j.mapSpan L.onRight)
      (p.close L.left.positionMode o c) (q.close L.right.positionMode o' c') := by
  obtain ⟨phrase, path?, left?⟩ := p
  obtain ⟨phrase', path?', left?'⟩ := q
  obtain ⟨rfl, hp, hl⟩ := h
  refine .bind (.spanTo hd) ?_
  intro s s' hs
  cases hp with
  | none => exact .fail (L.missingTemplatePath "include" hs)
  | some hw =>
    exact .bind (alike_template hw hl) fun a b hab =>
      .pure (by simp only [Include.mapSpan, hab, hs])

end IncludeWords

-- ---------------------------------------------------------------------------
-- Directives
-- ---------------------------------------------------------------------------

namespace Directive

variable (L)

inductive Alike : Directive → Directive → Prop
  | keyword : Alike .keyword .keyword
  | importPath (form : ImportForm) : Alike (.importPath form) (.importPath form)
  | importNames {n m : Leaf} {p q : ImportNames} (hn : n.mapSpan L.onLeft = m.mapSpan L.onRight)
      (h : p.Alike L q) : Alike (.importNames n p) (.importNames m q)
  | importTarget {n m : Leaf} {p q : ImportTarget} (hn : n.mapSpan L.onLeft = m.mapSpan L.onRight)
      (h : p.Alike L q) : Alike (.importTarget n p) (.importTarget m q)
  | including {p q : IncludeWords} (h : p.Alike L q) : Alike (.including p) (.including q)

/-- Two directives that go on alike, or that end with the same item or none. -/
inductive Goes : Progress Directive (Option Item) → Progress Directive (Option Item) → Prop
  | reading {d e : Directive} (h : Alike L d e) : Goes (.reading d) (.reading e)
  | done {i j : Option Item} (h : i.map (·.mapSpan L.onLeft) = j.map (·.mapSpan L.onRight)) :
      Goes (.done i) (.done j)

variable {L}

theorem Alike.construct {d e : Directive} (h : Alike L d e) : e.construct = d.construct := by
  cases h <;> rfl

theorem alike_of_lookup {keyword : String} {d : Directive}
    (h : modeled.lookup keyword = some d) : Alike L d d := by
  rcases modeled_cases h with ⟨-, rfl⟩ | ⟨-, rfl⟩ | ⟨-, rfl⟩
  · exact .importPath .names
  · exact .importPath .target
  · exact .including ⟨rfl, .none, .none⟩

theorem alike_ofKeyword {t u : Token} (hw : L.Word t u) :
    L.Runs (Goes L) (ofKeyword L.left t) (ofKeyword L.right u) := by
  have hnone : L.Runs (Goes L) (pure (.done none)) (pure (.done none)) := .pure (.done rfl)
  have hskipped := Noted.skipped hw.1
  have hignored := Noted.ignored hw.1
  simp only [L.value hw.1] at hskipped hignored
  simp only [ofKeyword, L.value hw.1, ← L.reportUnmodeled]
  split
  · rename_i d hd
    exact .pure (.reading (alike_of_lookup hd))
  split
  · refine .bind (.note hskipped) fun _ _ _ => ?_
    split
    · refine .bind (.span hw) fun s s' hs => .bind (.note (.report ?_)) fun _ _ _ => hnone
      simpa [Diagnostic.mapSpan, Code.at] using hs
    · exact hnone
  · exact .bind (.note hignored) fun _ _ _ => hnone

theorem alike_word {d e : Directive} (h : Alike L d e) {t u : Token} (hw : L.Word t u) :
    L.Runs (Goes L) (d.word L.left t) (e.word L.right u) := by
  cases h with
  | keyword =>
    simp only [word, L.kind hw.1]
    split
    · exact alike_ofKeyword hw
    · exact .pure (.reading .keyword)
  | importPath form =>
    simp only [word, L.kind hw.1, L.value hw.1]
    split
    · refine .bind (.span hw) ?_
      intro s s' hs
      cases form with
      | names => exact .pure (.reading (.importNames (by simp only [Leaf.mapSpan, hs])
          ⟨rfl, .none, rfl⟩))
      | target => exact .pure (.reading (.importTarget (by simp only [Leaf.mapSpan, hs])
          ⟨rfl, rfl, rfl⟩))
    · exact .pure (.reading (.importPath form))
  | importNames hn h =>
    refine .bind (ImportNames.alike_feed h hw) fun p q hp => .pure ?_
    exact .reading (.importNames hn hp)
  | importTarget hn h =>
    refine .bind (ImportTarget.alike_feed h hw) fun p q hp => .pure ?_
    exact .reading (.importTarget hn hp)
  | including h => exact .pure (.reading (.including (IncludeWords.alike_feed h hw)))

theorem alike_close {d e : Directive} (h : Alike L d e) {o o' c c' : Token}
    (hd : L.Delimits o c o' c') :
    L.Runs (fun i j => i.map (·.mapSpan L.onLeft) = j.map (·.mapSpan L.onRight))
      (d.close L.left.positionMode o c) (e.close L.right.positionMode o' c') := by
  cases h with
  | keyword => exact .pure rfl
  | importPath form =>
    exact .bind (.spanTo hd) fun s s' hs => .fail (L.missingTemplatePath form.construct hs)
  | importNames hn h =>
    refine .bind (ImportNames.alike_close h hn hd) fun i j hij => .pure ?_
    exact congrArg (some ∘ Item.importing) hij
  | importTarget hn h =>
    refine .bind (ImportTarget.alike_close h hn hd) fun i j hij => .pure ?_
    exact congrArg (some ∘ Item.importing) hij
  | including h =>
    refine .bind (IncludeWords.alike_close h hd) fun i j hij => .pure ?_
    exact congrArg (some ∘ Item.including) hij

theorem role_eq {t u : Token} (h : L.token t u) : u.role = t.role := by
  simp only [Token.role, L.kind h]

theorem alike_feed {d e : Directive} (h : Alike L d e) {o o' t u : Token} (ho : L.token o o')
    (hk : o.kind = .blockStart) (ht : L.token t u) (hb : o.Before t) :
    L.Runs (Goes L) (d.feed L.left o t) (e.feed L.right o' u) := by
  simp only [feed, role_eq ht]
  cases hr : t.role with
  | closing =>
    have hc := Token.role_eq_closing.mp hr
    exact .bind (alike_close h ⟨ho, ht, hk, hc, hb⟩) fun i j hij => .pure (.done hij)
  | word => exact alike_word h ⟨ht, Token.isSignificant_of_role hr⟩
  | passedOver => exact .pure (.reading h)

end Directive

-- ---------------------------------------------------------------------------
-- Readings
-- ---------------------------------------------------------------------------

variable (L)

structure OpenDirective.Alike (p q : OpenDirective) : Prop where
  opening : L.token p.opening q.opening
  blockStart : p.opening.kind = .blockStart
  directive : p.directive.Alike L q.directive

/-- Two readings that correspond, the left one with `older` items in front. -/
structure Reading.Alike (older : List Item) (p q : Reading) : Prop where
  items : p.newestFirst.map (·.mapSpan L.onLeft) =
    q.newestFirst.map (·.mapSpan L.onRight) ++ older
  directive : Option.Rel (OpenDirective.Alike L) p.open? q.open?

variable {L} {older : List Item}

namespace Reading

theorem alike_outside {p q : Reading} (h : Alike L older p q) {t u : Token} (ht : L.token t u) :
    L.Runs (Alike L older) (p.outside L.left.positionMode t)
      (q.outside L.right.positionMode u) := by
  simp only [outside, L.kind ht]
  split
  · rename_i hk
    obtain ⟨c, d, hc, hd, hcd⟩ := L.comment ht hk
    rw [hc, hd]
    refine ⟨.nil, .ok ⟨?_, h.directive⟩⟩
    exact List.cons_eq_cons.mpr ⟨congrArg Item.comment hcd, h.items⟩
  · rename_i hk
    exact .pure ⟨h.items, .some ⟨ht, hk, .keyword⟩⟩
  · exact .pure h

theorem alike_inside {p q : Reading} (h : Alike L older p q) {o o' : OpenDirective}
    (ho : o.Alike L o') {t u : Token} (ht : L.token t u) (hb : o.opening.Before t) :
    L.Runs (Alike L older) (p.inside L.left o t) (q.inside L.right o' u) := by
  refine .bind (Directive.alike_feed ho.directive ho.opening ho.blockStart ht hb) ?_
  intro x y hxy
  cases hxy with
  | reading hd => exact .pure ⟨h.items, .some ⟨ho.opening, ho.blockStart, hd⟩⟩
  | @done i j hij =>
    refine .pure ⟨?_, .none⟩
    cases i with
    | none =>
      obtain rfl : j = none := by simpa using hij.symm
      exact h.items
    | some i =>
      obtain ⟨j, rfl, hj⟩ := Option.map_eq_some_iff.mp hij.symm
      exact List.cons_eq_cons.mpr ⟨hj.symm, h.items⟩

/-- A directive that is open was opened before the token. -/
def OpenedBefore (r : Reading) (t : Token) : Prop := ∀ o ∈ r.open?, o.opening.Before t

theorem alike_feed {p q : Reading} (h : Alike L older p q) {t u : Token} (ht : L.token t u)
    (hb : p.OpenedBefore t) : L.Runs (Alike L older) (p.feed L.left t) (q.feed L.right u) := by
  have hd := h.directive
  unfold feed
  generalize hp : p.open? = o at *
  generalize hq : q.open? = o' at *
  cases hd with
  | none => exact alike_outside h ht
  | some ho => exact alike_inside h ho ht (hb _ hp)

theorem alike_feedAll {p q : Reading} (h : Alike L older p q) {ts us : List Token}
    (ht : List.Forall₂ L.token ts us) (ho : ts.Pairwise Token.Before)
    (hb : ∀ t ∈ ts, p.OpenedBefore t) :
    L.Runs (Alike L older) (p.feedAll L.left ts) (q.feedAll L.right us) := by
  induction ht generalizing p q with
  | nil => exact .pure h
  | @cons t u ts us ht _ ih =>
    have hr := (alike_feed h ht (hb t (by simp))).of_gives (opening_feed p t)
    refine .bind hr fun p' q' ⟨h', hp⟩ => ih h' (List.pairwise_cons.mp ho).2 ?_
    intro v hv o' ho'
    rcases hp o' ho' with hn | ⟨o, hm, hn⟩
    · exact hn ▸ (List.pairwise_cons.mp ho).1 v hv
    · exact hn ▸ hb v (List.mem_cons_of_mem t hv) o hm

/-- Two readings end alike; the documents themselves have no span. -/
theorem alike_finish {p q : Reading} (h : Alike L older p q) {t? u? : Option Token}
    (ht : p.open?.isSome → ∃ t u, t? = some t ∧ u? = some u ∧ L.token t u) :
    L.Outcome
      (fun d e => d.items.map (·.mapSpan L.onLeft) =
        older.reverse ++ e.items.map (·.mapSpan L.onRight) ∧ d.span? = none ∧ e.span? = none)
      (p.finish L.left t?) (q.finish L.right u?) := by
  have hd := h.directive
  simp only [finish, machine]
  generalize p.open? = o at *
  generalize q.open? = o' at *
  cases hd with
  | none =>
    refine .ok ⟨?_, rfl, rfl⟩
    simp only [document, List.map_reverse, h.items, List.reverse_append]
  | some ho =>
    obtain ⟨t, u, rfl, rfl, htu⟩ := ht rfl
    simp only [ho.directive.construct]
    exact .error (L.unexpectedEnd _ htu)

end Reading

end TemplateTree
