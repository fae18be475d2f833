import Mathlib.Data.List.Forall2
import TemplateTree.Proofs.Reading.Drawn
import TemplateTree.Proofs.Token.Stretch

/-!
# Reading stretch by stretch

A reading keeps in step with the stretches of a text (`Reading.InStep`): it gives an item
for each comment between tags and for each block with the keyword of a directive that has
a node, and none for any other stretch (`Reading.readFrom_feedAll`). A directive is only
over at the delimiter of a block, so this takes that no block is closed with the delimiter
of a variable; such a directive would go on after its tag.
-/

namespace TemplateTree

-- ---------------------------------------------------------------------------
-- Items and stretches
-- ---------------------------------------------------------------------------

/-- The keywords of the directives that have a node. -/
def modeledKeywords : List String := ["from", "import", "include"]

/-- The tag is a block with the keyword of a directive that has a node. -/
def Tag.isModeled (tag : Tag) : Bool :=
  tag.opening.kind == .blockStart && tag.keyword?.any (· ∈ modeledKeywords)

def Stretch.hasItem : Stretch → Bool
  | .plain t => t.kind == .comment
  | .ofTag tag => tag.isModeled

/-- The item is what the stretch stands for, in its form and from end to end. -/
inductive Item.ReadFrom (mode : PositionMode) : Item → Stretch → Prop
  | comment {c : Comment} {t : Token} (hk : t.kind = .comment)
      (h : Comment.ofToken mode t = .ok c) : ReadFrom mode (.comment c) (.plain t)
  | names {template : Leaf} {withContext : Bool} {names : ImportedNames} {s : Span} {tag : Tag}
      {closing : Token} (hw : tag.keyword? = some "from") (hc : tag.closing? = some closing)
      (hd : s.Delimited mode tag.opening closing) :
      ReadFrom mode (.importing ⟨template, withContext, .names names, some s⟩) (.ofTag tag)
  | target {template name : Leaf} {withContext : Bool} {s : Span} {tag : Tag} {closing : Token}
      (hw : tag.keyword? = some "import") (hc : tag.closing? = some closing)
      (hd : s.Delimited mode tag.opening closing) :
      ReadFrom mode (.importing ⟨template, withContext, .target name, some s⟩) (.ofTag tag)
  | including {ignoreMissing : Bool} {template : IncludePath} {s : Span} {tag : Tag}
      {closing : Token} (hw : tag.keyword? = some "include") (hc : tag.closing? = some closing)
      (hd : s.Delimited mode tag.opening closing) :
      ReadFrom mode (.including ⟨ignoreMissing, template, some s⟩) (.ofTag tag)

variable {options : Options} {mode : PositionMode} {tag : Tag} {t : Token}

-- ---------------------------------------------------------------------------
-- Directives
-- ---------------------------------------------------------------------------

/-- A block that is left alone, since its keyword is that of no directive with a node, or a
tag that is no block. -/
def Tag.Settled (tag : Tag) : Prop :=
  tag.opening.kind = .blockStart → ∃ w, tag.keyword? = some w ∧ w ∉ modeledKeywords

theorem Tag.Settled.push (h : tag.Settled) (t : Token) : (tag.push t).Settled := by
  intro hk
  obtain ⟨w, hw, hn⟩ := h hk
  exact ⟨w, by rw [keyword?_push, hw, Option.some_or], hn⟩

theorem Tag.Settled.isModeled (h : tag.Settled) : tag.isModeled = false := by
  by_cases hk : tag.opening.kind = .blockStart
  · obtain ⟨w, hw, hn⟩ := h hk
    simp [Tag.isModeled, hw, hn]
  · simp [Tag.isModeled, hk]

namespace Directive

/-- The keyword that a directive was opened with, once it is known. -/
def keyword? : Directive → Option String
  | .keyword => none
  | .importPath .names | .importNames .. => some "from"
  | .importPath .target | .importTarget .. => some "import"
  | .including _ => some "include"

theorem keyword?_of_lookup {w : String} {d : Directive} (h : modeled.lookup w = some d) :
    d.keyword? = some w := by
  rcases modeled_cases h with ⟨rfl, rfl⟩ | ⟨rfl, rfl⟩ | ⟨rfl, rfl⟩ <;> rfl

theorem not_mem_of_lookup {w : String} (h : modeled.lookup w = none) : w ∉ modeledKeywords := by
  intro hm
  simp only [modeledKeywords, List.mem_cons, List.not_mem_nil, or_false] at hm
  rcases hm with rfl | rfl | rfl <;> cases h

/-- What becomes of a directive after a token of its tag that does not close it: it goes on
with the keyword of the tag, or it leaves the tag alone. -/
def Follows (tag : Tag) : Progress Directive (Option Item) → Prop
  | .reading d => d.keyword? = tag.keyword?
  | .done item? => item? = none ∧ tag.Settled

theorem follows_ofKeyword (hk : t.kind = .symbol) (hw : tag.keyword? = none) :
    (ofKeyword options t).Gives (fun _ => True) (Follows (tag.push t)) := by
  have hkeyword : (tag.push t).keyword? = some t.value := by
    rw [Tag.keyword?_push, hw, if_pos hk, Option.none_or]
  unfold ofKeyword
  split
  · rename_i d hd
    exact .pure ((keyword?_of_lookup hd).trans hkeyword.symm)
  · rename_i hd
    have hdone : Follows (tag.push t) (.done none) :=
      ⟨rfl, fun _ => ⟨t.value, hkeyword, not_mem_of_lookup hd⟩⟩
    split
    · refine .bind (.note trivial) fun _ _ => ?_
      split
      · exact .bind (.ofPlace _) fun _ _ => .bind (.note trivial) fun _ _ => .pure hdone
      · exact .pure hdone
    · exact .bind (.note trivial) fun _ _ => .pure hdone

theorem follows_word {d : Directive} (hw : d.keyword? = tag.keyword?) :
    (d.word options t).Gives (fun _ => True) (Follows (tag.push t)) := by
  -- once the keyword is known it stays so
  have hknown (h : d.keyword? ≠ none) : (tag.push t).keyword? = d.keyword? := by
    obtain ⟨w, hd⟩ := Option.ne_none_iff_exists'.mp h
    rw [Tag.keyword?_push, ← hw, hd, Option.some_or]
  cases d with
  | keyword =>
    simp only [word]
    split
    · exact follows_ofKeyword ‹_› hw.symm
    · refine .pure ?_
      simp only [Follows, Tag.keyword?_push, if_neg ‹_›, Option.or_none]
      exact hw
  | importPath form =>
    simp only [word]
    split
    · refine .bind (.ofPlace _) fun s _ => ?_
      cases form with
      | names => exact .pure (hknown (Option.some_ne_none _)).symm
      | target => exact .pure (hknown (Option.some_ne_none _)).symm
    · exact .pure (hknown (by cases form <;> exact Option.some_ne_none _)).symm
  | importNames template part =>
    exact .bind (.any _) fun part' _ => .pure (hknown (Option.some_ne_none _)).symm
  | importTarget template part =>
    exact .bind (.any _) fun part' _ => .pure (hknown (Option.some_ne_none _)).symm
  | including part => exact .pure (hknown (Option.some_ne_none _)).symm

theorem follows_feed {d : Directive} {opening : Token} (hw : d.keyword? = tag.keyword?)
    (hk : t.kind ≠ .blockEnd) :
    (d.feed options opening t).Gives (fun _ => True) (Follows (tag.push t)) := by
  unfold feed
  split
  · rename_i hr
    exact absurd (Token.role_eq_closing.mp hr) hk
  · exact follows_word hw
  · rename_i hr
    have hs : t.kind ≠ .symbol := by
      intro hs
      simp [Token.role, hs, TokenKind.isSignificant] at hr
    refine .pure ?_
    simp only [Follows, Tag.keyword?_push, if_neg hs, Option.or_none]
    exact hw

/-- A directive closed in its place gives the item of its tag. -/
theorem readFrom_close {d : Directive} {closing : Token} (hw : d.keyword? = tag.keyword?)
    (hb : tag.opening.kind = .blockStart) (hc : closing.kind = .blockEnd) :
    (d.close mode tag.opening closing).Gives (fun _ => True) fun item? =>
      List.Forall₂ (Item.ReadFrom mode) item?.toList
        ([Stretch.ofTag (tag.close closing)].filter Stretch.hasItem) := by
  have hmodeled : (Stretch.ofTag (tag.close closing)).hasItem =
      d.keyword?.any (· ∈ modeledKeywords) := by
    have hopening : (tag.close closing).opening.kind = .blockStart := hb
    simp only [Stretch.hasItem, Tag.isModeled, Tag.keyword?_close, hopening, hw]
    exact Bool.true_and _
  cases d with
  | keyword =>
    refine .pure ?_
    rw [List.filter_singleton, hmodeled]
    exact .nil
  | importPath form => exact .bind (.ofPlace _) fun s _ => .fail _
  | importNames template part =>
    rw [List.filter_singleton, hmodeled]
    refine .bind (Q := fun i => (Item.importing i).ReadFrom mode (.ofTag (tag.close closing)))
      ?_ fun i hi => .pure (.cons hi .nil)
    have hend : (ImportNames.close mode { part with awaiting? := none } template tag.opening
        closing).Gives (fun _ => True) fun i =>
          (Item.importing i).ReadFrom mode (.ofTag (tag.close closing)) :=
      .bind (.ofPlace _) fun s hs => .pure (.names hw.symm rfl ⟨hb, hc, hs⟩)
    obtain ⟨phrase, awaiting?, names⟩ := part
    cases awaiting? with
    | none => exact hend
    | some as => exact .bind (.ofPlace _) fun _ _ => .bind (.note trivial) fun _ _ => hend
  | importTarget template part =>
    rw [List.filter_singleton, hmodeled]
    refine .bind (Q := fun i => (Item.importing i).ReadFrom mode (.ofTag (tag.close closing)))
      ?_ fun i hi => .pure (.cons hi .nil)
    refine .bind (.ofPlace _) fun s hs => ?_
    split
    · exact .fail _
    · exact .pure (.target hw.symm rfl ⟨hb, hc, hs⟩)
  | including part =>
    rw [List.filter_singleton, hmodeled]
    refine .bind (Q := fun i => (Item.including i).ReadFrom mode (.ofTag (tag.close closing)))
      ?_ fun i hi => .pure (.cons hi .nil)
    refine .bind (.ofPlace _) fun s hs => ?_
    split
    · exact .fail _
    · exact .bind (.ofPlace _) fun template _ => .pure (.including hw.symm rfl ⟨hb, hc, hs⟩)

end Directive

-- ---------------------------------------------------------------------------
-- Readings
-- ---------------------------------------------------------------------------

/-- Where a reading stands when a tag of the text is open or none: between tags, in a tag
that is left alone, or in a directive with the keyword of the tag. -/
inductive OpenDirective.InStep : Option OpenDirective → Option Tag → Prop
  | between : InStep none none
  | passing {tag : Tag} (h : tag.Settled) : InStep none (some tag)
  | reading {o : OpenDirective} {tag : Tag} (ho : o.opening = tag.opening)
      (hb : tag.opening.kind = .blockStart) (hw : o.directive.keyword? = tag.keyword?) :
      InStep (some o) (some tag)

namespace Reading

open OpenDirective (InStep)

/-- Between two readings the items of these stretches are read, and none more. -/
def Adds (mode : PositionMode) (r r' : Reading) (stretches : List Stretch) : Prop :=
  ∃ items, r'.newestFirst = items.reverse ++ r.newestFirst ∧
    List.Forall₂ (Item.ReadFrom mode) items (stretches.filter Stretch.hasItem)

variable {r r' r'' : Reading} {ss ss' : List Stretch}

theorem Adds.none (h : r'.newestFirst = r.newestFirst) (hs : ss.filter Stretch.hasItem = []) :
    Adds mode r r' ss := ⟨[], h, hs ▸ .nil⟩

theorem Adds.append (h : Adds mode r r' ss) (h' : Adds mode r' r'' ss') :
    Adds mode r r'' (ss ++ ss') := by
  obtain ⟨items, hr, hi⟩ := h
  obtain ⟨items', hr', hi'⟩ := h'
  refine ⟨items ++ items', by rw [hr', hr, List.reverse_append, List.append_assoc], ?_⟩
  rw [List.filter_append]
  exact List.rel_append hi hi'

theorem outside_of_ne (hc : t.kind ≠ .comment) (hb : t.kind ≠ .blockStart) :
    r.outside mode t = pure r := by
  unfold outside
  split
  · exact absurd ‹_› hc
  · exact absurd ‹_› hb
  · rfl

/-- One token makes the second reading of the first one, while it completes this stretch
and leaves this tag open. -/
def Step (mode : PositionMode) (r : Reading) (next : Option Stretch × Option Tag) (r' : Reading) :
    Prop :=
  InStep r'.open? next.2 ∧ Adds mode r r' next.1.toList

theorem step_between (hr : r.open? = none) {inTag : Bool} (ht : t.kind.Leads false inTag) :
    (r.feed options t).Gives (fun _ => True)
      (Step options.positionMode r (Stretch.next none t)) := by
  simp only [feed, hr, outside]
  cases ht with
  | plain h =>
    rw [Stretch.next_plain h]
    have hbetween : InStep r.open? none := hr ▸ .between
    rcases TokenKind.isPlain_iff.mp h with hk | hk <;> rw [hk]
    · exact .pure ⟨hbetween, .none rfl (by simp [Stretch.hasItem, hk])⟩
    · refine .bind (.ofPlace _) fun c hc => .pure ⟨hbetween, [.comment c], rfl, ?_⟩
      simpa [Stretch.hasItem, hk] using Item.ReadFrom.comment hk hc
  | opening h =>
    rw [Stretch.next_opening h]
    rcases TokenKind.opensTag_iff.mp h with hk | hk <;> rw [hk]
    · exact .pure ⟨.reading rfl hk rfl, .none rfl rfl⟩
    · refine .pure ⟨hr ▸ .passing fun hb => ?_, .none rfl rfl⟩
      rw [hk] at hb
      cases hb

theorem step_passing (hr : r.open? = none) (hs : tag.Settled) {inTag : Bool}
    (ht : t.kind.Leads true inTag) :
    (r.feed options t).Gives (fun _ => True)
      (Step options.positionMode r (Stretch.next (some tag) t)) := by
  -- inside a tag no comment and no block can start
  have hkind : t.kind ≠ .comment ∧ t.kind ≠ .blockStart := by
    constructor <;> intro hk <;> rw [hk] at ht <;> cases ht <;> contradiction
  rw [feed, hr, outside_of_ne hkind.1 hkind.2]
  cases ht with
  | inner h =>
    rw [Stretch.next_inner h]
    exact .pure ⟨hr ▸ .passing (hs.push t), .none rfl rfl⟩
  | closing h =>
    rw [Stretch.next_closing h]
    have hclose : (tag.close t).Settled := hs
    exact .pure ⟨hr ▸ .between, .none rfl (by simp [Stretch.hasItem, hclose.isModeled])⟩

theorem step_reading {o : OpenDirective} (hr : r.open? = some o) (ho : o.opening = tag.opening)
    (hb : tag.opening.kind = .blockStart) (hw : o.directive.keyword? = tag.keyword?)
    {inTag : Bool} (ht : t.kind.Leads true inTag) (hm : t.kind ≠ .variableEnd) :
    (r.feed options t).Gives (fun _ => True)
      (Step options.positionMode r (Stretch.next (some tag) t)) := by
  simp only [feed, hr, inside, ho]
  cases ht with
  | inner h =>
    rw [Stretch.next_inner h]
    have hk : t.kind ≠ .blockEnd := by
      intro hk
      rw [hk] at h
      cases h
    refine .bind (Directive.follows_feed hw hk) fun x hx => ?_
    cases x with
    | reading d => exact .pure ⟨.reading rfl hb hx, .none rfl rfl⟩
    | done item? =>
      obtain ⟨rfl, hsettled⟩ := hx
      exact .pure ⟨.passing hsettled, .none rfl rfl⟩
  | closing h =>
    rw [Stretch.next_closing h]
    have hk : t.kind = .blockEnd := (TokenKind.closesTag_iff.mp h).resolve_right hm
    simp only [Directive.feed, Token.role_eq_closing.mpr hk, bind_assoc, pure_bind]
    refine .bind (Directive.readFrom_close hw hb hk) fun item? hitem => ?_
    refine .pure ⟨.between, item?.toList, ?_, hitem⟩
    cases item? <;> rfl

/-- A token that can stand where it does keeps a reading in step, unless it closes a block
with the delimiter of a variable. -/
theorem step_feed {open? : Option Tag} (hr : InStep r.open? open?) {inTag : Bool}
    (ht : t.kind.Leads open?.isSome inTag)
    (hm : ∀ s ∈ (Stretch.next open? t).1, ¬s.Mismatched) :
    (r.feed options t).Gives (fun _ => True)
      (Step options.positionMode r (Stretch.next open? t)) := by
  cases ho : r.open? with
  | none =>
    rw [ho] at hr
    cases hr with
    | between => exact step_between ho ht
    | passing hs => exact step_passing ho hs ht
  | some o =>
    rw [ho] at hr
    cases hr with
    | @reading _ tag hopening hb hw =>
      refine step_reading ho hopening hb hw ht fun hk => ?_
      have hclose : t.kind.closesTag := by simp [hk, TokenKind.closesTag]
      rw [Stretch.next_closing hclose] at hm
      exact hm _ rfl ⟨hb, t, rfl, hk⟩

/-- Over tokens that a text can have, in which no block is closed with the delimiter of a
variable, a reading that comes to an end adds the items of the stretches. -/
theorem readFrom_feedAll {open? : Option Tag} {ts : List Token} (hr : InStep r.open? open?)
    (ht : Tagged open?.isSome ts)
    (hm : ∀ s ∈ Stretch.ofTokens open? ts, ¬s.Mismatched) :
    (r.feedAll options ts).Gives (fun _ => True) fun r' =>
      r'.open? = none → Adds options.positionMode r r' (Stretch.ofTokens open? ts) := by
  -- by the tokens; at their end a tag may be open still, but no directive
  induction ts generalizing r open? with
  | nil =>
    refine .pure fun hend => ?_
    rw [hend] at hr
    cases hr with
    | between => exact .none rfl rfl
    | passing hs =>
      exact .none rfl (by simp [Stretch.ofTokens, Stretch.hasItem, hs.isModeled])
  | cons t ts ih =>
    cases ht with
    | cons hk hts =>
      rw [feedAll_cons, Stretch.ofTokens]
      rw [Stretch.ofTokens] at hm
      refine .bind (step_feed hr hk fun s h => hm s ?_) fun r' hstep => ?_
      · exact List.mem_append_left _ (Option.mem_toList.mpr h)
      · obtain ⟨hr', hadds⟩ := hstep
        have hrest := ih hr' (Stretch.isSome_next hk ▸ hts) fun s h =>
          hm s (List.mem_append_right _ h)
        refine hrest.mono (fun _ => id) fun r'' h hend => ?_
        exact hadds.append (h hend)

end Reading

end TemplateTree
