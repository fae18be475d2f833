import TemplateTree.Proofs.Reading.FeedAll
import TemplateTree.Proofs.Token.Placed
import TemplateTree.Tree.Node

/-!
# What a tree is drawn from

Every leaf of a tree is read from one token, every directive spans from the
token that opens it to the one that closes it, and the tokens stand in the order
of the tree. `DrawnFrom` says this of an item, and of a reading with the tokens
it has been fed so far; one token more preserves it (`Reading.drawn_feed`). On
the way only tokens that were read are reported (`Note.From`).
-/

namespace TemplateTree

open scoped List

-- ---------------------------------------------------------------------------
-- Evidence
-- ---------------------------------------------------------------------------

/-- The leaf has its value and its span from the token. -/
structure Leaf.Reads (mode : PositionMode) (kind : TokenKind) (l : Leaf) (t : Token) : Prop where
  kind : t.kind = kind
  value : l.value = t.value
  span : ∃ s, t.span mode = .ok s ∧ l.span? = some s

/-- The span of a directive between its delimiters. -/
structure Span.Delimited (mode : PositionMode) (s : Span) (opening closing : Token) : Prop where
  blockStart : opening.kind = .blockStart
  blockEnd : closing.kind = .blockEnd
  span : opening.spanTo closing mode = .ok s

/-- A list, newest first, with each entry drawn from tokens of its own, in order. -/
def DrawnAll {α : Type} (R : α → List Token → Prop) : List α → List Token → Prop
  | [], _ => True
  | x :: xs, ts => ∃ us vs, us ++ vs = ts ∧ DrawnAll R xs us ∧ R x vs

inductive ImportedName.DrawnFrom (mode : PositionMode) : ImportedName → List Token → Prop
  | plain {name : Leaf} {t : Token} {ts : List Token} (h : name.Reads mode .symbol t)
      (hs : t ∈ ts) : DrawnFrom mode (.plain name) ts
  | aliased {key value : Leaf} {k v : Token} {ts : List Token} (hk : key.Reads mode .symbol k)
      (hv : value.Reads mode .symbol v) (hs : [k, v] <+ ts) :
      DrawnFrom mode (.aliased ⟨key, value, Span.cover? key.span? value.span?⟩) ts

/-- `item.DrawnFrom mode ts`: the item is read from tokens that end with the
one that completes it. -/
inductive Item.DrawnFrom (mode : PositionMode) : Item → List Token → Prop
  | comment {c : Comment} {t : Token} {ts : List Token} (hk : t.kind = .comment)
      (h : Comment.ofToken mode t = .ok c) : DrawnFrom mode (.comment c) (ts ++ [t])
  | names {template : Leaf} {withContext : Bool} {list : NameList} {s : Span}
      {opening path closing : Token} {ts us : List Token} (hd : s.Delimited mode opening closing)
      (hp : template.Reads mode .string path) (ho : [opening, path] <+ ts)
      (hn : DrawnAll (ImportedName.DrawnFrom mode) list.newestFirst us) :
      DrawnFrom mode (.importing ⟨template, withContext, .names list.build, some s⟩)
        (ts ++ us ++ [closing])
  | target {template name : Leaf} {withContext : Bool} {s : Span}
      {opening path t closing : Token} {ts us : List Token} (hd : s.Delimited mode opening closing)
      (hp : template.Reads mode .string path) (ho : [opening, path] <+ ts)
      (hn : name.Reads mode .symbol t) (hs : t ∈ us) :
      DrawnFrom mode (.importing ⟨template, withContext, .target name, some s⟩)
        (ts ++ us ++ [closing])
  | value {ignoreMissing : Bool} {right : Leaf} {s : Span} {opening path closing : Token}
      {ts : List Token} (hd : s.Delimited mode opening closing)
      (hp : right.Reads mode .string path) (ho : [opening, path] <+ ts) :
      DrawnFrom mode (.including ⟨ignoreMissing, .value right, some s⟩) (ts ++ [closing])
  | expression {ignoreMissing : Bool} {left right : Leaf} {l r s : Span}
      {opening word path closing : Token} {ts : List Token} (hd : s.Delimited mode opening closing)
      (hl : left.Reads mode .symbol word) (hp : right.Reads mode .string path)
      (hsl : left.span? = some l) (hsr : right.span? = some r)
      (hol : [opening, word] <+ ts) (hop : [opening, path] <+ ts) :
      DrawnFrom mode
        (.including ⟨ignoreMissing, .expression ⟨left, right, some (l.cover r)⟩, some s⟩)
        (ts ++ [closing])

/-- A diagnostic that is reported has the span of one of the tokens. -/
def Note.From (mode : PositionMode) (ts : List Token) : Note → Prop
  | .report d => ∃ t ∈ ts, ∃ s, t.span mode = .ok s ∧ d.span? = some s
  | .log _ => True

/-- The names so far and an `as` that waits for one are drawn from the tokens. -/
def ImportNames.DrawnFrom (mode : PositionMode) (p : ImportNames) (ts : List Token) : Prop :=
  DrawnAll (ImportedName.DrawnFrom mode) p.names.newestFirst ts ∧ ∀ t ∈ p.awaiting?, t ∈ ts

def ImportTarget.DrawnFrom (mode : PositionMode) (p : ImportTarget) (ts : List Token) : Prop :=
  ∀ name ∈ p.target?, ∃ t ∈ ts, name.Reads mode .symbol t

def IncludeWords.DrawnFrom (opening : Token) (p : IncludeWords) (ts : List Token) : Prop :=
  (∀ t ∈ p.path?, t.kind = .string ∧ [opening, t] <+ ts) ∧
    ∀ t ∈ p.left?, t.kind = .symbol ∧ [opening, t] <+ ts

inductive Directive.DrawnFrom (mode : PositionMode) (opening : Token) :
    Directive → List Token → Prop
  | keyword {ts : List Token} (ho : opening ∈ ts) : DrawnFrom mode opening .keyword ts
  | importPath {form : ImportForm} {ts : List Token} (ho : opening ∈ ts) :
      DrawnFrom mode opening (.importPath form) ts
  | importNames {template : Leaf} {part : ImportNames} {path : Token} {ts us : List Token}
      (hp : template.Reads mode .string path) (ho : [opening, path] <+ ts)
      (h : part.DrawnFrom mode us) : DrawnFrom mode opening (.importNames template part) (ts ++ us)
  | importTarget {template : Leaf} {part : ImportTarget} {path : Token} {ts us : List Token}
      (hp : template.Reads mode .string path) (ho : [opening, path] <+ ts)
      (h : part.DrawnFrom mode us) : DrawnFrom mode opening (.importTarget template part) (ts ++ us)
  | including {part : IncludeWords} {ts : List Token} (ho : opening ∈ ts)
      (h : part.DrawnFrom opening ts) : DrawnFrom mode opening (.including part) ts

/-- The items of a reading are drawn from the first tokens, and a directive
that is open from those after them. -/
def Reading.DrawnFrom (mode : PositionMode) (r : Reading) (seen : List Token) : Prop :=
  ∃ ts us, ts ++ us = seen ∧ DrawnAll (Item.DrawnFrom mode) r.newestFirst ts ∧
    ∀ o ∈ r.open?, o.opening.kind = .blockStart ∧ o.directive.DrawnFrom mode o.opening us

variable {mode : PositionMode} {opening t : Token} {ts us : List Token}

/-- An item is a comment or a directive, drawn from a last token that completes it. -/
theorem Item.DrawnFrom.comment_or_delimited {item : Item} (h : item.DrawnFrom mode ts) :
    (∃ us t c, us ++ [t] = ts ∧ t.kind = .comment ∧ Comment.ofToken mode t = .ok c ∧
        item = .comment c) ∨
      ∃ us opening closing s, us ++ [closing] = ts ∧ opening ∈ us ∧
        s.Delimited mode opening closing ∧ item.toNode.span? = some s := by
  cases h with
  | comment hk h => exact .inl ⟨_, _, _, rfl, hk, h, rfl⟩
  | names hd hp ho hn =>
    exact .inr ⟨_, _, _, _, rfl, List.mem_append_left _ (ho.subset (by simp)), hd, rfl⟩
  | target hd hp ho hn hs =>
    exact .inr ⟨_, _, _, _, rfl, List.mem_append_left _ (ho.subset (by simp)), hd, rfl⟩
  | value hd hp ho => exact .inr ⟨_, _, _, _, rfl, ho.subset (by simp), hd, rfl⟩
  | expression hd hl hp hsl hsr hol hop =>
    exact .inr ⟨_, _, _, _, rfl, hol.subset (by simp), hd, rfl⟩

-- ---------------------------------------------------------------------------
-- More tokens
-- ---------------------------------------------------------------------------

theorem ImportedName.DrawnFrom.append {name : ImportedName} (h : name.DrawnFrom mode ts)
    (us : List Token) : name.DrawnFrom mode (ts ++ us) := by
  cases h with
  | plain h hs => exact .plain h (List.mem_append_left us hs)
  | aliased hk hv hs => exact .aliased hk hv (hs.trans (List.sublist_append_left ts us))

theorem DrawnAll.append {names : List ImportedName}
    (h : DrawnAll (ImportedName.DrawnFrom mode) names ts) (us : List Token) :
    DrawnAll (ImportedName.DrawnFrom mode) names (ts ++ us) := by
  cases names with
  | nil => trivial
  | cons name names =>
    obtain ⟨vs, ws, rfl, hn, hw⟩ := h
    exact ⟨vs, ws ++ us, by simp, hn, hw.append us⟩

theorem DrawnAll.exists_of_mem {α : Type} {R : α → List Token → Prop} {xs : List α} {x : α}
    (h : DrawnAll R xs ts) (hx : x ∈ xs) : ∃ us, us <+ ts ∧ R x us := by
  induction xs generalizing ts with
  | nil => cases hx
  | cons y xs ih =>
    obtain ⟨us, vs, rfl, hy, hr⟩ := h
    rcases List.mem_cons.mp hx with rfl | hx
    · exact ⟨vs, List.sublist_append_right us vs, hr⟩
    · obtain ⟨ws, hs, hr⟩ := ih hy hx
      exact ⟨ws, hs.trans (List.sublist_append_left us vs), hr⟩

/-- What holds of any two entries that are drawn one after the other holds of all pairs. -/
theorem DrawnAll.pairwise {α : Type} {R : α → List Token → Prop} {S : α → α → Prop}
    {xs : List α} (h : DrawnAll R xs ts)
    (hS : ∀ x y us vs, us ++ vs <+ ts → R y us → R x vs → S x y) : xs.Pairwise S := by
  induction xs generalizing ts with
  | nil => exact .nil
  | cons x xs ih =>
    obtain ⟨us, vs, rfl, hxs, hx⟩ := h
    refine .cons ?_ (ih hxs fun x y us' vs' hs => hS x y us' vs' ?_)
    · intro y hy
      obtain ⟨ws, hws, hy⟩ := hxs.exists_of_mem hy
      exact hS x y ws vs (hws.append_right vs) hy hx
    · exact hs.trans (List.sublist_append_left us vs)

theorem Note.From.append_right {n : Note} (h : n.From mode ts) (us : List Token) :
    n.From mode (ts ++ us) := by
  cases n with
  | report d =>
    obtain ⟨t, ht, hs⟩ := h
    exact ⟨t, List.mem_append_left us ht, hs⟩
  | log e => trivial

theorem Note.From.append_left {n : Note} (h : n.From mode us) (ts : List Token) :
    n.From mode (ts ++ us) := by
  cases n with
  | report d =>
    obtain ⟨t, ht, hs⟩ := h
    exact ⟨t, List.mem_append_right ts ht, hs⟩
  | log e => trivial

theorem ImportNames.DrawnFrom.append {p : ImportNames} (h : p.DrawnFrom mode ts)
    (us : List Token) : p.DrawnFrom mode (ts ++ us) :=
  ⟨DrawnAll.append h.1 us, fun t ht => List.mem_append_left us (h.2 t ht)⟩

theorem ImportTarget.DrawnFrom.append {p : ImportTarget} (h : p.DrawnFrom mode ts)
    (us : List Token) : p.DrawnFrom mode (ts ++ us) := by
  intro name hn
  obtain ⟨t, ht, hr⟩ := h name hn
  exact ⟨t, List.mem_append_left us ht, hr⟩

theorem IncludeWords.DrawnFrom.append {p : IncludeWords} (h : p.DrawnFrom opening ts)
    (us : List Token) : p.DrawnFrom opening (ts ++ us) := by
  have hs := List.sublist_append_left ts us
  exact ⟨fun t ht => ⟨(h.1 t ht).1, (h.1 t ht).2.trans hs⟩,
    fun t ht => ⟨(h.2 t ht).1, (h.2 t ht).2.trans hs⟩⟩

/-- A token passed over leaves a directive drawn as it is. -/
theorem Directive.DrawnFrom.append {d : Directive} (h : d.DrawnFrom mode opening ts)
    (us : List Token) : d.DrawnFrom mode opening (ts ++ us) := by
  cases h with
  | keyword ho => exact .keyword (List.mem_append_left us ho)
  | importPath ho => exact .importPath (List.mem_append_left us ho)
  | importNames hp ho h =>
    rw [List.append_assoc]
    exact .importNames hp ho (h.append us)
  | importTarget hp ho h =>
    rw [List.append_assoc]
    exact .importTarget hp ho (h.append us)
  | including ho h => exact .including (List.mem_append_left us ho) (h.append us)

-- ---------------------------------------------------------------------------
-- Import directives
-- ---------------------------------------------------------------------------

theorem Leaf.reads {kind : TokenKind} {s : Span} (hk : t.kind = kind)
    (hs : t.span mode = .ok s) : Leaf.Reads mode kind ⟨t.value, some s⟩ t :=
  ⟨hk, rfl, s, hs, rfl⟩

theorem Leaf.Reads.from {kind : TokenKind} {l : Leaf} {code : Code} (h : l.Reads mode kind t)
    (ht : t ∈ ts) : (Note.report (code.at l.span?)).From mode ts := by
  obtain ⟨s, hs, hl⟩ := h.span
  exact ⟨t, ht, s, hs, hl⟩

theorem pair_sublist {k : Token} (h : k ∈ ts) (t : Token) : [k, t] <+ ts ++ [t] :=
  (List.singleton_sublist.mpr h).append (List.Sublist.refl [t])

namespace ImportNames

theorem drawn_name {p : ImportNames} (h : p.DrawnFrom mode us) {n : Leaf}
    (hr : n.Reads mode .symbol t) :
    (p.name n).Gives (Note.From mode (us ++ [t])) fun p => p.DrawnFrom mode (us ++ [t]) := by
  obtain ⟨phrase, awaiting?, ⟨names⟩⟩ := p
  cases awaiting? with
  | none => exact .pure ⟨⟨us, [t], rfl, h.1, .plain hr (by simp)⟩, by rintro t ⟨⟩⟩
  | some as =>
    cases names with
    | nil => exact .bind (.note (hr.from (by simp))) fun _ _ => .pure ⟨trivial, by rintro t ⟨⟩⟩
    | cons last earlier =>
      obtain ⟨vs, ws, rfl, he, hl⟩ := h.1
      refine .pure ⟨⟨vs, ws ++ [t], by simp, he, ?_⟩, by rintro t ⟨⟩⟩
      cases hl with
      | plain hk hs => exact .aliased hk hr (pair_sublist hs t)
      | aliased hk _ hs => exact .aliased hk hr (pair_sublist (hs.subset (by simp)) t)

theorem drawn_feed {p : ImportNames} (h : p.DrawnFrom mode us) (t : Token) :
    (p.feed mode t).Gives (Note.From mode (us ++ [t])) fun p => p.DrawnFrom mode (us ++ [t]) := by
  have hp : DrawnFrom mode { p with withContext := p.withContext.feed t } us := h
  simp only [feed]
  split
  · exact .pure (hp.append [t])
  rename_i hn
  have hk : t.kind = .symbol := by
    simp at hn
    exact hn.1.2
  split
  · exact .pure ⟨DrawnAll.append h.1 [t], by rintro u ⟨⟩; simp⟩
  · exact .bind (.ofPlace _) fun s hs => drawn_name hp (Leaf.reads hk hs)

theorem drawn_close {p : ImportNames} (h : p.DrawnFrom mode us) {template : Leaf}
    {path closing : Token} (hp : template.Reads mode .string path) (ho : [opening, path] <+ ts)
    (hb : opening.kind = .blockStart) (hc : closing.kind = .blockEnd) :
    (p.close mode template opening closing).Gives (Note.From mode (ts ++ us ++ [closing]))
      fun i => (Item.importing i).DrawnFrom mode (ts ++ us ++ [closing]) := by
  obtain ⟨phrase, awaiting?, names⟩ := p
  have hend : (close mode ⟨phrase, none, names⟩ template opening closing).Gives
      (Note.From mode (ts ++ us ++ [closing]))
      fun i => (Item.importing i).DrawnFrom mode (ts ++ us ++ [closing]) :=
    .bind (.ofPlace _) fun s hs => .pure (.names ⟨hb, hc, hs⟩ hp ho h.1)
  cases awaiting? with
  | none => exact hend
  | some as =>
    have ha : as ∈ us := h.2 as rfl
    exact .bind (.ofPlace _) fun s hs =>
      .bind (.note ⟨as, by simp [ha], s, hs, rfl⟩) fun _ _ => hend

end ImportNames

namespace ImportTarget

theorem drawn_feed {p : ImportTarget} (h : p.DrawnFrom mode us) (t : Token) :
    (p.feed mode t).Gives (Note.From mode (us ++ [t])) fun p => p.DrawnFrom mode (us ++ [t]) := by
  have hp : DrawnFrom mode { p with withContext := p.withContext.feed t } (us ++ [t]) :=
    h.append [t]
  simp only [feed]
  split
  · exact .pure hp
  rename_i hn
  have hk : t.kind = .symbol := by
    simp at hn
    exact hn.2
  split
  · exact .pure hp
  split
  · refine .bind (.ofPlace _) fun s hs => .pure ?_
    rintro name ⟨⟩
    exact ⟨t, by simp, Leaf.reads hk hs⟩
  · exact .pure hp

theorem drawn_close {p : ImportTarget} (h : p.DrawnFrom mode us) {template : Leaf}
    {path closing : Token} (hp : template.Reads mode .string path) (ho : [opening, path] <+ ts)
    (hb : opening.kind = .blockStart) (hc : closing.kind = .blockEnd) :
    (p.close mode template opening closing).Gives (Note.From mode (ts ++ us ++ [closing]))
      fun i => (Item.importing i).DrawnFrom mode (ts ++ us ++ [closing]) := by
  refine .bind (.ofPlace _) ?_
  intro s hs
  split
  · exact .fail _
  · rename_i name hn
    obtain ⟨t, ht, hr⟩ := h name hn
    exact .pure (.target ⟨hb, hc, hs⟩ hp ho hr ht)

end ImportTarget

-- ---------------------------------------------------------------------------
-- Include directives
-- ---------------------------------------------------------------------------

namespace IncludeWords

theorem drawn_feed {p : IncludeWords} (h : p.DrawnFrom opening ts) (ho : opening ∈ ts)
    (hw : t.kind.isSignificant) : (p.feed t).DrawnFrom opening (ts ++ [t]) := by
  have hp := h.append [t]
  simp only [feed]
  split
  · exact hp
  split
  · rename_i hk
    exact ⟨by rintro u ⟨⟩; exact ⟨hk, pair_sublist ho t⟩, hp.2⟩
  · rename_i hk
    have hk : t.kind = .symbol := by simpa [TokenKind.isSignificant, hk] using hw
    exact ⟨hp.1, by rintro u ⟨⟩; exact ⟨hk, pair_sublist ho t⟩⟩

theorem template_eq_ok {path : Token} {left? : Option Token} {template : IncludePath}
    (h : IncludeWords.template mode path left? = .ok template) :
    ∃ r, path.span mode = .ok r ∧
      (left? = none ∧ template = .value ⟨path.value, some r⟩ ∨
        ∃ word l, left? = some word ∧ word.span mode = .ok l ∧ template =
          .expression ⟨⟨word.value, some l⟩, ⟨path.value, some r⟩, some (l.cover r)⟩) := by
  unfold IncludeWords.template at h
  cases hr : path.span mode with
  | error e => rw [hr] at h; cases h
  | ok r =>
    rw [hr] at h
    refine ⟨r, rfl, ?_⟩
    cases left? with
    | none => cases h; exact .inl ⟨rfl, rfl⟩
    | some word =>
      cases hl : word.span mode with
      | error e => simp only [hl] at h; cases h
      | ok l => simp only [hl] at h; cases h; exact .inr ⟨word, l, rfl, hl, rfl⟩

theorem drawn_close {p : IncludeWords} (h : p.DrawnFrom opening ts) {closing : Token}
    (hb : opening.kind = .blockStart) (hc : closing.kind = .blockEnd) :
    (p.close mode opening closing).Gives (Note.From mode (ts ++ [closing]))
      fun i => (Item.including i).DrawnFrom mode (ts ++ [closing]) := by
  refine .bind (.ofPlace _) ?_
  intro s hs
  split
  · exact .fail _
  · rename_i path hp
    obtain ⟨hk, hpath⟩ := h.1 path hp
    refine .bind (.ofPlace _) fun template ht => .pure ?_
    obtain ⟨r, hr, ⟨-, rfl⟩ | ⟨word, l, hw, hl, rfl⟩⟩ := template_eq_ok ht
    · exact .value ⟨hb, hc, hs⟩ (Leaf.reads hk hr) hpath
    · obtain ⟨hkw, hword⟩ := h.2 word hw
      exact .expression ⟨hb, hc, hs⟩ (Leaf.reads hkw hl) (Leaf.reads hk hr) rfl rfl hword hpath

end IncludeWords

-- ---------------------------------------------------------------------------
-- Directives
-- ---------------------------------------------------------------------------

namespace Directive

/-- A directive that goes on is drawn from the tokens, and so is the item of one
that ends. -/
def Leaves (mode : PositionMode) (opening : Token) (ts : List Token) :
    Progress Directive (Option Item) → Prop
  | .reading d => d.DrawnFrom mode opening ts
  | .done item? => ∀ item ∈ item?, item.DrawnFrom mode ts

theorem drawn_ofKeyword {options : Options} (ho : opening ∈ ts) (t : Token) :
    (ofKeyword options t).Gives (Note.From options.positionMode (ts ++ [t]))
      (Leaves options.positionMode opening (ts ++ [t])) := by
  have hnone : Leaves options.positionMode opening (ts ++ [t]) (.done none) := by rintro _ ⟨⟩
  have ho : opening ∈ ts ++ [t] := List.mem_append_left [t] ho
  unfold ofKeyword
  split
  · rename_i d hd
    refine .pure ?_
    rcases modeled_cases hd with ⟨-, rfl⟩ | ⟨-, rfl⟩ | ⟨-, rfl⟩
    · exact .importPath ho
    · exact .importPath ho
    · exact .including ho ⟨by rintro _ ⟨⟩, by rintro _ ⟨⟩⟩
  split
  · refine .bind (.note trivial) fun _ _ => ?_
    split
    · exact .bind (.ofPlace _) fun s hs =>
        .bind (.note ⟨t, by simp, s, hs, rfl⟩) fun _ _ => .pure hnone
    · exact .pure hnone
  · exact .bind (.note trivial) fun _ _ => .pure hnone

theorem drawn_word {options : Options} {d : Directive}
    (h : d.DrawnFrom options.positionMode opening ts) (hw : t.kind.isSignificant) :
    (d.word options t).Gives (Note.From options.positionMode (ts ++ [t]))
      (Leaves options.positionMode opening (ts ++ [t])) := by
  have hsame := h.append [t]
  cases h with
  | keyword ho =>
    simp only [word]
    split
    · exact drawn_ofKeyword ho t
    · exact .pure hsame
  | @importPath form _ ho =>
    simp only [word]
    split
    · rename_i hk
      refine .bind (.ofPlace _) ?_
      intro s hs
      have hnew := List.append_nil (ts ++ [t])
      cases form with
      | names =>
        refine .pure (hnew ▸ ?_)
        exact .importNames (Leaf.reads hk hs) (pair_sublist ho t) ⟨trivial, by rintro _ ⟨⟩⟩
      | target =>
        refine .pure (hnew ▸ ?_)
        exact .importTarget (Leaf.reads hk hs) (pair_sublist ho t) (by rintro _ ⟨⟩)
    · exact .pure hsame
  | importNames hp ho h =>
    refine .bind ((ImportNames.drawn_feed h t).mono ?_ fun _ => id) fun part hpart => .pure ?_
    · rw [List.append_assoc]
      exact fun n hn => hn.append_left _
    · rw [List.append_assoc]
      exact .importNames hp ho hpart
  | importTarget hp ho h =>
    refine .bind ((ImportTarget.drawn_feed h t).mono ?_ fun _ => id) fun part hpart => .pure ?_
    · rw [List.append_assoc]
      exact fun n hn => hn.append_left _
    · rw [List.append_assoc]
      exact .importTarget hp ho hpart
  | including ho h =>
    exact .pure (.including (List.mem_append_left [t] ho) (IncludeWords.drawn_feed h ho hw))

theorem drawn_close {d : Directive} (h : d.DrawnFrom mode opening ts) {closing : Token}
    (hb : opening.kind = .blockStart) (hc : closing.kind = .blockEnd) :
    (d.close mode opening closing).Gives (Note.From mode (ts ++ [closing]))
      fun item? => ∀ item ∈ item?, item.DrawnFrom mode (ts ++ [closing]) := by
  cases h with
  | keyword ho => exact .pure (by rintro _ ⟨⟩)
  | importPath ho => exact .bind (.ofPlace _) fun s hs => .fail _
  | importNames hp ho h =>
    exact .bind (ImportNames.drawn_close h hp ho hb hc) fun i hi => .pure (by rintro _ ⟨⟩; exact hi)
  | importTarget hp ho h =>
    exact .bind (ImportTarget.drawn_close h hp ho hb hc) fun i hi =>
      .pure (by rintro _ ⟨⟩; exact hi)
  | including ho h =>
    exact .bind (IncludeWords.drawn_close h hb hc) fun i hi => .pure (by rintro _ ⟨⟩; exact hi)

theorem drawn_feed {options : Options} {d : Directive}
    (h : d.DrawnFrom options.positionMode opening ts) (hb : opening.kind = .blockStart)
    (t : Token) :
    (d.feed options opening t).Gives (Note.From options.positionMode (ts ++ [t]))
      (Leaves options.positionMode opening (ts ++ [t])) := by
  simp only [feed]
  cases hr : t.role with
  | closing => exact .bind (drawn_close h hb (Token.role_eq_closing.mp hr)) fun i hi => .pure hi
  | word => exact drawn_word h (Token.isSignificant_of_role hr)
  | passedOver => exact .pure (h.append [t])

end Directive

-- ---------------------------------------------------------------------------
-- Readings
-- ---------------------------------------------------------------------------

namespace Reading

variable {options : Options} {seen : List Token}

theorem drawn_start : ({} : Reading).DrawnFrom mode [] :=
  ⟨[], [], rfl, trivial, by rintro _ ⟨⟩⟩

theorem drawn_feed {r : Reading} (h : r.DrawnFrom options.positionMode seen) (t : Token) :
    (r.feed options t).Gives (Note.From options.positionMode (seen ++ [t]))
      fun r' => r'.DrawnFrom options.positionMode (seen ++ [t]) := by
  obtain ⟨ts, us, rfl, hi, hd⟩ := h
  obtain ⟨items, open?⟩ := r
  cases open? with
  | none =>
    simp only [feed, outside]
    split
    · rename_i hk
      refine .bind (.ofPlace _) fun c hc => .pure ?_
      exact ⟨ts ++ us ++ [t], [], by simp, ⟨ts, us ++ [t], by simp, hi, .comment hk hc⟩,
        by rintro _ ⟨⟩⟩
    · rename_i hk
      refine .pure ⟨ts, us ++ [t], by simp, hi, ?_⟩
      rintro o ⟨⟩
      exact ⟨hk, .keyword (by simp)⟩
    · exact .pure ⟨ts, us ++ [t], by simp, hi, by rintro _ ⟨⟩⟩
  | some o =>
    obtain ⟨hb, hd⟩ := hd o rfl
    have hf := (Directive.drawn_feed hd hb t).mono (fun n hn => hn.append_left ts) fun _ => id
    rw [← List.append_assoc] at hf
    refine .bind hf ?_
    intro x hx
    cases x with
    | reading d =>
      refine .pure ⟨ts, us ++ [t], by simp, hi, ?_⟩
      rintro o' ⟨⟩
      exact ⟨hb, hx⟩
    | done item? =>
      cases item? with
      | none =>
        exact .pure ⟨ts, us ++ [t], by simp, hi, by rintro _ ⟨⟩⟩
      | some item =>
        exact .pure ⟨ts ++ us ++ [t], [], by simp, ⟨ts, us ++ [t], by simp, hi, hx item rfl⟩,
          by rintro _ ⟨⟩⟩

/-- What is read of some tokens is drawn from them, and so is what is reported. -/
theorem drawn_feedAll {r : Reading} (h : r.DrawnFrom options.positionMode seen)
    (ts : List Token) :
    (r.feedAll options ts).Gives (Note.From options.positionMode (seen ++ ts))
      fun r' => r'.DrawnFrom options.positionMode (seen ++ ts) :=
  gives_feedAll (fun _ _ us hn => hn.append_right us) (fun _ _ t hr => drawn_feed hr t) seen h ts

end Reading

theorem Document.drawn_of_read {options : Options} {source : TokenSource} {d : Document}
    (h : (read options source).outcome = .ok d) :
    ∃ ts, ts <+ source.drain.1 ∧
      DrawnAll (Item.DrawnFrom options.positionMode) d.items.reverse ts := by
  obtain ⟨r, hr, -, rfl⟩ := Reading.exists_of_read h
  obtain ⟨ts, us, hts, hitems, -⟩ :=
    (Reading.drawn_feedAll Reading.drawn_start source.drain.1).result r hr
  refine ⟨ts, ?_, by simpa [Reading.document] using hitems⟩
  rw [← List.nil_append source.drain.1, ← hts]
  exact List.sublist_append_left ts us

/-- What is reported of some tokens has the span of one of them. -/
theorem Document.from_of_read {options : Options} {source : TokenSource} :
    ∀ n ∈ (read options source).notes, n.From options.positionMode source.drain.1 := by
  rw [read, (Reading.run_eq {} source).1]
  exact (Reading.drawn_feedAll Reading.drawn_start source.drain.1).notes

end TemplateTree
