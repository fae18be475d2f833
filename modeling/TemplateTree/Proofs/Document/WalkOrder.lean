import TemplateTree.Proofs.Document.Nested

/-!
# The order of a walk

A walk comes to the nodes of a tree in the order in which their spans start, in either
position mode, but for one pair: an include whose path stands in front of the word that is
put before it. The two are operands of a sum, and the walk comes to the word first, as if
it stood to the left.

The nodes of a part are drawn from tokens of its own. So they start in order where the
tokens come one after the other (`WalkedIn.append`), and behind the node that they belong to
where their spans are nested (`WalkedIn.node`).
-/

namespace TemplateTree

open scoped List

/-- The path starts before the word that is put in front of it. -/
def PathExpression.PathFirst (e : PathExpression) : Prop :=
  ∃ s r, e.left.span? = some s ∧ e.right.span? = some r ∧ r.start < s.start

namespace Node

/-- The first node starts no later than the second one, where both have a span. -/
def StartsBy (n m : Node) : Prop := ∀ s ∈ n.span?, ∀ r ∈ m.span?, s.start ≤ r.start

instance (n m : Node) : Decidable (n.StartsBy m) :=
  inferInstanceAs (Decidable (∀ s ∈ n.span?, ∀ r ∈ m.span?, s.start ≤ r.start))

/-- The two are the word and the path of an expression among the nodes. -/
def Operands (ns : List Node) (n m : Node) : Prop :=
  ∃ e, .includeExpression e ∈ ns ∧ n = .includeLeft e.left ∧ m = .includeRight e.right

end Node

/-- The span starts no earlier than one of the tokens, and before any token of the text that
comes after these. -/
structure Span.StartsAmong (cs : List Char) (ts : List Token) (s : Span) : Prop where
  startsIn : s.StartsIn ts
  startsBefore : ∀ u q, ts ++ [u] <+ tokensAfter [] (pieces false cs) → u.start = .ok q →
    s.start < q

/-- The nodes start among the tokens and in order, but for the operands of an expression. -/
structure WalkedIn (cs : List Char) (ts : List Token) (ns : List Node) : Prop where
  among : ∀ n ∈ ns, ∀ s ∈ n.span?, s.StartsAmong cs ts
  ordered : ns.Pairwise fun n m => n.StartsBy m ∨ Node.Operands ns n m

variable {mode : PositionMode} {cs : List Char} {ts us : List Token} {ns ms : List Node}

-- ---------------------------------------------------------------------------
-- Starts among tokens
-- ---------------------------------------------------------------------------

theorem Span.StartsAmong.of_sublist {s : Span} (h : s.StartsAmong cs us) (hs : us <+ ts) :
    s.StartsAmong cs ts where
  startsIn := h.startsIn.of_subset hs.subset
  startsBefore u q hu := h.startsBefore u q ((hs.append_right [u]).trans hu)

theorem Span.Among.startsAmong {s : Span} (h : s.Among cs ts) : s.StartsAmong cs ts where
  startsIn := h.startsIn
  startsBefore u q hu hq := (h.staysIn u q hu hq).1

theorem Span.StartsAmong.cover {s r : Span} (hs : s.StartsAmong cs ts)
    (hr : r.StartsAmong cs ts) : (s.cover r).StartsAmong cs ts where
  startsIn := hs.startsIn.cover hr.startsIn
  startsBefore u q hu hq :=
    Point.lt_of_le_of_lt (s.cover_contains_left r).1 (hs.startsBefore u q hu hq)

theorem Leaf.Reads.startsAmong {l : Leaf} {kind : TokenKind} {t : Token}
    (h : l.Reads mode kind t) (cs : List Char) : ∀ s ∈ l.span?, s.StartsAmong cs [t] := by
  intro s hl
  obtain ⟨_, hs, hspan⟩ := h.span
  cases hspan.symm.trans hl
  exact ⟨Span.startsIn_of_span hs,
    fun u q hu hq => start_lt_start hu (Token.start_of_span hs) hq⟩

theorem Node.start_le_of_nested {Overruns : Leaf → Prop} {node : Node}
    (h : ∀ n ∈ node.walk, n.Nested Overruns) : ∀ m ∈ node.walk, node.StartsBy m := by
  induction node using Node.walk.induct with
  | case1 node ih =>
    have hparts := (forall_mem_walk_iff.mp h).2
    refine forall_mem_walk_iff.mpr ⟨?_, fun child hc m hm s hs r hr => ?_⟩
    · intro s hs r hr
      cases hs.symm.trans hr
      exact s.start.le_refl
    · have hself : child ∈ child.walk := by
        rw [walk_eq]
        exact .head _
      rcases (hparts child hc child hself).located with hl | rfl
      · obtain ⟨b, hb⟩ := Option.isSome_iff_exists.mp hl
        have hchild := ((forall_mem_walk_iff.mp h).1.encloses child hc s hs b hb).1
        exact Point.le_trans hchild (ih child hc (hparts child hc) m hm b hb r hr)
      · -- a list without names has neither a span nor parts
        rw [walk_eq, List.mem_cons] at hm
        rcases hm with rfl | hm
        · cases hr
        · cases hm

-- ---------------------------------------------------------------------------
-- Walks over tokens
-- ---------------------------------------------------------------------------

theorem Node.Operands.of_subset {n m : Node} (h : Operands ns n m) (hs : ns ⊆ ms) :
    Operands ms n m := by
  obtain ⟨e, he, hn, hm⟩ := h
  exact ⟨e, hs he, hn, hm⟩

namespace WalkedIn

theorem of_sublist (h : WalkedIn cs us ns) (hs : us <+ ts) : WalkedIn cs ts ns where
  among n hn s hspan := (h.among n hn s hspan).of_sublist hs
  ordered := h.ordered

theorem nil (cs : List Char) (ts : List Token) : WalkedIn cs ts [] :=
  ⟨by simp, .nil⟩

theorem cons {node : Node} (h : WalkedIn cs ts ns)
    (ha : ∀ s ∈ node.span?, s.StartsAmong cs ts) (hle : ∀ m ∈ ns, node.StartsBy m) :
    WalkedIn cs ts (node :: ns) where
  among := List.forall_mem_cons.mpr ⟨ha, h.among⟩
  ordered := .cons (fun m hm => .inl (hle m hm))
    (h.ordered.imp fun ho => ho.imp_right fun ho => ho.of_subset (List.subset_cons_self node ns))

/-- What is drawn from earlier tokens starts before what is drawn from later ones. -/
theorem append (h : WalkedIn cs ts ns) (h' : WalkedIn cs us ms)
    (hs : ts ++ us <+ tokensAfter [] (pieces false cs)) : WalkedIn cs (ts ++ us) (ns ++ ms) := by
  constructor
  · intro n hn s hspan
    rcases List.mem_append.mp hn with hn | hn
    · exact (h.among n hn s hspan).of_sublist (List.sublist_append_left ts us)
    · exact (h'.among n hn s hspan).of_sublist (List.sublist_append_right ts us)
  · refine List.pairwise_append.mpr ⟨?_, ?_, fun n hn m hm => .inl fun s hns r hmr => ?_⟩
    · exact h.ordered.imp fun ho =>
        ho.imp_right fun ho => ho.of_subset (List.subset_append_left ns ms)
    · exact h'.ordered.imp fun ho =>
        ho.imp_right fun ho => ho.of_subset (List.subset_append_right ns ms)
    · obtain ⟨u, hu, q, hq, hle⟩ := (h'.among m hm r hmr).startsIn
      have hnext : ts ++ [u] <+ ts ++ us := (List.singleton_sublist.mpr hu).append_left ts
      have hlt := (h.among n hn s hns).startsBefore u q (hnext.trans hs) hq
      exact Point.le_trans (Point.le_of_lt hlt) hle

theorem leaf {node : Node} (h : node.children = [])
    (ha : ∀ s ∈ node.span?, s.StartsAmong cs ts) : WalkedIn cs ts node.walk := by
  rw [Node.walk_eq, h]
  exact (nil cs ts).cons ha (by simp)

/-- A node comes before its parts where their spans lie inside. -/
theorem node {Overruns : Leaf → Prop} {node : Node} (hn : ∀ n ∈ node.walk, n.Nested Overruns)
    (ha : ∀ s ∈ node.span?, s.StartsAmong cs ts)
    (h : WalkedIn cs ts (node.children.flatMap Node.walk)) : WalkedIn cs ts node.walk := by
  have hle := Node.start_le_of_nested hn
  rw [Node.walk_eq] at hle ⊢
  exact h.cons ha fun m hm => hle m (List.mem_cons_of_mem node hm)

end WalkedIn

theorem Leaf.Reads.walkedIn {l : Leaf} {kind : TokenKind} {t : Token} {node : Node}
    (h : l.Reads mode kind t) (hc : node.children = []) (hs : node.span? = l.span?)
    (cs : List Char) : WalkedIn cs [t] node.walk :=
  .leaf hc fun s hspan => h.startsAmong cs s (hs ▸ hspan)

/-- The nodes of parts that are drawn one after the other. -/
theorem DrawnAll.walkedIn {α : Type} {R : α → List Token → Prop} {f : α → List Node}
    (hR : ∀ x us, us <+ tokensAfter [] (pieces false cs) → R x us → WalkedIn cs us (f x))
    {xs : List α} (h : DrawnAll R xs ts) (hs : ts <+ tokensAfter [] (pieces false cs)) :
    WalkedIn cs ts (xs.reverse.flatMap f) := by
  induction xs generalizing ts with
  | nil => exact .nil cs ts
  | cons x xs ih =>
    obtain ⟨us, vs, rfl, hxs, hx⟩ := h
    have hus := (List.sublist_append_left us vs).trans hs
    have hvs := (List.sublist_append_right us vs).trans hs
    simpa using (ih hxs hus).append (hR x vs hvs hx) hs

-- ---------------------------------------------------------------------------
-- Items
-- ---------------------------------------------------------------------------

theorem ImportedName.DrawnFrom.walkedIn {name : ImportedName} (h : name.DrawnFrom mode ts)
    (hs : ts <+ tokensAfter [] (pieces false cs)) : WalkedIn cs ts name.toNode.walk := by
  have hnested : ∀ n ∈ name.toNode.walk, n.Nested fun _ => False := h.nested
  obtain ⟨own, hown, ha⟩ := h.among cs
  cases h with
  | plain h ht =>
    exact (h.walkedIn rfl rfl cs).of_sublist (List.singleton_sublist.mpr ht)
  | @aliased key value k v _ hk hv hkv =>
    refine .node hnested ?_ ?_
    · intro s hspan
      cases hown.symm.trans hspan
      exact ha.startsAmong
    · have hparts : WalkedIn cs [k, v]
          ((Node.aliasKey key).walk ++ (Node.aliasValue value).walk) :=
        (hk.walkedIn rfl rfl cs).append (hv.walkedIn rfl rfl cs) (hkv.trans hs)
      simpa [toNode, Node.children] using hparts.of_sublist hkv

theorem NameList.walkedIn_build {l : NameList}
    (h : DrawnAll (ImportedName.DrawnFrom mode) l.newestFirst ts)
    (hs : ts <+ tokensAfter [] (pieces false cs)) :
    WalkedIn cs ts (Node.importNames l.build).walk := by
  have hnested : ∀ n ∈ (Node.importNames l.build).walk, n.Nested fun _ => False :=
    nested_build h hs
  refine .node hnested ?_ ?_
  · intro s hspan
    rcases build_among h cs with he | ⟨_, hb, ha⟩
    · rw [he] at hspan
      cases hspan
    · cases hb.symm.trans hspan
      exact ha.startsAmong
  · have hnames := h.walkedIn (f := fun name => name.toNode.walk)
      (fun name us hus hname => hname.walkedIn hus) hs
    rwa [Node.children, List.flatMap_map]

/-- The operands of an expression may stand in either order. -/
theorem WalkedIn.expression {e : PathExpression} {l r : Span} (hl : e.left.span? = some l)
    (hr : e.right.span? = some r) (he : e.span? = some (l.cover r)) (hleft : l.StartsAmong cs ts)
    (hright : r.StartsAmong cs ts) : WalkedIn cs ts (Node.includeExpression e).walk := by
  have hwalk : (Node.includeExpression e).walk =
      [.includeExpression e, .includeLeft e.left, .includeRight e.right] := by
    simp [Node.walk_eq, Node.children]
  rw [hwalk]
  constructor
  · simp only [List.forall_mem_cons, Node.span?, hl, hr, he, Option.mem_some, forall_eq']
    exact ⟨hleft.cover hright, hleft, hright, by simp⟩
  · have hoperands : Node.Operands
        [.includeExpression e, .includeLeft e.left, .includeRight e.right]
        (.includeLeft e.left) (.includeRight e.right) := ⟨e, .head _, rfl, rfl⟩
    have hstart : (Node.includeExpression e).StartsBy (.includeLeft e.left) ∧
        (Node.includeExpression e).StartsBy (.includeRight e.right) := by
      simp only [Node.StartsBy, Node.span?, hl, hr, he, Option.mem_some, forall_eq']
      exact ⟨(l.cover_contains_left r).1, (l.cover_contains_right r).1⟩
    simp [hoperands, hstart]

theorem Item.DrawnFrom.walkedIn {item : Item} (h : item.DrawnFrom mode ts)
    (hs : ts <+ tokensAfter [] (pieces false cs)) : WalkedIn cs ts item.toNode.walk := by
  have hnested := h.nested hs
  obtain ⟨own, hown, ha⟩ := h.among hs
  have hspan : ∀ s ∈ item.toNode.span?, s.StartsAmong cs ts := by
    intro s hspan
    cases hown.symm.trans hspan
    exact ha.startsAmong
  cases h with
  | comment => exact .leaf rfl hspan
  | @names template _ list s opening path closing ts us hd hp ho hn =>
    have hpath : [path] ++ us <+ ts ++ us ++ [closing] :=
      ((List.singleton_sublist.mpr (ho.subset (by simp))).append_right us).trans
        (List.sublist_append_left _ [closing])
    have hus := (List.sublist_append_right [path] us).trans (hpath.trans hs)
    have hparts : WalkedIn cs ([path] ++ us)
        ((Node.importTemplate template).walk ++ (Node.importNames list.build).walk) :=
      (hp.walkedIn rfl rfl cs).append (NameList.walkedIn_build hn hus) (hpath.trans hs)
    refine .node hnested hspan ?_
    simpa [toNode, Node.children, Binding.toNode] using hparts.of_sublist hpath
  | @target template name _ s opening path t closing ts us hd hp ho hn ht =>
    have hpath : [path] ++ [t] <+ ts ++ us ++ [closing] :=
      ((List.singleton_sublist.mpr (ho.subset (by simp))).append
        (List.singleton_sublist.mpr ht)).trans (List.sublist_append_left _ [closing])
    have hparts : WalkedIn cs ([path] ++ [t])
        ((Node.importTemplate template).walk ++ (Node.importTarget name).walk) :=
      (hp.walkedIn rfl rfl cs).append (hn.walkedIn rfl rfl cs) (hpath.trans hs)
    refine .node hnested hspan ?_
    simpa [toNode, Node.children, Binding.toNode] using hparts.of_sublist hpath
  | @value _ right s opening path closing ts hd hp ho =>
    have hpath : [path] <+ ts ++ [closing] :=
      List.singleton_sublist.mpr (List.mem_append_left _ (ho.subset (by simp)))
    have hpart : WalkedIn cs [path] (Node.includeValue right).walk := hp.walkedIn rfl rfl cs
    refine .node hnested hspan ?_
    simpa [toNode, Node.children, IncludePath.toNode] using hpart.of_sublist hpath
  | @expression _ left right l r s opening word path closing ts hd hl hp hsl hsr hol hop =>
    have hpart : WalkedIn cs (ts ++ [closing])
        (Node.includeExpression ⟨left, right, some (l.cover r)⟩).walk := by
      refine .expression hsl hsr rfl ?_ ?_
      · exact (hl.startsAmong cs l hsl).of_sublist
          (List.singleton_sublist.mpr (List.mem_append_left _ (hol.subset (by simp))))
      · exact (hp.startsAmong cs r hsr).of_sublist
          (List.singleton_sublist.mpr (List.mem_append_left _ (hop.subset (by simp))))
    refine .node hnested hspan ?_
    simpa [toNode, Node.children, IncludePath.toNode] using hpart

-- ---------------------------------------------------------------------------
-- Templates
-- ---------------------------------------------------------------------------

theorem walkedIn_of_ofText {options : Options} {text : String} {result : ParseResult}
    (h : ParseResult.ofText options text = .ok result) :
    ∃ ts, WalkedIn text.toList ts (Node.document result.document).walk := by
  have hread := ParseResult.outcome_readText h
  obtain ⟨ts, hts, hitems⟩ := Document.drawn_of_read hread
  have htokens : ts <+ tokensAfter [] (pieces false text.toList) := tokens_lex text ▸ hts
  have hwalked := hitems.walkedIn (f := fun item => item.toNode.walk)
    (fun item us hus hitem => hitem.walkedIn hus) htokens
  rw [List.reverse_reverse] at hwalked
  -- the root has no span
  have hroot : (Node.document result.document).span? = none := by
    obtain ⟨r, -, -, hd⟩ := Reading.exists_of_read hread
    rw [hd]
    rfl
  refine ⟨ts, ?_⟩
  rw [Node.walk_eq, Node.children, List.flatMap_map]
  exact hwalked.cons (by simp [hroot]) fun m _ s hs => by simp [hroot] at hs

theorem Node.walk_sublist {root node : Node} (h : node ∈ root.walk) : node.walk <+ root.walk := by
  induction root using Node.walk.induct with
  | case1 root ih =>
    rw [walk_eq] at h
    rcases List.mem_cons.mp h with rfl | h
    · exact .refl _
    · obtain ⟨child, hc, hm⟩ := List.mem_flatMap.mp h
      rw [walk_eq root]
      have hchild : child.walk <+ root.children.flatMap walk :=
        List.sublist_flatten_of_mem (List.mem_map_of_mem hc)
      exact .cons _ ((ih child hc hm).trans hchild)

/-- The nodes of a template that is read start in the order of the walk, but for the two
operands of an expression whose path stands first. So the walk follows the text just where
there is no such expression. -/
theorem walk_startsBy {options : Options} {text : String} {result : ParseResult}
    (h : ParseResult.ofText options text = .ok result) :
    let nodes := (Node.document result.document).walk
    (nodes.Pairwise fun n m => n.StartsBy m ∨ ∃ e, .includeExpression e ∈ nodes ∧
        e.PathFirst ∧ n = .includeLeft e.left ∧ m = .includeRight e.right) ∧
      (nodes.Pairwise Node.StartsBy ↔ ∀ e, .includeExpression e ∈ nodes → ¬e.PathFirst) := by
  intro nodes
  obtain ⟨ts, hwalked⟩ := walkedIn_of_ofText h
  have hordered : nodes.Pairwise fun n m => n.StartsBy m ∨ ∃ e, .includeExpression e ∈ nodes ∧
      e.PathFirst ∧ n = .includeLeft e.left ∧ m = .includeRight e.right := by
    refine hwalked.ordered.imp ?_
    rintro n m (ho | ⟨e, he, rfl, rfl⟩)
    · exact .inl ho
    · by_cases hp : e.PathFirst
      · exact .inr ⟨e, he, hp, rfl, rfl⟩
      · refine .inl fun s hs r hr => ?_
        exact Decidable.byContradiction fun hle =>
          hp ⟨s, r, hs, hr, Point.lt_iff_not_le.mpr hle⟩
  refine ⟨hordered, fun ho e he => ?_, fun hnone => hordered.imp ?_⟩
  · rintro ⟨s, r, hs, hr, hlt⟩
    have hpair : [.includeLeft e.left, .includeRight e.right] <+ nodes := by
      refine .trans ?_ (Node.walk_sublist he)
      simp [Node.walk_eq, Node.children]
    have hle := List.rel_of_pairwise_cons (ho.sublist hpair) (List.mem_singleton_self _) s hs r hr
    exact Point.lt_iff_not_le.mp hlt hle
  · rintro n m (ho | ⟨e, he, hp, -⟩)
    · exact ho
    · exact absurd hp (hnone e he)

theorem walk_startsBy_path_last :
    let text := "\x7b% from 'f' import a as b, c %\x7d\x7b% include d + 'f' %\x7d"
    ∃ result, ParseResult.ofText {} text = .ok result ∧ result.document.items.length = 2 ∧
      let nodes := (Node.document result.document).walk
      (nodes.Pairwise Node.StartsBy ↔ ∀ e, .includeExpression e ∈ nodes → ¬e.PathFirst) := by
  intro text
  have hcount : (ParseResult.ofText {} text).toOption.map
      (fun r => r.document.items.length) = some 2 := by decide +kernel
  obtain ⟨result, h, hcount⟩ := ParseResult.exists_of_count hcount
  exact ⟨result, h, hcount, (walk_startsBy h).2⟩

/-- A word that is added to the path behind it is visited before the path. -/
theorem not_walk_startsBy_path_first :
    ∃ result, ParseResult.ofText {} "\x7b% include \"a\" + b %\x7d" = .ok result ∧
      ¬(Node.document result.document).walk.Pairwise Node.StartsBy :=
  exists_ok_of_toOption (by decide +kernel)

end TemplateTree
