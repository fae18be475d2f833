import TemplateTree.Proofs.Document.ReadText
import TemplateTree.Proofs.Reading.Among

/-!
# Nested spans

The spans of a tree are nested: that of a part lies inside that of the node it belongs
to. In naive mode this holds throughout. In line-aware mode the path of a template may
reach beyond its directive, namely where its literal has an escape that stands for a line
feed, since the end of a string is computed from its value.
-/

namespace TemplateTree

open scoped List

/-- The path that a part of a directive is or ends with. -/
def Node.path? : Node → Option Leaf
  | .importTemplate path | .includeValue path | .includeRight path => some path
  | .includeExpression path => some path.right
  | _ => none

/-- The path of the template that a directive names. -/
def Item.path? : Item → Option Leaf
  | .comment _ => none
  | .importing i => some i.template
  | .including i => i.template.toNode.path?

/-- A node below the root has a span, unless it lists no names, and the spans of its
parts lie inside, unless a path overruns. -/
structure Node.Nested (Overruns : Leaf → Prop) (node : Node) : Prop where
  located : node.span?.isSome ∨ node = .importNames ⟨[], none⟩
  encloses : ∀ child ∈ node.children, ∀ s ∈ node.span?, ∀ r ∈ child.span?,
    s.start ≤ r.start ∧ (r.stop ≤ s.stop ∨ ∃ path ∈ child.path?, Overruns path)

variable {Overruns : Leaf → Prop} {mode : PositionMode} {cs : List Char} {ts : List Token}

namespace Node

theorem nested_of_leaf {node : Node} (h : node.children = []) {s : Span}
    (hs : node.span? = some s) : ∀ n ∈ node.walk, n.Nested Overruns :=
  forall_mem_walk_of_leaf h ⟨.inl (by simp [hs]), by simp [h]⟩

theorem Nested.of_contains {node : Node}
    (hl : node.span?.isSome ∨ node = .importNames ⟨[], none⟩)
    (h : ∀ child ∈ node.children, ∀ s ∈ node.span?, ∀ r ∈ child.span?, s.Contains r) :
    node.Nested Overruns := by
  refine ⟨hl, fun child hc s hs r hr => ?_⟩
  have hcontains := h child hc s hs r hr
  exact ⟨hcontains.1, .inl hcontains.2⟩

/-- A node of two leaves whose span covers those of both. -/
theorem nested_of_cover {node left right : Node} (hc : node.children = [left, right])
    (hl : left.children = []) (hr : right.children = []) {s r : Span}
    (hs : left.span? = some s) (ht : right.span? = some r)
    (hn : node.span? = some (s.cover r)) : ∀ n ∈ node.walk, n.Nested Overruns := by
  refine forall_mem_walk_iff.mpr ⟨.of_contains (.inl (by simp [hn])) ?_, ?_⟩
  · simp only [hc, List.forall_mem_cons, hn, hs, ht]
    refine ⟨?_, ?_, by simp⟩
    · rintro _ ⟨⟩ _ ⟨⟩
      exact s.cover_contains_left r
    · rintro _ ⟨⟩ _ ⟨⟩
      exact s.cover_contains_right r
  · simp only [hc, List.forall_mem_cons]
    exact ⟨nested_of_leaf hl hs, nested_of_leaf hr ht, by simp⟩

theorem nested_importing {template : Leaf} {withContext : Bool} {binding : Binding} {s r : Span}
    (hr : template.span? = some r) (hstart : s.start ≤ r.start)
    (hstop : r.stop ≤ s.stop ∨ Overruns template)
    (hb : ∀ b ∈ binding.toNode.span?, s.Contains b)
    (hw : ∀ n ∈ binding.toNode.walk, n.Nested Overruns) :
    ∀ n ∈ (importing ⟨template, withContext, binding, some s⟩).walk, n.Nested Overruns := by
  refine forall_mem_walk_iff.mpr ⟨⟨.inl rfl, ?_⟩, ?_⟩
  · simp only [children, List.forall_mem_cons]
    refine ⟨?_, ?_, by simp⟩
    · rintro _ ⟨⟩ b hb
      cases hr.symm.trans hb
      exact ⟨hstart, hstop.imp_right fun h => ⟨template, rfl, h⟩⟩
    · rintro _ ⟨⟩ b hm
      exact ⟨(hb b hm).1, .inl (hb b hm).2⟩
  · simp only [children, List.forall_mem_cons]
    exact ⟨nested_of_leaf rfl hr, hw, by simp⟩

theorem nested_including {ignoreMissing : Bool} {template : IncludePath} {s r : Span}
    {path : Leaf} (hpath : template.toNode.path? = some path)
    (hr : template.toNode.span? = some r) (hstart : s.start ≤ r.start)
    (hstop : r.stop ≤ s.stop ∨ Overruns path)
    (hw : ∀ n ∈ template.toNode.walk, n.Nested Overruns) :
    ∀ n ∈ (including ⟨ignoreMissing, template, some s⟩).walk, n.Nested Overruns := by
  refine forall_mem_walk_iff.mpr ⟨⟨.inl rfl, ?_⟩, by simpa [children] using hw⟩
  simp only [children, List.forall_mem_cons]
  refine ⟨?_, by simp⟩
  rintro _ ⟨⟩ b hb
  cases hr.symm.trans hb
  exact ⟨hstart, hstop.imp_right fun h => ⟨path, hpath, h⟩⟩

end Node

theorem ImportedName.DrawnFrom.nested {name : ImportedName} (h : name.DrawnFrom mode ts) :
    ∀ n ∈ name.toNode.walk, n.Nested Overruns := by
  cases h with
  | plain h hs =>
    obtain ⟨s, -, hs⟩ := h.span
    exact Node.nested_of_leaf rfl hs
  | @aliased key value k v _ hk hv hs =>
    obtain ⟨s, -, hkey⟩ := hk.span
    obtain ⟨r, -, hvalue⟩ := hv.span
    rw [hkey, hvalue]
    exact Node.nested_of_cover rfl rfl rfl hkey hvalue rfl

theorem NameList.nested_build {l : NameList}
    (h : DrawnAll (ImportedName.DrawnFrom mode) l.newestFirst ts)
    (hs : ts <+ tokensAfter [] (pieces false cs)) :
    ∀ n ∈ (Node.importNames l.build).walk, n.Nested Overruns := by
  refine Node.forall_mem_walk_iff.mpr ⟨.of_contains ?_ ?_, ?_⟩
  · rcases build_among h cs with he | ⟨s, hspan, -⟩
    · exact .inr (congrArg Node.importNames he)
    · exact .inl (by simp [Node.span?, hspan])
  · simp only [Node.children, List.forall_mem_map]
    intro name hm s hspan r hr
    have hr : name.span? = some r := by cases name <;> exact hr
    obtain ⟨s', hspan', hc⟩ :=
      build_contains (inOrder_of_drawn h hs) (List.mem_reverse.mp hm) hr
    cases hspan'.symm.trans hspan
    exact hc
  · simp only [Node.children, List.forall_mem_map]
    intro name hm
    obtain ⟨us, -, hname⟩ := h.exists_of_mem (List.mem_reverse.mp hm)
    exact hname.nested

theorem Item.DrawnFrom.nested {item : Item} (h : item.DrawnFrom mode ts)
    (hs : ts <+ tokensAfter [] (pieces false cs)) :
    ∀ n ∈ item.toNode.walk,
      n.Nested fun path => mode = .lineAware ∧ path.EscapesLineFeed cs := by
  obtain ⟨own, hown, -⟩ := h.among hs
  cases h with
  | comment => exact Node.nested_of_leaf rfl hown
  | @names template _ list s opening path closing ts us hd hp ho hn =>
    have hpath : [opening] ++ [path] ++ [closing] <+ ts ++ us ++ [closing] :=
      (ho.trans (List.sublist_append_left ts us)).append_right [closing]
    obtain ⟨r, hr, hstart, hstop⟩ := hd.path_nested hp (hpath.trans hs)
    have hnames : [opening] ++ us ++ [closing] <+ ts ++ us ++ [closing] :=
      ((List.singleton_sublist.mpr (ho.subset (by simp))).append_right us).append_right [closing]
    have hus : us <+ ts ++ us ++ [closing] :=
      (List.sublist_append_right ts us).trans (List.sublist_append_left _ [closing])
    refine Node.nested_importing hr hstart hstop ?_ (NameList.nested_build hn (hus.trans hs))
    intro b hb
    rcases NameList.build_among hn cs with he | ⟨b', hb', ha⟩
    · simp [Binding.toNode, Node.span?, he] at hb
    · cases hb'.symm.trans hb
      exact hd.contains ha (hnames.trans hs)
  | @target template name _ s opening path t closing ts us hd hp ho hn ht =>
    obtain ⟨b, hb, ha⟩ := hn.among_of_symbol cs
    have hpath : [opening] ++ [path] ++ [closing] <+ ts ++ us ++ [closing] :=
      (ho.trans (List.sublist_append_left ts us)).append_right [closing]
    obtain ⟨r, hr, hstart, hstop⟩ := hd.path_nested hp (hpath.trans hs)
    have hname : [opening] ++ [t] ++ [closing] <+ ts ++ us ++ [closing] :=
      ((List.singleton_sublist.mpr (ho.subset (by simp))).append
        (List.singleton_sublist.mpr ht)).append_right [closing]
    refine Node.nested_importing hr hstart hstop ?_ (Node.nested_of_leaf rfl hb)
    intro b' hb'
    cases hb.symm.trans hb'
    exact hd.contains ha (hname.trans hs)
  | @value _ right s opening path closing ts hd hp ho =>
    have hpath : [opening] ++ [path] ++ [closing] <+ ts ++ [closing] := ho.append_right [closing]
    obtain ⟨r, hr, hstart, hstop⟩ := hd.path_nested hp (hpath.trans hs)
    exact Node.nested_including rfl hr hstart hstop (Node.nested_of_leaf rfl hr)
  | @expression _ left right l r s opening word path closing ts hd hl hp hsl hsr hol hop =>
    have hword : [opening] ++ [word] ++ [closing] <+ ts ++ [closing] := hol.append_right [closing]
    have hpath : [opening] ++ [path] ++ [closing] <+ ts ++ [closing] := hop.append_right [closing]
    obtain ⟨l', hl', hal⟩ := hl.among_of_symbol cs
    cases hsl.symm.trans hl'
    have hleft : s.Contains l := hd.contains hal (hword.trans hs)
    obtain ⟨r', hr', hstart, hstop⟩ := hd.path_nested hp (hpath.trans hs)
    cases hsr.symm.trans hr'
    exact Node.nested_including (r := l.cover r) rfl rfl (Span.le_start_cover hleft.1 hstart)
      (hstop.imp_left (Span.stop_cover_le hleft.2))
      (Node.nested_of_cover rfl rfl rfl hsl hsr rfl)

/-- Where all spans are nested, the path of a directive lies inside the directive. -/
theorem Item.path_nested {item : Item} (h : ∀ n ∈ item.toNode.walk, n.Nested Overruns)
    {path : Leaf} (hp : path ∈ item.path?) :
    ∀ s ∈ item.toNode.span?, ∀ r ∈ path.span?, s.Contains r ∨ Overruns path := by
  rw [Node.forall_mem_walk_iff] at h
  obtain ⟨hitem, hparts⟩ := h
  intro s hs r hr
  -- the part directly below the directive that is or ends with the path
  have hpart : ∀ part ∈ item.toNode.children, part.path? = some path → ∀ b ∈ part.span?,
      b.Contains r → s.Contains r ∨ Overruns path := by
    intro part hm hpath b hb hc
    obtain ⟨hstart, hstop | ⟨p, hp, ho⟩⟩ := hitem.encloses part hm s hs b hb
    · exact .inl ⟨Point.le_trans hstart hc.1, Point.le_trans hc.2 hstop⟩
    · cases hpath.symm.trans hp
      exact .inr ho
  have hself : r.Contains r := ⟨r.start.le_refl, r.stop.le_refl⟩
  cases item with
  | comment c => cases hp
  | importing i =>
    cases hp
    exact hpart (.importTemplate i.template) (by simp [toNode, Node.children]) rfl r hr hself
  | including i =>
    obtain ⟨ignoreMissing, template, span?⟩ := i
    cases template with
    | value _ =>
      cases hp
      exact hpart (.includeValue path) (.head _) rfl r hr hself
    | expression e =>
      cases hp
      have he := hparts (.includeExpression e) (.head _) (.includeExpression e)
        (by rw [Node.walk_eq]; exact .head _)
      obtain ⟨b, hb⟩ := Option.isSome_iff_exists.mp (he.located.resolve_right (by simp))
      obtain ⟨hstart, hstop | ⟨_, ⟨⟩, ho⟩⟩ :=
        he.encloses (.includeRight e.right) (by simp [Node.children]) b hb r hr
      · exact hpart (.includeExpression e) (.head _) rfl b hb ⟨hstart, hstop⟩
      · exact .inr ho

theorem nested_of_ofText {options : Options} {text : String} {result : ParseResult}
    (h : ParseResult.ofText options text = .ok result) :
    ∀ item ∈ result.document.items, ∀ node ∈ item.toNode.walk, node.Nested fun path =>
      options.positionMode = .lineAware ∧ path.EscapesLineFeed text.toList := by
  obtain ⟨ts, hts, hitems⟩ := Document.drawn_of_read (ParseResult.outcome_readText h)
  have htokens : ts <+ tokensAfter [] (pieces false text.toList) := tokens_lex text ▸ hts
  intro item hm
  obtain ⟨us, hus, hitem⟩ := hitems.exists_of_mem (List.mem_reverse.mpr hm)
  exact hitem.nested (hus.trans htokens)

/-- Wherever a template is read in naive mode, every node below the root has a span, but
for a list without names, and the span of every part lies inside that of its node. -/
theorem nested_naive {options : Options} {text : String} {result : ParseResult}
    (hm : options.positionMode = .naive) (h : ParseResult.ofText options text = .ok result) :
    ∀ item ∈ result.document.items, ∀ node ∈ item.toNode.walk,
      (node.span?.isSome ∨ node = .importNames ⟨[], none⟩) ∧
        ∀ child ∈ node.children, ∀ s ∈ node.span?, ∀ r ∈ child.span?, s.Contains r := by
  intro item hi node hn
  have hnested := nested_of_ofText h item hi node hn
  refine ⟨hnested.located, fun child hc s hs r hr => ?_⟩
  obtain ⟨hstart, hstop | ⟨-, -, hl, -⟩⟩ := hnested.encloses child hc s hs r hr
  · exact ⟨hstart, hstop⟩
  · rw [hm] at hl
    cases hl

theorem nested_naive_aliases :
    let text := "\x7b% from \"a\\\"\n\" import\n b as c, d as %\x7d\x7b% from 'f' %\x7d"
    ∃ result, ParseResult.ofText {} text = .ok result ∧ result.document.items.length = 2 ∧
      ∀ item ∈ result.document.items, ∀ node ∈ item.toNode.walk,
        (node.span?.isSome ∨ node = .importNames ⟨[], none⟩) ∧
          ∀ child ∈ node.children, ∀ s ∈ node.span?, ∀ r ∈ child.span?, s.Contains r := by
  intro text
  have hcount : (ParseResult.ofText {} text).toOption.map
      (fun r => r.document.items.length) = some 2 := by decide +kernel
  obtain ⟨result, h, hcount⟩ := ParseResult.exists_of_count hcount
  exact ⟨result, h, hcount, nested_naive rfl h⟩

/-- Wherever a template is read, also in line-aware mode, the span of every part lies inside
that of its node, and the path of a template inside its directive, but for a path that is
written with an escape for a line feed. -/
theorem nested_or_escaped {options : Options} {text : String} {result : ParseResult}
    (h : ParseResult.ofText options text = .ok result) :
    ∀ item ∈ result.document.items,
      (∀ node ∈ item.toNode.walk, ∀ child ∈ node.children,
        ∀ s ∈ node.span?, ∀ r ∈ child.span?,
          s.Contains r ∨ ∃ path ∈ child.path?, path.EscapesLineFeed text.toList) ∧
      ∀ path ∈ item.path?, ∀ s ∈ item.toNode.span?, ∀ r ∈ path.span?,
        s.Contains r ∨ path.EscapesLineFeed text.toList := by
  intro item hi
  have hnested := nested_of_ofText h item hi
  constructor
  · intro node hn child hc s hs r hr
    obtain ⟨hstart, hstop | ⟨path, hpath, -, hescape⟩⟩ :=
      (hnested node hn).encloses child hc s hs r hr
    · exact .inl ⟨hstart, hstop⟩
    · exact .inr ⟨path, hpath, hescape⟩
  · intro path hpath s hs r hr
    exact (Item.path_nested hnested hpath s hs r hr).imp_right And.right

theorem nested_or_escaped_two_lines :
    let text := "\x7b% include a + 'b\nc\\'' %\x7d"
    ∃ result, ParseResult.ofText { positionMode := .lineAware } text = .ok result ∧
      result.document.items.length = 1 ∧
      ∀ item ∈ result.document.items,
        (∀ node ∈ item.toNode.walk, ∀ child ∈ node.children,
          ∀ s ∈ node.span?, ∀ r ∈ child.span?,
            s.Contains r ∨ ∃ path ∈ child.path?, path.EscapesLineFeed text.toList) ∧
        ∀ path ∈ item.path?, ∀ s ∈ item.toNode.span?, ∀ r ∈ path.span?,
          s.Contains r ∨ path.EscapesLineFeed text.toList := by
  intro text
  have hcount : (ParseResult.ofText { positionMode := .lineAware } text).toOption.map
      (fun r => r.document.items.length) = some 1 := by decide +kernel
  obtain ⟨result, h, hcount⟩ := ParseResult.exists_of_count hcount
  exact ⟨result, h, hcount, nested_or_escaped h⟩

/-- A path with an escape for a line feed reaches beyond its directive. -/
theorem not_nested_escaped_line_feed :
    let text := "\x7b% include \"a\\nb\" %\x7d"
    ∃ result, ParseResult.ofText { positionMode := .lineAware } text = .ok result ∧
      ∃ item ∈ result.document.items, ∃ child ∈ item.toNode.children,
        ∃ s ∈ item.toNode.span?, ∃ r ∈ child.span?, ¬s.Contains r := by
  intro text
  have hok : ∃ result ∈ (ParseResult.ofText { positionMode := .lineAware } text).toOption,
      ∃ item ∈ result.document.items, ∃ child ∈ item.toNode.children,
        ∃ s ∈ item.toNode.span?, ∃ r ∈ child.span?, ¬s.Contains r := by decide +kernel
  cases h : ParseResult.ofText { positionMode := .lineAware } text with
  | ok result =>
    rw [h] at hok
    obtain ⟨_, ⟨⟩, hok⟩ := hok
    exact ⟨result, rfl, hok⟩
  | error fault =>
    rw [h] at hok
    obtain ⟨_, hr, -⟩ := hok
    cases hr

end TemplateTree
