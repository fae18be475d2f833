import TemplateTree.Proofs.Document.ReadText
import TemplateTree.Proofs.Reading.Drawn

/-!
# Positions read back

The spans of a tree lead back to the text it was read from, in either position
mode: a directive to a slice between block delimiters, a name to its value, the
path of a template to the quote that opens it.
-/

namespace TemplateTree

open scoped List

-- ---------------------------------------------------------------------------
-- What a node says of its text
-- ---------------------------------------------------------------------------

/-- The span leads to a slice of the text with this property. -/
def SlicesTo (text : List Char) (span? : Option Span) (P : List Char → Prop) : Prop :=
  ∃ s slice, span? = some s ∧ s.slice? text = some slice ∧ P slice

/-- The span starts at a quote. -/
def StartsAtQuote (text : List Char) (span? : Option Span) : Prop :=
  ∃ s offset c, span? = some s ∧ s.start.offset? text = some offset ∧ text[offset]? = some c ∧
    (c = '"' ∨ c = '\'')

/-- What the span of a node gives back of the text that it was read from. -/
def Node.ReadsBack (text : List Char) : Node → Prop
  | .importing ⟨_, _, _, span?⟩ | .including ⟨_, _, span?⟩ =>
    SlicesTo text span? fun slice => ['{', '%'] <+: slice ∧ ['%', '}'] <:+ slice
  | .importName name | .aliasKey name | .aliasValue name | .importTarget name
  | .includeLeft name => SlicesTo text name.span? (· = name.value.toList)
  | .importAlias entry =>
    SlicesTo text entry.span? fun slice =>
      entry.key.value.toList <+: slice ∧ entry.value.value.toList <:+ slice
  | .importTemplate path | .includeValue path | .includeRight path => StartsAtQuote text path.span?
  | .document _ | .comment _ | .importNames _ | .includeExpression _ => True

-- ---------------------------------------------------------------------------
-- Spans of tokens
-- ---------------------------------------------------------------------------

section

variable {ps : List Piece} (hp : ∀ p ∈ ps, ∃ inTag, Scanned inTag p) {mode : PositionMode}
include hp

theorem slicesTo_of_symbol {l : Leaf} {t : Token} (h : l.Reads mode .symbol t)
    (ht : t ∈ tokensAfter [] ps) : SlicesTo (slices ps) l.span? (· = l.value.toList) := by
  obtain ⟨qs, p, rs, rfl, rfl⟩ := exists_of_mem_tokensAfter ht
  obtain ⟨inTag, hs⟩ := hp p (by simp)
  have hl := hs.isLine_of_symbol h.kind
  obtain ⟨s, hspan, hs'⟩ := h.span
  rw [Piece.span_tokenAfter] at hspan
  cases hspan
  refine ⟨_, p.slice, hs', ?_, ?_⟩
  · have hfront : slices (qs ++ p :: rs) = [] ++ slices qs ++ p.slice ++ slices rs := by simp
    rw [hfront]
    exact Span.slice?_append (slices rs) rfl (hl.past _ mode)
  · rw [h.value]
    exact (hl.value_tokenAfter _).symm

theorem startsAtQuote_of_string {l : Leaf} {t : Token} (h : l.Reads mode .string t)
    (ht : t ∈ tokensAfter [] ps) : StartsAtQuote (slices ps) l.span? := by
  obtain ⟨qs, p, rs, rfl, rfl⟩ := exists_of_mem_tokensAfter ht
  obtain ⟨inTag, hs⟩ := hp p (by simp)
  obtain ⟨quote, more, hq, hc⟩ := hs.quote_of_string h.kind
  obtain ⟨s, hspan, hs'⟩ := h.span
  rw [Piece.span_tokenAfter] at hspan
  cases hspan
  have hfront : slices (qs ++ p :: rs) = ([] ++ slices qs) ++ (p.slice ++ slices rs) := by simp
  rw [hfront]
  exact ⟨_, (slices qs).length, quote, hs', Point.offset?_append ([] ++ slices qs) _, by simp [hq],
    hc⟩

/-- From the start of one token to the end of another stand their slices and all between. -/
theorem slicesTo_of_delimited {s : Span} {opening closing : Token}
    (h : s.Delimited mode opening closing) (ht : [opening, closing] <+ tokensAfter [] ps) :
    SlicesTo (slices ps) (some s) fun slice => ['{', '%'] <+: slice ∧ ['%', '}'] <:+ slice := by
  obtain ⟨qs, p, ms, q, rs, rfl, rfl, rfl⟩ := exists_of_pair_sublist ht
  obtain ⟨_, hs⟩ := hp p (by simp)
  obtain ⟨_, hs'⟩ := hp q (by simp)
  have hl := hs'.isLine_of_blockEnd h.blockEnd
  obtain ⟨hstart, hstop⟩ := Token.ends_of_spanTo (Piece.start_tokenAfter _ p)
    (Piece.start_tokenAfter _ q) h.span
  rw [hl.past] at hstop
  refine ⟨s, p.slice ++ slices ms ++ q.slice, rfl, ?_, ?_, ?_⟩
  · have hfront : slices (qs ++ p :: (ms ++ q :: rs)) =
        [] ++ slices qs ++ (p.slice ++ slices ms ++ q.slice) ++ slices rs := by simp
    rw [hfront]
    exact Span.slice?_append (slices rs) hstart (by simpa using hstop)
  · rw [List.append_assoc]
    rcases (hs.blockStart_eq h.blockStart).2 with hp | hp <;> rw [hp] <;> simp
  · rcases (hs'.blockEnd_eq h.blockEnd).2 with hq | hq <;> rw [hq]
    · exact ⟨p.slice ++ slices ms ++ ['-'], by simp⟩
    · exact ⟨p.slice ++ slices ms, rfl⟩

theorem slicesTo_of_cover {key value : Leaf} {k v : Token} (hk : key.Reads mode .symbol k)
    (hv : value.Reads mode .symbol v) (ht : [k, v] <+ tokensAfter [] ps) :
    SlicesTo (slices ps) (Span.cover? key.span? value.span?) fun slice =>
      key.value.toList <+: slice ∧ value.value.toList <:+ slice := by
  obtain ⟨qs, p, ms, q, rs, rfl, rfl, rfl⟩ := exists_of_pair_sublist ht
  obtain ⟨_, hs⟩ := hp p (by simp)
  obtain ⟨_, hs'⟩ := hp q (by simp)
  have hl := hs.isLine_of_symbol hk.kind
  have hl' := hs'.isLine_of_symbol hv.kind
  obtain ⟨s, hspan, hks⟩ := hk.span
  obtain ⟨s', hspan', hvs⟩ := hv.span
  rw [Piece.span_tokenAfter] at hspan hspan'
  cases hspan
  cases hspan'
  rw [hks, hvs]
  have hstart := Place.endOf_le_endOf_append ([] ++ slices qs) (p.slice ++ slices ms)
  have hstop := Place.endOf_le_endOf_append ([] ++ slices qs ++ p.slice) (slices ms ++ q.slice)
  rw [← List.append_assoc] at hstart hstop
  refine ⟨_, p.slice ++ slices ms ++ q.slice, rfl, ?_, ?_, ?_⟩
  · have hfront : slices (qs ++ p :: (ms ++ q :: rs)) =
        [] ++ slices qs ++ (p.slice ++ slices ms ++ q.slice) ++ slices rs := by simp
    rw [hfront]
    refine Span.slice?_append (slices rs) (if_pos hstart) ?_
    simp only [Span.cover, Span.ofText, hl.past, hl'.past, max, hstop]
    simp
  · rw [hk.value, hl.value_tokenAfter, List.append_assoc]
    exact List.prefix_append _ _
  · rw [hv.value, hl'.value_tokenAfter]
    exact List.suffix_append _ _

-- ---------------------------------------------------------------------------
-- Items
-- ---------------------------------------------------------------------------

theorem ImportedName.DrawnFrom.readsBack {name : ImportedName} {ts : List Token}
    (h : name.DrawnFrom mode ts) (hs : ts <+ tokensAfter [] ps) :
    ∀ n ∈ name.toNode.walk, n.ReadsBack (slices ps) := by
  cases h with
  | plain h ht => exact Node.forall_mem_walk_of_leaf rfl (slicesTo_of_symbol hp h (hs.subset ht))
  | @aliased key value k v _ hk hv ht =>
    have hpair := ht.trans hs
    have hkey := slicesTo_of_symbol hp hk (hpair.subset (by simp))
    have hvalue := slicesTo_of_symbol hp hv (hpair.subset (by simp))
    refine Node.forall_mem_walk_iff.mpr ⟨slicesTo_of_cover hp hk hv hpair, ?_⟩
    simp only [toNode, Node.children, List.forall_mem_cons]
    exact ⟨Node.forall_mem_walk_of_leaf rfl hkey, Node.forall_mem_walk_of_leaf rfl hvalue, by simp⟩

theorem readsBack_importing {template : Leaf} {withContext : Bool} {binding : Binding} {s : Span}
    {opening path closing : Token} (hd : s.Delimited mode opening closing)
    (hdelim : [opening, closing] <+ tokensAfter [] ps) (hpath : template.Reads mode .string path)
    (hm : path ∈ tokensAfter [] ps)
    (hb : ∀ n ∈ binding.toNode.walk, n.ReadsBack (slices ps)) :
    ∀ n ∈ (Node.importing ⟨template, withContext, binding, some s⟩).walk,
      n.ReadsBack (slices ps) := by
  have htemplate := startsAtQuote_of_string hp hpath hm
  refine Node.forall_mem_walk_iff.mpr ⟨slicesTo_of_delimited hp hd hdelim, ?_⟩
  simp only [Node.children, List.forall_mem_cons]
  exact ⟨Node.forall_mem_walk_of_leaf rfl htemplate, hb, by simp⟩

theorem readsBack_including {ignoreMissing : Bool} {template : IncludePath} {s : Span}
    {opening closing : Token} (hd : s.Delimited mode opening closing)
    (hdelim : [opening, closing] <+ tokensAfter [] ps)
    (ht : ∀ n ∈ template.toNode.walk, n.ReadsBack (slices ps)) :
    ∀ n ∈ (Node.including ⟨ignoreMissing, template, some s⟩).walk, n.ReadsBack (slices ps) := by
  refine Node.forall_mem_walk_iff.mpr ⟨slicesTo_of_delimited hp hd hdelim, ?_⟩
  simp only [Node.children, List.forall_mem_cons]
  exact ⟨ht, by simp⟩

theorem Item.DrawnFrom.readsBack {item : Item} {ts : List Token} (h : item.DrawnFrom mode ts)
    (hs : ts <+ tokensAfter [] ps) : ∀ n ∈ item.toNode.walk, n.ReadsBack (slices ps) := by
  cases h with
  | comment => exact Node.forall_mem_walk_of_leaf rfl trivial
  | @names _ _ list s opening path closing ts us hd hpath ho hn =>
    have hts : ts <+ tokensAfter [] ps :=
      List.Sublist.trans (by simp) hs
    have hus : us <+ tokensAfter [] ps :=
      List.Sublist.trans (by simp) hs
    have hdelim : [opening, closing] <+ tokensAfter [] ps :=
      (pair_sublist (List.mem_append_left us (ho.subset (by simp))) closing).trans hs
    refine readsBack_importing hp hd hdelim hpath (hts.subset (ho.subset (by simp))) ?_
    refine Node.forall_mem_walk_iff.mpr ⟨trivial, ?_⟩
    simp only [Binding.toNode, Node.children, List.forall_mem_map]
    intro name hm
    obtain ⟨vs, hvs, hv⟩ := hn.exists_of_mem (List.mem_reverse.mp hm)
    exact hv.readsBack hp (hvs.trans hus)
  | @target _ name _ s opening path t closing ts us hd hpath ho hn ht =>
    have hdelim : [opening, closing] <+ tokensAfter [] ps :=
      (pair_sublist (List.mem_append_left us (ho.subset (by simp))) closing).trans hs
    have hpm : path ∈ ts := ho.subset (by simp)
    refine readsBack_importing hp hd hdelim hpath (hs.subset (by simp [hpm])) ?_
    exact Node.forall_mem_walk_of_leaf rfl (slicesTo_of_symbol hp hn (hs.subset (by simp [ht])))
  | @value _ right s opening path closing ts hd hpath ho =>
    have hdelim : [opening, closing] <+ tokensAfter [] ps :=
      (pair_sublist (ho.subset (by simp)) closing).trans hs
    have hpm : path ∈ ts := ho.subset (by simp)
    refine readsBack_including hp hd hdelim ?_
    exact Node.forall_mem_walk_of_leaf rfl
      (startsAtQuote_of_string hp hpath (hs.subset (by simp [hpm])))
  | @expression _ left right l r s opening word path closing ts hd hl hpath hsl hsr hol hop =>
    have hdelim : [opening, closing] <+ tokensAfter [] ps :=
      (pair_sublist (hop.subset (by simp)) closing).trans hs
    have hwm : word ∈ ts := hol.subset (by simp)
    have hpm : path ∈ ts := hop.subset (by simp)
    have hleft := slicesTo_of_symbol hp hl (hs.subset (by simp [hwm]))
    have hright := startsAtQuote_of_string hp hpath (hs.subset (by simp [hpm]))
    refine readsBack_including hp hd hdelim (Node.forall_mem_walk_iff.mpr ⟨trivial, ?_⟩)
    simp only [IncludePath.toNode, Node.children, List.forall_mem_cons]
    exact ⟨Node.forall_mem_walk_of_leaf rfl hleft, Node.forall_mem_walk_of_leaf rfl hright,
      by simp⟩

end

/-- Wherever a template is read, every node of its tree reads back to the text. -/
theorem readsBack_of_ofText {options : Options} {text : String} {result : ParseResult}
    (h : ParseResult.ofText options text = .ok result) :
    ∀ node ∈ (Node.document result.document).walk, node.ReadsBack text.toList := by
  obtain ⟨ts, hts, hitems⟩ := Document.drawn_of_read (ParseResult.outcome_readText h)
  have htokens : ts <+ tokensAfter [] (pieces false text.toList) := tokens_lex text ▸ hts
  have hp : ∀ p ∈ pieces false text.toList, ∃ inTag, Scanned inTag p :=
    fun p => exists_scanned_of_mem_pieces
  refine Node.forall_mem_walk_iff.mpr ⟨trivial, ?_⟩
  simp only [Node.children, List.forall_mem_map]
  intro item hm
  obtain ⟨us, hus, hitem⟩ := hitems.exists_of_mem (List.mem_reverse.mpr hm)
  have hread := hitem.readsBack hp (hus.trans htokens)
  rwa [slices_pieces] at hread

theorem readsBack_two_lines :
    let text := "\x7b% from \"f\" import\n a as b, c %\x7d"
    ∃ result, ParseResult.ofText { positionMode := .lineAware } text = .ok result ∧
      result.document.items.length = 1 ∧
      ∀ node ∈ (Node.document result.document).walk, node.ReadsBack text.toList := by
  intro text
  have hcount : (ParseResult.ofText { positionMode := .lineAware } text).toOption.map
      (fun r => r.document.items.length) = some 1 := by decide +kernel
  obtain ⟨result, h, hcount⟩ := ParseResult.exists_of_count hcount
  exact ⟨result, h, hcount, readsBack_of_ofText h⟩

end TemplateTree
