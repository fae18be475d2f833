import TemplateTree.Proofs.Reading.Drawn
import TemplateTree.Proofs.Token.Extent

/-!
# Spans among tokens

Where the span of a part of a tree lies among the tokens of the text. The part is drawn
from some of them; its span starts no earlier than one of these (`Span.StartsIn`), and it
is over when a token comes after all of them (`Span.StaysIn`). Both carry over to what
covers two such spans and to a directive between its delimiters. Only the path of a
template may reach further, where it has an escape for a line feed and line feeds are
followed (`Leaf.Reads.staysIn_of_string`).
-/

namespace TemplateTree

open scoped List

variable {mode : PositionMode} {cs : List Char} {ts us : List Token} {s r : Span}

namespace Span

/-- The span starts before the other one and ends no later than that starts. -/
def Precedes (s r : Span) : Prop := s.start < r.start ∧ s.stop ≤ r.start

instance (s r : Span) : Decidable (s.Precedes r) := inferInstanceAs (Decidable (_ ∧ _))

/-- Both spans are known, and the first one precedes the second. -/
def InOrder (s? r? : Option Span) : Prop :=
  ∃ s r, s? = some s ∧ r? = some r ∧ s.Precedes r

/-- The span starts no earlier than one of the tokens. -/
def StartsIn (ts : List Token) (s : Span) : Prop := ∃ t ∈ ts, ∃ p, t.start = .ok p ∧ p ≤ s.start

/-- The span starts and ends before any token of the text that comes after these. -/
def StaysIn (cs : List Char) (ts : List Token) (s : Span) : Prop :=
  ∀ u q, ts ++ [u] <+ tokensAfter [] (pieces false cs) → u.start = .ok q →
    s.start < q ∧ s.stop ≤ q

structure Among (cs : List Char) (ts : List Token) (s : Span) : Prop where
  startsIn : s.StartsIn ts
  staysIn : s.StaysIn cs ts

theorem StartsIn.of_subset (h : s.StartsIn us) (hs : us ⊆ ts) : s.StartsIn ts := by
  obtain ⟨t, ht, hp⟩ := h
  exact ⟨t, hs ht, hp⟩

theorem StaysIn.of_sublist (h : s.StaysIn cs us) (hs : us <+ ts) : s.StaysIn cs ts :=
  fun u q hu hq => h u q ((hs.append_right [u]).trans hu) hq

theorem Among.of_sublist (h : s.Among cs us) (hs : us <+ ts) : s.Among cs ts :=
  ⟨h.startsIn.of_subset hs.subset, h.staysIn.of_sublist hs⟩

theorem StartsIn.cover (hs : s.StartsIn ts) (hr : r.StartsIn ts) : (s.cover r).StartsIn ts := by
  simp only [Span.cover, min]
  split
  · exact hs
  · exact hr

theorem StaysIn.cover (hs : s.StaysIn cs ts) (hr : r.StaysIn cs ts) :
    (s.cover r).StaysIn cs ts := by
  intro u q hu hq
  obtain ⟨hstart, hstop⟩ := hs u q hu hq
  exact ⟨Point.lt_of_le_of_lt (s.cover_contains_left r).1 hstart,
    stop_cover_le hstop (hr u q hu hq).2⟩

theorem Among.cover (hs : s.Among cs ts) (hr : r.Among cs ts) : (s.cover r).Among cs ts :=
  ⟨hs.startsIn.cover hr.startsIn, hs.staysIn.cover hr.staysIn⟩

/-- What is drawn from earlier tokens precedes what is drawn from later ones. -/
theorem StaysIn.precedes (hs : s.StaysIn cs ts) (hr : r.StartsIn us)
    (h : ts ++ us <+ tokensAfter [] (pieces false cs)) : s.Precedes r := by
  obtain ⟨u, hu, q, hq, hle⟩ := hr
  have hnext : ts ++ [u] <+ ts ++ us := (List.singleton_sublist.mpr hu).append_left ts
  obtain ⟨hstart, hstop⟩ := hs u q (hnext.trans h) hq
  exact ⟨Point.lt_of_lt_of_le hstart hle, Point.le_trans hstop hle⟩

end Span

-- ---------------------------------------------------------------------------
-- Tokens
-- ---------------------------------------------------------------------------

/-- Of two tokens of a text, one after the other, the first starts first. -/
theorem start_lt_start {t u : Token} {p q : Point}
    (h : [t, u] <+ tokensAfter [] (pieces false cs)) (ht : t.start = .ok p)
    (hu : u.start = .ok q) : p < q := by
  have hp : ∀ p ∈ pieces false cs, p.slice ≠ [] := by
    intro p hp
    obtain ⟨_, hs⟩ := exists_scanned_of_mem_pieces hp
    exact hs.slice_ne_nil
  have hlt := List.rel_of_pairwise_cons ((pairwise_strictlyBefore hp []).sublist h)
    (List.mem_singleton_self u)
  exact (Token.strictlyBefore_iff ht hu).mp hlt

theorem Span.startsIn_of_span {t : Token} (h : t.span mode = .ok s) : s.StartsIn [t] :=
  ⟨t, List.mem_singleton_self t, s.start, Token.start_of_span h, s.start.le_refl⟩

theorem Span.staysIn_of_clears {t : Token} (hs : t.span mode = .ok s)
    (hc : ∀ u, [t, u] <+ tokensAfter [] (pieces false cs) → t.Clears mode u) :
    s.StaysIn cs [t] :=
  fun u q h hq => ⟨start_lt_start h (Token.start_of_span hs) hq, hc u h s q hs hq⟩

-- ---------------------------------------------------------------------------
-- Leaves
-- ---------------------------------------------------------------------------

/-- Where the leaf starts, the text has a literal for its value with an escape that
stands for a line feed. -/
def Leaf.EscapesLineFeed (cs : List Char) (l : Leaf) : Prop :=
  ∃ front slice back s, front ++ slice ++ back = cs ∧ l.span? = some s ∧
    s.start.Follows front ∧ LiteralSlice slice l.value.toList ∧
    slice.count '\n' < l.value.toList.count '\n'

namespace Leaf.Reads

variable {l : Leaf} {t : Token}

theorem escapesLineFeed {kind : TokenKind} (h : l.Reads mode kind t)
    (ht : t.EscapesLineFeed cs) : l.EscapesLineFeed cs := by
  obtain ⟨front, slice, back, p, hcs, hp, hfront, hslice, hcount⟩ := ht
  obtain ⟨s, hs, hl⟩ := h.span
  rw [Token.start_of_span hs] at hp
  cases hp
  exact ⟨front, slice, back, s, hcs, hl, hfront, h.value ▸ hslice, h.value ▸ hcount⟩

theorem among_of_symbol (h : l.Reads mode .symbol t) (cs : List Char) :
    ∃ s, l.span? = some s ∧ s.Among cs [t] := by
  obtain ⟨s, hs, hl⟩ := h.span
  exact ⟨s, hl, Span.startsIn_of_span hs,
    Span.staysIn_of_clears hs fun u hu => clears_of_symbol hu h.kind⟩

theorem staysIn_of_string (h : l.Reads mode .string t) (cs : List Char) :
    ∃ s, l.span? = some s ∧ s.StartsIn [t] ∧
      (s.StaysIn cs [t] ∨ mode = .lineAware ∧ l.EscapesLineFeed cs) := by
  obtain ⟨s, hs, hl⟩ := h.span
  refine ⟨s, hl, Span.startsIn_of_span hs, ?_⟩
  by_cases hescape : mode = .lineAware ∧ t.EscapesLineFeed cs
  · exact .inr ⟨hescape.1, h.escapesLineFeed hescape.2⟩
  · exact .inl (Span.staysIn_of_clears hs fun u hu =>
      (clears_of_string hu h.kind).resolve_right hescape)

end Leaf.Reads

-- ---------------------------------------------------------------------------
-- Directives
-- ---------------------------------------------------------------------------

namespace Span.Delimited

variable {opening closing : Token} (hd : s.Delimited mode opening closing)
include hd

theorem start_le (hr : r.StartsIn us)
    (h : [opening] ++ us ++ [closing] <+ tokensAfter [] (pieces false cs)) :
    s.start ≤ r.start := by
  obtain ⟨t, ht, q, hq, hle⟩ := hr
  obtain ⟨p, hp⟩ := exists_start_of_mem_tokensAfter (t := opening) (h.subset (by simp))
  obtain ⟨c, hc⟩ := exists_start_of_mem_tokensAfter (t := closing) (h.subset (by simp))
  have hpair : [opening, t] <+ [opening] ++ us ++ [closing] :=
    ((List.singleton_sublist.mpr ht).append_left [opening]).trans (List.sublist_append_left _ _)
  rw [(Token.ends_of_spanTo hp hc hd.span).1]
  exact Point.le_trans (Point.le_of_lt (start_lt_start (hpair.trans h) hp hq)) hle

theorem stop_le (hr : r.StaysIn cs us)
    (h : [opening] ++ us ++ [closing] <+ tokensAfter [] (pieces false cs)) :
    r.stop ≤ s.stop := by
  obtain ⟨p, hp⟩ := exists_start_of_mem_tokensAfter (t := opening) (h.subset (by simp))
  obtain ⟨c, hc⟩ := exists_start_of_mem_tokensAfter (t := closing) (h.subset (by simp))
  have htail : us ++ [closing] <+ [opening] ++ us ++ [closing] :=
    (List.sublist_append_right [opening] us).append_right [closing]
  rw [(Token.ends_of_spanTo hp hc hd.span).2]
  exact Point.le_trans (hr closing c (htail.trans h) hc).2 (c.le_past mode _)

theorem contains (hr : r.Among cs us)
    (h : [opening] ++ us ++ [closing] <+ tokensAfter [] (pieces false cs)) : s.Contains r :=
  ⟨hd.start_le hr.startsIn h, hd.stop_le hr.staysIn h⟩

/-- The path of a directive starts inside it, and ends there but for an escape. -/
theorem path_nested {path : Leaf} {t : Token} (hp : path.Reads mode .string t)
    (h : [opening] ++ [t] ++ [closing] <+ tokensAfter [] (pieces false cs)) :
    ∃ r, path.span? = some r ∧ s.start ≤ r.start ∧
      (r.stop ≤ s.stop ∨ mode = .lineAware ∧ path.EscapesLineFeed cs) := by
  obtain ⟨r, hr, hstart, hstop⟩ := hp.staysIn_of_string cs
  exact ⟨r, hr, hd.start_le hstart h, hstop.imp_left fun hstays => hd.stop_le hstays h⟩

theorem among (h : [opening, closing] <+ tokensAfter [] (pieces false cs)) :
    s.Among cs [opening, closing] := by
  obtain ⟨p, hp⟩ := exists_start_of_mem_tokensAfter (t := opening) (h.subset (by simp))
  obtain ⟨c, hc⟩ := exists_start_of_mem_tokensAfter (t := closing) (h.subset (by simp))
  obtain ⟨hstart, hstop⟩ := Token.ends_of_spanTo hp hc hd.span
  refine ⟨⟨opening, by simp, p, hp, hstart ▸ p.le_refl⟩, ?_⟩
  intro u q hu hq
  have hopening : [opening, u] <+ [opening, closing] ++ [u] := pair_sublist (by simp) u
  have hclosing : [closing, u] <+ [opening, closing] ++ [u] := pair_sublist (by simp) u
  rw [hstart, hstop]
  exact ⟨start_lt_start (hopening.trans hu) hp hq,
    clears_of_blockEnd (hclosing.trans hu) hd.blockEnd _ q (Token.span_eq hc mode) hq⟩

end Span.Delimited

-- ---------------------------------------------------------------------------
-- Names
-- ---------------------------------------------------------------------------

theorem ImportedName.DrawnFrom.among {name : ImportedName} (h : name.DrawnFrom mode ts)
    (cs : List Char) :
    ∃ s, name.span? = some s ∧ s.Among cs ts := by
  cases h with
  | plain h ht =>
    obtain ⟨s, hs, ha⟩ := h.among_of_symbol cs
    exact ⟨s, hs, ha.of_sublist (List.singleton_sublist.mpr ht)⟩
  | @aliased key value k v _ hk hv hs =>
    obtain ⟨s, hkey, hks⟩ := hk.among_of_symbol cs
    obtain ⟨r, hvalue, hvr⟩ := hv.among_of_symbol cs
    refine ⟨s.cover r, by simp [span?, hkey, hvalue, Span.cover?], ?_⟩
    have hks := hks.of_sublist (List.singleton_sublist.mpr (hs.subset (by simp)))
    have hvr := hvr.of_sublist (List.singleton_sublist.mpr (hs.subset (by simp)))
    exact hks.cover hvr

namespace NameList

variable {l : NameList}

theorem inOrder_of_drawn (h : DrawnAll (ImportedName.DrawnFrom mode) l.newestFirst ts)
    (hs : ts <+ tokensAfter [] (pieces false cs)) :
    l.newestFirst.Pairwise fun next name => Span.InOrder name.span? next.span? := by
  refine h.pairwise fun next name us vs hsub hname hnext => ?_
  obtain ⟨s, hs', ha⟩ := hname.among cs
  obtain ⟨r, hr, hb⟩ := hnext.among cs
  exact ⟨s, r, hs', hr, ha.staysIn.precedes hb.startsIn (hsub.trans hs)⟩

/-- Where the names stand in order, the span of the finished list contains all of them. -/
theorem build_contains
    (h : l.newestFirst.Pairwise fun next name => Span.InOrder name.span? next.span?)
    {name : ImportedName} (hm : name ∈ l.newestFirst) (hs : name.span? = some s) :
    ∃ r, l.build.span? = some r ∧ r.Contains s := by
  have hlast : ∃ e, (l.newestFirst.head?.bind ImportedName.span?) = some e ∧ s.stop ≤ e.stop := by
    cases hl : l.newestFirst with
    | nil => simp [hl] at hm
    | cons last earlier =>
      rw [hl] at h hm
      rcases List.mem_cons.mp hm with rfl | hm
      · exact ⟨s, hs, s.stop.le_refl⟩
      · obtain ⟨s', e, hs', he, hp⟩ := List.rel_of_pairwise_cons h hm
        obtain rfl := Option.some.inj (hs.symm.trans hs')
        exact ⟨e, he, Point.le_trans hp.2 e.start_le_stop⟩
  have hfirst : ∃ f, (l.entries.head?.bind ImportedName.span?) = some f ∧ f.start ≤ s.start := by
    have h : l.entries.Pairwise fun name next => Span.InOrder name.span? next.span? :=
      List.pairwise_reverse.mpr h
    have hm : name ∈ l.entries := List.mem_reverse.mpr hm
    cases hl : l.entries with
    | nil => simp [hl] at hm
    | cons first later =>
      rw [hl] at h hm
      rcases List.mem_cons.mp hm with rfl | hm
      · exact ⟨s, hs, s.start.le_refl⟩
      · obtain ⟨f, s', hf, hs', hp⟩ := List.rel_of_pairwise_cons h hm
        obtain rfl := Option.some.inj (hs.symm.trans hs')
        exact ⟨f, hf, Point.le_of_lt hp.1⟩
  obtain ⟨e, he, hstop⟩ := hlast
  obtain ⟨f, hf, hstart⟩ := hfirst
  refine ⟨f.cover e, by simp only [build, hf, he, Span.cover?], ?_⟩
  exact ⟨Point.le_trans (f.cover_contains_left e).1 hstart,
    Point.le_trans hstop (f.cover_contains_right e).2⟩

/-- The finished list stands where its names do; without a name it has no span. -/
theorem build_among (h : DrawnAll (ImportedName.DrawnFrom mode) l.newestFirst ts)
    (cs : List Char) :
    l.build = ⟨[], none⟩ ∨ ∃ s, l.build.span? = some s ∧ s.Among cs ts := by
  have hspan : ∀ name ∈ l.newestFirst, ∃ s, name.span? = some s ∧ s.Among cs ts := by
    intro name hm
    obtain ⟨us, hus, hname⟩ := h.exists_of_mem hm
    obtain ⟨s, hs, ha⟩ := hname.among cs
    exact ⟨s, hs, ha.of_sublist hus⟩
  cases hl : l.newestFirst with
  | nil => exact .inl (by simp [build, entries, hl, Span.cover?])
  | cons last earlier =>
    obtain ⟨e, he, hlast⟩ := hspan last (by simp [hl])
    obtain ⟨first, later, hentries⟩ : ∃ first later, l.entries = first :: later :=
      List.exists_cons_of_ne_nil (by simp [entries, hl])
    have hm : first ∈ l.entries := by simp [hentries]
    obtain ⟨f, hf, hfirst⟩ := hspan first (List.mem_reverse.mp hm)
    exact .inr ⟨f.cover e, by simp [build, hentries, hl, hf, he, Span.cover?], hfirst.cover hlast⟩

end NameList

-- ---------------------------------------------------------------------------
-- Items
-- ---------------------------------------------------------------------------

theorem Item.DrawnFrom.among {item : Item} (h : item.DrawnFrom mode ts)
    (hs : ts <+ tokensAfter [] (pieces false cs)) :
    ∃ s, item.toNode.span? = some s ∧ s.Among cs ts := by
  rcases h.comment_or_delimited with ⟨us, t, c, rfl, hk, hc, rfl⟩ |
    ⟨us, opening, closing, s, rfl, ho, hd, hspan⟩
  · obtain ⟨p, hp⟩ := exists_start_of_mem_tokensAfter (t := t) (hs.subset (by simp))
    have hcomment := hc
    rw [Comment.ofToken_eq hp] at hcomment
    obtain rfl := Except.ok.inj hcomment
    refine ⟨_, rfl, ⟨t, by simp, p, hp, Comment.le_start_spanFrom p mode _ _⟩, ?_⟩
    intro u q hu hq
    obtain ⟨s, hspan, hbefore⟩ := comment_before ((pair_sublist (by simp) u).trans hu) hk hc hq
    cases hspan
    exact hbefore
  · have hpair : [opening, closing] <+ us ++ [closing] := pair_sublist ho closing
    exact ⟨s, hspan, (hd.among (hpair.trans hs)).of_sublist hpair⟩

end TemplateTree
