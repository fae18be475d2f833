import TemplateTree.Proofs.Reading.FeedAll
import TemplateTree.Proofs.Token.Placed
import TemplateTree.Tree.Node

/-!
# Keywords and names

The words that have a part of their own in an import are not names. A from-import passes
over all four of them, wherever they stand. A direct import passes over `with`, `context`
and `as`, but takes `import` for a name where that is the next word after an `as`
(`ImportFollowsAs`). `KeywordFree` says this of a reading and of the tokens it has been
fed so far, and one token more preserves it (`Reading.keywordFree_feed`).
-/

namespace TemplateTree

def importKeywords : List String := ["with", "context", "import", "as"]

/-- The token neither gives a name nor ends a directive. -/
def Token.IsNoName (t : Token) : Prop :=
  t.kind ≠ .blockEnd ∧ (t.kind = .symbol → t.value = "with" ∨ t.value = "context")

/-- After an `as` at the end of the tokens no name has come yet. -/
def AwaitsName (ts : List Token) : Prop :=
  ∃ us as ms, ts = us ++ as :: ms ∧ as.isWord "as" ∧ ∀ m ∈ ms, m.IsNoName

/-- Somewhere among the tokens the next word after an `as` is `import`. -/
def ImportFollowsAs (ts : List Token) : Prop :=
  ∃ us t vs, ts = us ++ t :: vs ∧ AwaitsName us ∧ t.isWord "import"

/-- Of the keywords only `import` can be the name of a whole template, and only where it
follows `as`. -/
def Leaf.CanNameTemplate (ts : List Token) (name : Leaf) : Prop :=
  name.value ∈ importKeywords → name.value = "import" ∧ ImportFollowsAs ts

/-- A node that is a name is no keyword, but for the name of a whole template. -/
def Node.KeywordFree (ts : List Token) : Node → Prop
  | .importName name | .aliasKey name | .aliasValue name => name.value ∉ importKeywords
  | .importTarget name => name.CanNameTemplate ts
  | _ => True

def Item.KeywordFree (ts : List Token) (item : Item) : Prop :=
  ∀ node ∈ item.toNode.walk, node.KeywordFree ts

def ImportedName.KeywordFree : ImportedName → Prop
  | .plain name => name.value ∉ importKeywords
  | .aliased entry => entry.key.value ∉ importKeywords ∧ entry.value.value ∉ importKeywords

structure ImportNames.KeywordFree (p : ImportNames) : Prop where
  first : p.withContext.first = "with"
  second : p.withContext.second = "context"
  names : ∀ name ∈ p.names.newestFirst, name.KeywordFree

structure ImportTarget.KeywordFree (ts : List Token) (p : ImportTarget) : Prop where
  first : p.withContext.first = "with"
  second : p.withContext.second = "context"
  awaiting : p.awaiting → AwaitsName ts
  target : ∀ name ∈ p.target?, name.CanNameTemplate ts

def Directive.KeywordFree (ts : List Token) : Directive → Prop
  | .importNames _ part => part.KeywordFree
  | .importTarget _ part => part.KeywordFree ts
  | _ => True

structure Reading.KeywordFree (r : Reading) (ts : List Token) : Prop where
  items : ∀ item ∈ r.newestFirst, item.KeywordFree ts
  open? : ∀ o ∈ r.open?, o.directive.KeywordFree ts

variable {options : Options} {mode : PositionMode} {ts : List Token} {t : Token}

-- ---------------------------------------------------------------------------
-- More tokens
-- ---------------------------------------------------------------------------

theorem AwaitsName.append (h : AwaitsName ts) (ht : t.IsNoName) : AwaitsName (ts ++ [t]) := by
  obtain ⟨us, as, ms, rfl, has, hms⟩ := h
  refine ⟨us, as, ms ++ [t], by simp, has, fun m hm => ?_⟩
  rcases List.mem_append.mp hm with hm | hm
  · exact hms m hm
  · rw [List.mem_singleton.mp hm]
    exact ht

theorem AwaitsName.of_as (ts : List Token) (h : t.isWord "as") : AwaitsName (ts ++ [t]) :=
  ⟨ts, t, [], rfl, h, by simp⟩

theorem ImportFollowsAs.append (h : ImportFollowsAs ts) (us : List Token) :
    ImportFollowsAs (ts ++ us) := by
  obtain ⟨vs, t, ws, rfl, hvs, ht⟩ := h
  exact ⟨vs, t, ws ++ us, by simp, hvs, ht⟩

theorem Leaf.CanNameTemplate.append {name : Leaf} (h : name.CanNameTemplate ts)
    (us : List Token) : name.CanNameTemplate (ts ++ us) :=
  fun hk => (h hk).imp_right fun hf => hf.append us

theorem Node.KeywordFree.append {node : Node} (h : node.KeywordFree ts) (us : List Token) :
    node.KeywordFree (ts ++ us) := by
  cases node with
  | importTarget name => exact Leaf.CanNameTemplate.append h us
  | importName | aliasKey | aliasValue => exact h
  | _ => trivial

theorem Item.KeywordFree.append {item : Item} (h : item.KeywordFree ts) (us : List Token) :
    item.KeywordFree (ts ++ us) := fun node hn => (h node hn).append us

theorem ImportTarget.KeywordFree.append {p : ImportTarget} (h : p.KeywordFree ts)
    (ht : t.IsNoName) : p.KeywordFree (ts ++ [t]) where
  first := h.first
  second := h.second
  awaiting ha := (h.awaiting ha).append ht
  target name hn := (h.target name hn).append [t]

theorem Directive.KeywordFree.append {d : Directive} (h : d.KeywordFree ts) (ht : t.IsNoName) :
    d.KeywordFree (ts ++ [t]) := by
  cases d with
  | importTarget template part => exact ImportTarget.KeywordFree.append h ht
  | importNames template part => exact h
  | _ => trivial

-- ---------------------------------------------------------------------------
-- Nodes
-- ---------------------------------------------------------------------------

theorem ImportedName.KeywordFree.node {name : ImportedName} (h : name.KeywordFree)
    (ts : List Token) : ∀ node ∈ name.toNode.walk, node.KeywordFree ts := by
  cases name with
  | plain name => exact Node.forall_mem_walk_of_leaf rfl h
  | aliased entry =>
    refine Node.forall_mem_walk_iff.mpr ⟨trivial, ?_⟩
    simp only [toNode, Node.children, List.forall_mem_cons]
    exact ⟨Node.forall_mem_walk_of_leaf rfl h.1, Node.forall_mem_walk_of_leaf rfl h.2, by simp⟩

theorem NameList.keywordFree_build {l : NameList} (h : ∀ name ∈ l.newestFirst, name.KeywordFree)
    (ts : List Token) : ∀ node ∈ (Node.importNames l.build).walk, node.KeywordFree ts := by
  refine Node.forall_mem_walk_iff.mpr ⟨trivial, ?_⟩
  simp only [Node.children, List.forall_mem_map]
  exact fun name hm => (h name (List.mem_reverse.mp hm)).node ts

/-- Of an import only the names matter. -/
theorem Item.keywordFree_importing {i : Import}
    (h : ∀ node ∈ i.binding.toNode.walk, node.KeywordFree ts) :
    (Item.importing i).KeywordFree ts := by
  refine Node.forall_mem_walk_iff.mpr ⟨trivial, ?_⟩
  simp only [toNode, Node.children, List.forall_mem_cons]
  exact ⟨Node.forall_mem_walk_of_leaf rfl trivial, h, by simp⟩

theorem Item.keywordFree_including (i : Include) (ts : List Token) :
    (Item.including i).KeywordFree ts := by
  refine Node.forall_mem_walk_iff.mpr ⟨trivial, ?_⟩
  simp only [toNode, Node.children, List.forall_mem_cons]
  refine ⟨?_, by simp⟩
  cases i.template with
  | value path => exact Node.forall_mem_walk_of_leaf rfl trivial
  | expression path =>
    refine Node.forall_mem_walk_iff.mpr ⟨trivial, ?_⟩
    simp only [IncludePath.toNode, Node.children, List.forall_mem_cons]
    exact ⟨Node.forall_mem_walk_of_leaf rfl trivial, Node.forall_mem_walk_of_leaf rfl trivial,
      by simp⟩

-- ---------------------------------------------------------------------------
-- Import directives
-- ---------------------------------------------------------------------------

/-- A word that is neither of the two of the phrase, or no word at all. -/
theorem Phrase.not_mentions {p : Phrase} (h : p.mentions t = false) (hk : t.kind = .symbol) :
    t.value ≠ p.first ∧ t.value ≠ p.second := by
  simpa [mentions, Token.isWord, hk] using h

theorem Phrase.value_of_mentions {p : Phrase} (h : p.mentions t = true) :
    t.kind = .symbol ∧ (t.value = p.first ∨ t.value = p.second) := by
  simp only [mentions, Token.isWord, Bool.or_eq_true, Bool.and_eq_true, beq_iff_eq] at h
  rcases h with ⟨hk, hv⟩ | ⟨hk, hv⟩
  · exact ⟨hk, .inl hv⟩
  · exact ⟨hk, .inr hv⟩

namespace ImportNames

theorem keywordFree_name {p : ImportNames} (h : p.KeywordFree) {name : Leaf}
    (hn : name.value ∉ importKeywords) : (p.name name).Gives (fun _ => True) KeywordFree := by
  obtain ⟨phrase, awaiting?, ⟨names⟩⟩ := p
  obtain ⟨hfirst, hsecond, hnames⟩ := h
  cases awaiting? with
  | none => exact .pure ⟨hfirst, hsecond, List.forall_mem_cons.mpr ⟨hn, hnames⟩⟩
  | some as =>
    cases names with
    | nil => exact .bind (.note trivial) fun _ _ => .pure ⟨hfirst, hsecond, by simp⟩
    | cons last earlier =>
      obtain ⟨hlast, hearlier⟩ := List.forall_mem_cons.mp hnames
      have hkey : last.key.value ∉ importKeywords := by
        cases last with
        | plain name => exact hlast
        | aliased entry => exact hlast.1
      exact .pure ⟨hfirst, hsecond, List.forall_mem_cons.mpr ⟨⟨hkey, hn⟩, hearlier⟩⟩

theorem keywordFree_feed {p : ImportNames} (h : p.KeywordFree) (t : Token) :
    (p.feed mode t).Gives (fun _ => True) KeywordFree := by
  have hp : KeywordFree { p with withContext := p.withContext.feed t } :=
    ⟨h.first, h.second, h.names⟩
  simp only [feed]
  split
  · exact .pure hp
  rename_i hpass
  split
  · exact .pure ⟨hp.first, hp.second, hp.names⟩
  rename_i has
  refine .bind (.ofPlace _) fun s _ => keywordFree_name hp ?_
  simp only [Bool.not_eq_true, Bool.or_eq_false_iff, bne_eq_false_iff_eq, beq_eq_false_iff_ne]
    at hpass has
  have hphrase := Phrase.not_mentions hpass.1.1 hpass.1.2
  rw [h.first, h.second] at hphrase
  simp [importKeywords, hphrase, hpass.2, has]

theorem keywordFree_close {p : ImportNames} (h : p.KeywordFree) (template : Leaf)
    (opening closing : Token) (ts : List Token) :
    (p.close mode template opening closing).Gives (fun _ => True)
      fun i => (Item.importing i).KeywordFree ts := by
  obtain ⟨phrase, awaiting?, names⟩ := p
  have hend : (close mode ⟨phrase, none, names⟩ template opening closing).Gives (fun _ => True)
      fun i => (Item.importing i).KeywordFree ts :=
    .bind (.ofPlace _) fun _ _ =>
      .pure (Item.keywordFree_importing (NameList.keywordFree_build h.names ts))
  cases awaiting? with
  | none => exact hend
  | some as => exact .bind (.ofPlace _) fun _ _ => .bind (.note trivial) fun _ _ => hend

end ImportNames

namespace ImportTarget

theorem keywordFree_feed {p : ImportTarget} (h : p.KeywordFree ts) (hb : t.kind ≠ .blockEnd) :
    (p.feed mode t).Gives (fun _ => True) (KeywordFree (ts ++ [t])) := by
  simp only [feed]
  split
  · -- the token is a word of the phrase or a string
    rename_i hpass
    have ht : t.IsNoName := by
      refine ⟨hb, fun hk => ?_⟩
      have hm : p.withContext.mentions t = true := by simpa [hk] using hpass
      have hv := (Phrase.value_of_mentions hm).2
      rwa [h.first, h.second] at hv
    have hp := h.append ht
    exact .pure ⟨hp.first, hp.second, hp.awaiting, hp.target⟩
  rename_i hpass
  simp only [Bool.not_eq_true, Bool.or_eq_false_iff, bne_eq_false_iff_eq] at hpass
  have htarget : ∀ name ∈ p.target?, name.CanNameTemplate (ts ++ [t]) :=
    fun name hn => (h.target name hn).append [t]
  split
  · rename_i has
    exact .pure ⟨h.first, h.second,
      fun _ => .of_as ts (by simpa [Token.isWord, hpass.2] using has), htarget⟩
  rename_i has
  rw [Bool.not_eq_true, beq_eq_false_iff_ne] at has
  split
  · rename_i hawaiting
    refine .bind (.ofPlace _) fun s _ => .pure ⟨h.first, h.second, by simp, ?_⟩
    rintro name ⟨⟩ hk
    have hphrase := Phrase.not_mentions hpass.1 hpass.2
    rw [h.first, h.second] at hphrase
    have himport : t.value = "import" := by simpa [importKeywords, hphrase, has] using hk
    have ht : t.isWord "import" := by simp [Token.isWord, hpass.2, himport]
    exact ⟨himport, ts, t, [], rfl, h.awaiting hawaiting, ht⟩
  · rename_i hawaiting
    exact .pure ⟨h.first, h.second, fun ha => absurd ha hawaiting, htarget⟩

theorem keywordFree_close {p : ImportTarget} (h : p.KeywordFree ts) (template : Leaf)
    (opening closing : Token) :
    (p.close mode template opening closing).Gives (fun _ => True)
      fun i => (Item.importing i).KeywordFree (ts ++ [closing]) := by
  refine .bind (.ofPlace _) fun s _ => ?_
  split
  · exact .fail _
  · rename_i name hn
    have htarget := (h.target name hn).append [closing]
    exact .pure (Item.keywordFree_importing (Node.forall_mem_walk_of_leaf rfl htarget))

end ImportTarget

-- ---------------------------------------------------------------------------
-- Directives and readings
-- ---------------------------------------------------------------------------

namespace Directive

/-- What goes on is free of keywords, and so is the item that is done. -/
def Frees (ts : List Token) : Progress Directive (Option Item) → Prop
  | .reading d => d.KeywordFree ts
  | .done item? => ∀ item ∈ item?, item.KeywordFree ts

theorem keywordFree_ofKeyword (t : Token) (ts : List Token) :
    (ofKeyword options t).Gives (fun _ => True) (Frees ts) := by
  have hnone : Frees ts (.done none) := by rintro _ ⟨⟩
  unfold ofKeyword
  split
  · rename_i d hd
    refine .pure ?_
    rcases modeled_cases hd with ⟨-, rfl⟩ | ⟨-, rfl⟩ | ⟨-, rfl⟩ <;> trivial
  split
  · refine .bind (.note trivial) fun _ _ => ?_
    split
    · exact .bind (.ofPlace _) fun _ _ => .bind (.note trivial) fun _ _ => .pure hnone
    · exact .pure hnone
  · exact .bind (.note trivial) fun _ _ => .pure hnone

theorem keywordFree_word {d : Directive} (h : d.KeywordFree ts) (hb : t.kind ≠ .blockEnd) :
    (d.word options t).Gives (fun _ => True) (Frees (ts ++ [t])) := by
  cases d with
  | keyword =>
    simp only [word]
    split
    · exact keywordFree_ofKeyword t _
    · exact .pure trivial
  | importPath form =>
    simp only [word]
    split
    · refine .bind (.ofPlace _) fun _ _ => ?_
      cases form with
      | names => exact .pure ⟨rfl, rfl, by simp⟩
      | target => exact .pure ⟨rfl, rfl, by simp, by rintro _ ⟨⟩⟩
    · exact .pure trivial
  | importNames template part =>
    exact .bind (ImportNames.keywordFree_feed h t) fun _ hp => .pure hp
  | importTarget template part =>
    exact .bind (ImportTarget.keywordFree_feed h hb) fun _ hp => .pure hp
  | including part => exact .pure trivial

theorem keywordFree_close {d : Directive} (h : d.KeywordFree ts) (opening closing : Token) :
    (d.close mode opening closing).Gives (fun _ => True)
      fun item? => ∀ item ∈ item?, item.KeywordFree (ts ++ [closing]) := by
  cases d with
  | keyword => exact .pure (by rintro _ ⟨⟩)
  | importPath form => exact .bind (.ofPlace _) fun _ _ => .fail _
  | importNames template part =>
    refine .bind (ImportNames.keywordFree_close h template opening closing (ts ++ [closing]))
      fun i hi => .pure ?_
    rintro _ ⟨⟩
    exact hi
  | importTarget template part =>
    refine .bind (ImportTarget.keywordFree_close h template opening closing) fun i hi => .pure ?_
    rintro _ ⟨⟩
    exact hi
  | including part =>
    refine .bind (.any _) fun i _ => .pure ?_
    rintro _ ⟨⟩
    exact Item.keywordFree_including i _

theorem keywordFree_feed {d : Directive} (h : d.KeywordFree ts) (opening t : Token) :
    (d.feed options opening t).Gives (fun _ => True) (Frees (ts ++ [t])) := by
  have hb (h : t.role ≠ .closing) : t.kind ≠ .blockEnd := fun hk => h (Token.role_eq_closing.mpr hk)
  simp only [feed]
  cases hr : t.role with
  | closing => exact .bind (keywordFree_close h opening t) fun _ hi => .pure hi
  | word => exact keywordFree_word h (hb (by simp [hr]))
  | passedOver =>
    refine .pure (h.append ⟨hb (by simp [hr]), fun hk => ?_⟩)
    simp [Token.role, hk, TokenKind.isSignificant] at hr

end Directive

namespace Reading

theorem keywordFree_start : ({} : Reading).KeywordFree [] :=
  ⟨by rintro _ ⟨⟩, by rintro _ ⟨⟩⟩

theorem keywordFree_feed {r : Reading} (h : r.KeywordFree ts) (t : Token) :
    (r.feed options t).Gives (fun _ => True) fun r' => r'.KeywordFree (ts ++ [t]) := by
  obtain ⟨items, open?⟩ := r
  have hitems : ∀ item ∈ items, item.KeywordFree (ts ++ [t]) :=
    fun item hm => (h.items item hm).append [t]
  cases open? with
  | none =>
    simp only [feed, outside]
    split
    · refine .bind (.ofPlace _) fun c _ => .pure ⟨?_, by rintro _ ⟨⟩⟩
      exact List.forall_mem_cons.mpr ⟨Node.forall_mem_walk_of_leaf rfl trivial, hitems⟩
    · exact .pure ⟨hitems, by rintro _ ⟨⟩; trivial⟩
    · exact .pure ⟨hitems, by rintro _ ⟨⟩⟩
  | some o =>
    refine .bind (Directive.keywordFree_feed (h.open? o rfl) o.opening t) fun x hx => ?_
    cases x with
    | reading d => exact .pure ⟨hitems, by rintro _ ⟨⟩; exact hx⟩
    | done item? =>
      refine .pure ⟨fun item hm => ?_, by rintro _ ⟨⟩⟩
      rcases List.mem_append.mp hm with hm | hm
      · exact hx item (Option.mem_toList.mp hm)
      · exact hitems item hm

theorem keywordFree_feedAll {r : Reading} (h : r.KeywordFree ts) (us : List Token) :
    (r.feedAll options us).Gives (fun _ => True) fun r' => r'.KeywordFree (ts ++ us) :=
  gives_feedAll (N := fun _ _ => True) (I := KeywordFree) (fun _ _ _ _ => trivial)
    (fun _ _ t h => keywordFree_feed h t) ts h us

end Reading

end TemplateTree
