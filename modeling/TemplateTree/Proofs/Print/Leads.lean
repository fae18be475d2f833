import Mathlib.Data.List.Forall2
import TemplateTree.Proofs.Print.Scans
import TemplateTree.Proofs.Token.Placed
import TemplateTree.Proofs.Tree.MapSpan

/-!
# Reading what was printed

What the words of a printed tag make of a directive, word by word and without a
note, up to the item that the closing delimiter makes of it. The spans on the
way are some spans; what the item says is told without them.
-/

namespace TemplateTree

/-- The token says it, and has a valid place. -/
structure Token.Says (t : Token) (w : Saying) : Prop where
  kind : t.kind = w.1
  value : t.value = w.2
  start : ∃ p, t.start = .ok p

theorem says_append {ts : List Token} {ws ws' : List Saying}
    (h : List.Forall₂ Token.Says ts (ws ++ ws')) :
    ∃ us vs, ts = us ++ vs ∧ List.Forall₂ Token.Says us ws ∧ List.Forall₂ Token.Says vs ws' := by
  induction ws generalizing ts with
  | nil => exact ⟨[], ts, rfl, .nil, h⟩
  | cons w ws ih =>
    cases h with
    | cons ht h =>
      obtain ⟨us, vs, rfl, hu, hv⟩ := ih h
      exact ⟨_ :: us, vs, rfl, .cons ht hu, hv⟩

variable {options : Options} {mode : PositionMode} {t : Token} {ts us : List Token}

theorem Token.Says.exists_span {w : Saying} (h : t.Says w) (mode : PositionMode) :
    ∃ s, t.span mode = .ok s := by
  obtain ⟨p, hp⟩ := h.start
  exact ⟨_, Token.span_eq hp mode⟩

theorem Token.Says.isWord {text : String} (h : t.Says (.symbol, text)) (word : String) :
    t.isWord word = (text == word) := by
  simp [Token.isWord, h.kind, h.value]

/-- The words lead from one state of a directive to another, without a note. -/
inductive Directive.Leads (options : Options) : Directive → List Token → Directive → Prop
  | nil (d : Directive) : Leads options d [] d
  | cons {d d' d'' : Directive} {t : Token} {ts : List Token} (hk : t.kind.isSignificant)
      (h : d.word options t = pure (.reading d')) (hs : Leads options d' ts d'') :
      Leads options d (t :: ts) d''

namespace Directive

variable {d d' d'' : Directive}

theorem Leads.append (h : Leads options d ts d') (h' : Leads options d' us d'') :
    Leads options d (ts ++ us) d'' := by
  induction h with
  | nil => exact h'
  | cons hk hw _ ih => exact .cons hk hw (ih h')

theorem Leads.one (hk : t.kind.isSignificant) (h : d.word options t = pure (.reading d')) :
    Leads options d [t] d' := .cons hk h (.nil d')

end Directive

namespace Reading

variable {opening closing : Token} {items : List Item} {d d' : Directive}

theorem feedAll_of_leads (h : Directive.Leads options d ts d') :
    (⟨items, some ⟨opening, d⟩⟩ : Reading).feedAll options ts =
      pure ⟨items, some ⟨opening, d'⟩⟩ := by
  induction h with
  | nil => rfl
  | cons hk hw _ ih =>
    simp only [feedAll_cons, feed, inside, Directive.feed, Token.role_eq_word hk, hw, pure_bind]
    exact ih

/-- A whole tag: its words lead to a directive, and its closing delimiter makes an item of it. -/
theorem feedAll_tag {item : Item} (ho : opening.kind = .blockStart)
    (hl : Directive.Leads options .keyword ts d) (hc : closing.kind = .blockEnd)
    (h : d.close options.positionMode opening closing = pure (some item)) :
    (⟨items, none⟩ : Reading).feedAll options (opening :: (ts ++ [closing])) =
      pure ⟨item :: items, none⟩ := by
  have hopen : (⟨items, none⟩ : Reading).feed options opening =
      pure ⟨items, some ⟨opening, .keyword⟩⟩ := by
    simp only [feed, outside, ho]
  have hclose : (⟨items, some ⟨opening, d⟩⟩ : Reading).feed options closing =
      pure ⟨item :: items, none⟩ := by
    simp only [feed, inside, Directive.feed, Token.role_eq_closing.mpr hc, h, pure_bind]
    rfl
  rw [feedAll_cons, hopen, pure_bind, feedAll_append, feedAll_of_leads hl, pure_bind, feedAll_cons,
    hclose, pure_bind, feedAll_nil]

end Reading

-- ---------------------------------------------------------------------------
-- Keywords, paths and phrases
-- ---------------------------------------------------------------------------

theorem leads_keyword {text : String} {d : Directive} (h : t.Says (.symbol, text))
    (hl : Directive.modeled.lookup text = some d) : Directive.Leads options .keyword [t] d := by
  refine .one (by rw [h.kind]; rfl) ?_
  simp only [Directive.word, h.kind, ↓reduceIte, Directive.ofKeyword, h.value, hl]

theorem leads_path (options : Options) {path : String} (h : t.Says (.string, path)) :
    ∃ s, Directive.Leads options (.importPath .names) [t] (.importNames ⟨path, some s⟩ {}) ∧
      Directive.Leads options (.importPath .target) [t] (.importTarget ⟨path, some s⟩ {}) := by
  obtain ⟨s, hs⟩ := h.exists_span options.positionMode
  have hk : t.kind.isSignificant := by rw [h.kind]; rfl
  refine ⟨s, .one hk ?_, .one hk ?_⟩
  all_goals
    simp only [Directive.word, h.kind, h.value, hs, ↓reduceIte]
    rfl

theorem Phrase.feed_of_idle {p : Phrase} (hp : p.state = .idle) (h : t.isWord p.first = false) :
    p.feed t = p := by
  obtain ⟨first, second, state⟩ := p
  obtain rfl : state = .idle := hp
  simp [feed, after, h]

/-- What the phrase says if it is printed. -/
def Phrase.sayings (p : Phrase) (said : Bool) : List Saying :=
  if said then [(.symbol, p.first), (.symbol, p.second)] else []

theorem sayings_contextAtoms (said : Bool) :
    (contextAtoms said).flatMap Atom.sayings = withContext.sayings said := by
  cases said <;> simp [contextAtoms, Atom.sayings, Phrase.sayings, withContext]

theorem sayings_ignoreAtoms (said : Bool) :
    (ignoreAtoms said).flatMap Atom.sayings = ignoreMissing.sayings said := by
  cases said <;> simp [ignoreAtoms, Atom.sayings, Phrase.sayings, ignoreMissing]

/-- A phrase after its first word. -/
def Phrase.begun (p : Phrase) : Phrase := { p with state := .pending }

/-- A phrase after both its words. -/
def Phrase.done (p : Phrase) : Phrase := { p with state := .confirmed }

theorem Phrase.feed_first {p : Phrase} (hp : p.state = .idle) (h : t.isWord p.first) :
    p.feed t = p.begun := by
  simp [feed, after, hp, h, begun]

theorem Phrase.feed_second {p : Phrase} (h : t.isWord p.first = false) (h' : t.isWord p.second) :
    p.begun.feed t = p.done := by
  simp [feed, after, begun, h, h', done]

/-- A printed phrase is confirmed, and one that is not printed is not. The
directive `k` that holds the phrase passes it the words that it mentions. -/
theorem leads_phrase {p : Phrase} {said : Bool} (hp : p.state = .idle) (hne : p.first ≠ p.second)
    (k : Phrase → Directive)
    (hk : ∀ {q : Phrase} {t : Token} {text : String}, t.Says (.symbol, text) → q.mentions t →
      Directive.Leads options (k q) [t] (k (q.feed t)))
    (h : List.Forall₂ Token.Says ts (p.sayings said)) :
    ∃ q : Phrase, q.isConfirmed = said ∧ Directive.Leads options (k p) ts (k q) := by
  cases said with
  | false =>
    cases h
    exact ⟨p, by simp [Phrase.isConfirmed, hp], .nil _⟩
  | true =>
    obtain _ | ⟨ht, _ | ⟨hu, _ | _⟩⟩ := h
    have hfirst := hk (q := p) ht (by simp [Phrase.mentions, ht.isWord])
    have hsecond := hk (q := p.begun) hu (by simp [Phrase.mentions, hu.isWord, Phrase.begun])
    rw [Phrase.feed_first hp (by simp [ht.isWord])] at hfirst
    rw [Phrase.feed_second (by simp [hu.isWord, hne.symm]) (by simp [hu.isWord])] at hsecond
    exact ⟨p.done, rfl, hfirst.append hsecond⟩

theorem feed_withContext {text : String} (h : t.Says (.symbol, text)) (hn : text ≠ "with") :
    withContext.feed t = withContext :=
  Phrase.feed_of_idle rfl (by rw [h.isWord]; simpa [withContext] using hn)

theorem mentions_withContext {text : String} (h : t.Says (.symbol, text)) :
    withContext.mentions t = (text == "with" || text == "context") := by
  simp only [Phrase.mentions, h.isWord]
  rfl

-- ---------------------------------------------------------------------------
-- Imported names
-- ---------------------------------------------------------------------------

namespace ImportNames

variable {text : String}

theorem feed_import (h : t.Says (.symbol, "import")) (names : NameList) :
    feed mode { names } t = pure { names } := by
  simp [feed, feed_withContext h (by decide), h.kind, h.value]

theorem feed_as (h : t.Says (.symbol, "as")) (names : NameList) :
    feed mode { names } t = pure { names, awaiting? := some t } := by
  simp [feed, feed_withContext h (by decide), mentions_withContext h, h.kind, h.value]

theorem feed_eq_name (mode : PositionMode) (h : t.Says (.symbol, text))
    (hn : text ∉ importReserved) :
    ∃ s, ∀ awaiting? names, feed mode { awaiting?, names } t =
      name { awaiting?, names } ⟨text, some s⟩ := by
  obtain ⟨s, hs⟩ := h.exists_span mode
  simp only [importReserved, List.mem_cons, List.not_mem_nil, or_false, not_or] at hn
  obtain ⟨hwith, hcontext, himport, has⟩ := hn
  refine ⟨s, fun awaiting? names => ?_⟩
  simp only [feed, feed_withContext h hwith, mentions_withContext h, h.kind, h.value, hs]
  simp [hwith, hcontext, himport, has]
  rfl

theorem feed_of_mentions {p : ImportNames} (h : p.withContext.mentions t) :
    p.feed mode t = pure { p with withContext := p.withContext.feed t } := by
  simp only [feed, h, Bool.true_or, ↓reduceIte]

end ImportNames

theorem leads_names_word {template : Leaf} {p q : ImportNames} {text : String}
    (h : t.Says (.symbol, text)) (hf : p.feed options.positionMode t = pure q) :
    Directive.Leads options (.importNames template p) [t] (.importNames template q) := by
  refine .one (by rw [h.kind]; rfl) ?_
  simp only [Directive.word, hf, pure_bind]

theorem leads_name (options : Options) {n : NamePart}
    (h : List.Forall₂ Token.Says ts (n.atoms.flatMap Atom.sayings)) (l : List ImportedName) :
    ∃ e : ImportedName, e.mapSpan dropSpan = n.entry ∧ ∀ template,
      Directive.Leads options (.importNames template { names := ⟨l⟩ }) ts
        (.importNames template { names := ⟨e :: l⟩ }) := by
  obtain ⟨name, alias?⟩ := n
  cases alias? with
  | none =>
    obtain _ | ⟨ht, _ | _⟩ := h
    obtain ⟨s, hs⟩ := ImportNames.feed_eq_name options.positionMode ht name.not_reserved
    exact ⟨.plain ⟨name.text, some s⟩, rfl, fun template => leads_names_word ht (hs none ⟨l⟩)⟩
  | some other =>
    obtain _ | ⟨ht, _ | ⟨ha, _ | ⟨hu, _ | _⟩⟩⟩ := h
    rw [Word.text_keyword] at ha
    obtain ⟨s, hs⟩ := ImportNames.feed_eq_name options.positionMode ht name.not_reserved
    obtain ⟨s', hs'⟩ := ImportNames.feed_eq_name options.positionMode hu other.not_reserved
    let key : Leaf := ⟨name.text, some s⟩
    refine ⟨.aliased ⟨key, ⟨other.text, some s'⟩, some (s.cover s')⟩, rfl, ?_⟩
    intro template
    have hkey : Directive.Leads options (.importNames template { names := ⟨l⟩ }) [_]
        (.importNames template { names := ⟨.plain key :: l⟩ }) :=
      leads_names_word ht (hs none ⟨l⟩)
    have has : Directive.Leads options (.importNames template { names := ⟨.plain key :: l⟩ }) [_]
        (.importNames template { names := ⟨.plain key :: l⟩, awaiting? := some _ }) :=
      leads_names_word ha (ImportNames.feed_as ha ⟨.plain key :: l⟩)
    exact hkey.append (has.append (leads_names_word hu (hs' _ ⟨.plain key :: l⟩)))

theorem leads_names (options : Options) {names : List NamePart}
    (h : List.Forall₂ Token.Says ts (names.flatMap fun n => n.atoms.flatMap Atom.sayings))
    (l : List ImportedName) :
    ∃ es : List ImportedName, es.map (·.mapSpan dropSpan) = names.map NamePart.entry ∧
      ∀ template, Directive.Leads options (.importNames template { names := ⟨l⟩ }) ts
        (.importNames template { names := ⟨es.reverse ++ l⟩ }) := by
  induction names generalizing ts l with
  | nil =>
    cases h
    exact ⟨[], rfl, fun template => .nil _⟩
  | cons n names ih =>
    rw [List.flatMap_cons] at h
    obtain ⟨us, vs, rfl, hu, hv⟩ := says_append h
    obtain ⟨e, he, hl⟩ := leads_name options hu l
    obtain ⟨es, hes, hls⟩ := ih hv (e :: l)
    refine ⟨e :: es, by simp [he, hes], ?_⟩
    intro template
    rw [List.reverse_cons, List.append_assoc]
    exact (hl template).append (hls template)

theorem leads_names_context (options : Options) {withContext : Bool}
    (h : List.Forall₂ Token.Says ts ((contextAtoms withContext).flatMap Atom.sayings))
    (template : Leaf) (names : NameList) :
    ∃ p : Phrase, p.isConfirmed = withContext ∧
      Directive.Leads options (.importNames template { names }) ts
        (.importNames template { withContext := p, names }) := by
  rw [sayings_contextAtoms] at h
  exact leads_phrase rfl (by decide) (fun p => .importNames template { withContext := p, names })
    (fun ht hm => leads_names_word ht (ImportNames.feed_of_mentions hm)) h

-- ---------------------------------------------------------------------------
-- Imported templates
-- ---------------------------------------------------------------------------

namespace ImportTarget

theorem feed_as (h : t.Says (.symbol, "as")) : feed mode {} t = pure { awaiting := true } := by
  simp [feed, feed_withContext h (by decide), mentions_withContext h, h.kind, h.value]

theorem feed_name (mode : PositionMode) {text : String} (h : t.Says (.symbol, text))
    (hn : text ∉ importReserved) :
    ∃ s, feed mode { awaiting := true } t = pure { target? := some ⟨text, some s⟩ } := by
  obtain ⟨s, hs⟩ := h.exists_span mode
  simp only [importReserved, List.mem_cons, List.not_mem_nil, or_false, not_or] at hn
  obtain ⟨hwith, hcontext, -, has⟩ := hn
  refine ⟨s, ?_⟩
  simp only [feed, feed_withContext h hwith, mentions_withContext h, h.kind, h.value, hs]
  simp [hwith, hcontext, has]
  rfl

theorem feed_of_mentions {p : ImportTarget} (h : p.withContext.mentions t) :
    p.feed mode t = pure { p with withContext := p.withContext.feed t } := by
  simp only [feed, h, Bool.true_or, ↓reduceIte]

end ImportTarget

theorem leads_target_word {template : Leaf} {p q : ImportTarget} {text : String}
    (h : t.Says (.symbol, text)) (hf : p.feed options.positionMode t = pure q) :
    Directive.Leads options (.importTarget template p) [t] (.importTarget template q) := by
  refine .one (by rw [h.kind]; rfl) ?_
  simp only [Directive.word, hf, pure_bind]

theorem leads_target_context (options : Options) {withContext : Bool}
    (h : List.Forall₂ Token.Says ts ((contextAtoms withContext).flatMap Atom.sayings))
    (template : Leaf) (target? : Option Leaf) :
    ∃ p : Phrase, p.isConfirmed = withContext ∧
      Directive.Leads options (.importTarget template { target? }) ts
        (.importTarget template { withContext := p, target? }) := by
  rw [sayings_contextAtoms] at h
  exact leads_phrase rfl (by decide) (fun p => .importTarget template { withContext := p, target? })
    (fun ht hm => leads_target_word ht (ImportTarget.feed_of_mentions hm)) h

-- ---------------------------------------------------------------------------
-- Includes
-- ---------------------------------------------------------------------------

namespace IncludeWords

theorem feed_path {path : String} (h : t.Says (.string, path)) (left? : Option Token) :
    feed { left? } t = { left?, path? := some t } := by
  have hw : ∀ word, t.isWord word = false := by simp [Token.isWord, h.kind]
  simp [feed, Phrase.feed_of_idle (p := TemplateTree.ignoreMissing) rfl (hw _), Phrase.mentions, hw,
    h.kind]

theorem feed_left {text : String} (h : t.Says (.symbol, text)) (hn : text ∉ includeReserved) :
    feed {} t = { left? := some t } := by
  simp only [includeReserved, List.mem_cons, List.not_mem_nil, or_false, not_or] at hn
  have hf : TemplateTree.ignoreMissing.feed t = TemplateTree.ignoreMissing :=
    Phrase.feed_of_idle rfl (by rw [h.isWord]; simpa [TemplateTree.ignoreMissing] using hn.1)
  have hm : TemplateTree.ignoreMissing.mentions t = false := by
    simp only [Phrase.mentions, h.isWord]
    simpa [TemplateTree.ignoreMissing] using hn
  simp [feed, hf, hm, h.kind]

theorem feed_of_mentions {p : IncludeWords} (h : p.ignoreMissing.mentions t) :
    p.feed t = { p with ignoreMissing := p.ignoreMissing.feed t } := by
  simp only [feed, h, ↓reduceIte]

end IncludeWords

theorem leads_including (options : Options) (p : IncludeWords) (hk : t.kind.isSignificant) :
    Directive.Leads options (.including p) [t] (.including (p.feed t)) := .one hk rfl

/-- A left operand, if there is one, is kept for the path that follows it. -/
theorem leads_operand (options : Options) {left? : Option (Identifier includeReserved)}
    (h : List.Forall₂ Token.Says ts ((operandAtoms left?).flatMap Atom.sayings)) :
    ∃ u?, Directive.Leads options (.including {}) ts (.including { left? := u? }) ∧
      ∀ {t : Token} {path : String}, t.Says (.string, path) →
        ∃ template, IncludeWords.template mode t u? = .ok template ∧
          template.mapSpan dropSpan = includePath path left? := by
  cases left? with
  | none =>
    cases h
    refine ⟨none, .nil _, ?_⟩
    intro t path ht
    obtain ⟨s, hs⟩ := ht.exists_span mode
    refine ⟨.value ⟨t.value, some s⟩, ?_, by rw [ht.value]; rfl⟩
    simp only [IncludeWords.template, hs]
    rfl
  | some left =>
    obtain _ | @⟨u, _, _, _, hu, _ | _⟩ := h
    have hl := leads_including options {} (t := u) (by rw [hu.kind]; rfl)
    rw [IncludeWords.feed_left hu left.not_reserved] at hl
    refine ⟨some u, hl, ?_⟩
    intro t path ht
    obtain ⟨s, hs⟩ := ht.exists_span mode
    obtain ⟨s', hs'⟩ := hu.exists_span mode
    refine ⟨.expression ⟨⟨u.value, some s'⟩, ⟨t.value, some s⟩, some (s'.cover s)⟩, ?_,
      by rw [ht.value, hu.value]; rfl⟩
    simp only [IncludeWords.template, hs, hs']
    rfl

theorem leads_including_ignore (options : Options) {ignoreMissing : Bool}
    (h : List.Forall₂ Token.Says ts ((ignoreAtoms ignoreMissing).flatMap Atom.sayings))
    (path? left? : Option Token) :
    ∃ p : Phrase, p.isConfirmed = ignoreMissing ∧
      Directive.Leads options (.including { path?, left? }) ts
        (.including { ignoreMissing := p, path?, left? }) := by
  rw [sayings_ignoreAtoms] at h
  refine leads_phrase rfl (by decide)
    (fun p => .including { ignoreMissing := p, path?, left? }) ?_ h
  intro p t text ht hm
  have hl := leads_including options { ignoreMissing := p, path?, left? } (t := t)
    (by rw [ht.kind]; rfl)
  rwa [IncludeWords.feed_of_mentions hm] at hl

end TemplateTree
