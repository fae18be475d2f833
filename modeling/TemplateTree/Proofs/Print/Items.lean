import TemplateTree.Proofs.Print.Leads

/-!
# Items that were printed

What a reading takes from the tokens of a printed part: the item that the part
says, whatever was taken before. A comment is one token, and a tag is closed by
its own delimiter.
-/

namespace TemplateTree

variable {options : Options} {ts us : List Token}

-- ---------------------------------------------------------------------------
-- What a reading takes
-- ---------------------------------------------------------------------------

/-- Outside any directive a reading takes from the tokens what is `said`, in
this order and without a note. -/
def Takes (options : Options) (ts : List Token) (said : List Item) : Prop :=
  ∀ items : List Item, ∃ taken : List Item, taken.map (·.mapSpan dropSpan) = said ∧
    (⟨items, none⟩ : Reading).feedAll options ts = pure ⟨taken.reverse ++ items, none⟩

theorem Takes.nil : Takes options [] [] := fun _ => ⟨[], rfl, rfl⟩

theorem Takes.append {said said' : List Item} (h : Takes options ts said)
    (h' : Takes options us said') : Takes options (ts ++ us) (said ++ said') := by
  intro items
  obtain ⟨taken, rfl, hf⟩ := h items
  obtain ⟨taken', rfl, hf'⟩ := h' (taken.reverse ++ items)
  refine ⟨taken ++ taken', List.map_append, ?_⟩
  rw [Reading.feedAll_append, hf, pure_bind, hf', List.reverse_append, List.append_assoc]

theorem Takes.one {item : Item}
    (h : ∃ i : Item, i.mapSpan dropSpan = item ∧ ∀ items,
      (⟨items, none⟩ : Reading).feedAll options ts = pure ⟨i :: items, none⟩) :
    Takes options ts [item] := by
  obtain ⟨i, rfl, hf⟩ := h
  exact fun items => ⟨[i], rfl, hf items⟩

/-- Whatever delimiters the directive stands between, closing it makes the item. -/
def Directive.ClosesTo (mode : PositionMode) (d : Directive) (item : Item) : Prop :=
  ∀ opening closing s, Token.spanTo opening closing mode = .ok s →
    ∃ i : Item, i.mapSpan dropSpan = item ∧ d.close mode opening closing = pure (some i)

theorem takes_tag {atoms : List Atom} {item : Item}
    (h : List.Forall₂ Token.Says ts (tagSayings atoms)) (ho : ts.Pairwise Token.Before)
    (hl : ∀ us, List.Forall₂ Token.Says us (atoms.flatMap Atom.sayings) →
      ∃ d, Directive.Leads options .keyword us d ∧ d.ClosesTo options.positionMode item) :
    Takes options ts [item] := by
  obtain ⟨_, _, rfl, _ | ⟨hopen, hwords⟩, _ | ⟨hclose, _ | _⟩⟩ := says_append h
  obtain ⟨d, hd, hcl⟩ := hl _ hwords
  obtain ⟨p, hp⟩ := hopen.start
  obtain ⟨q, hq⟩ := hclose.start
  have hle : p ≤ q := by
    rw [← Token.before_iff hp hq]
    exact List.rel_of_pairwise_cons ho (by simp)
  obtain ⟨i, hi, hc⟩ := hcl _ _ _ (Token.spanTo_eq hp hq hle options.positionMode)
  exact .one ⟨i, hi, fun items => Reading.feedAll_tag hopen.kind hd hclose.kind hc⟩

-- ---------------------------------------------------------------------------
-- Parts
-- ---------------------------------------------------------------------------

theorem takes_comment {t : Token} {text : PaddedText} {trimLeft trimRight : Bool}
    (h : t.Says (.comment, String.ofList (printComment text.chars trimLeft trimRight))) :
    Takes options [t]
      [.comment { text := String.ofList text.chars, trimLeft, trimRight }] := by
  obtain ⟨p, hp⟩ := h.start
  obtain ⟨s, hc⟩ : ∃ s, Comment.ofToken options.positionMode t =
      .ok ⟨String.ofList text.chars, trimLeft, trimRight, some s⟩ := by
    simp only [Comment.ofToken_eq hp, h.value, String.toList_ofList,
      CommentText.ofRaw_printComment, CommentText.text, trim_padded text.no_lead text.no_tail]
    exact ⟨_, rfl⟩
  refine .one ⟨.comment ⟨String.ofList text.chars, trimLeft, trimRight, some s⟩, rfl, ?_⟩
  intro items
  simp only [Reading.feedAll_cons, Reading.feedAll_nil, Reading.feed, Reading.outside, h.kind, hc]
  rfl

/-- Separators that say nothing leave no trace between what is separated. -/
theorem flatMap_intercalate {α β : Type} (f : α → List β) {a : α} (ha : f a = [])
    (l : List (List α)) : (List.intercalate [a] l).flatMap f = l.flatMap (·.flatMap f) := by
  match l with
  | [] => rfl
  | [x] => simp [List.intercalate]
  | x :: y :: l =>
    have ih := flatMap_intercalate f ha (y :: l)
    rw [List.intercalate, List.intersperse_cons_cons, List.flatten_cons, List.flatten_cons,
      ← List.intercalate, List.flatMap_append, List.flatMap_append, ih]
    simp [ha]

theorem leads_importNames {path : String} {names : List NamePart} {withContext : Bool}
    (h : List.Forall₂ Token.Says ts ((namesAtoms path names withContext).flatMap Atom.sayings)) :
    ∃ d, Directive.Leads options .keyword ts d ∧ d.ClosesTo options.positionMode (.importing {
      template := { value := path }
      withContext
      binding := .names { entries := names.map NamePart.entry } }) := by
  rw [namesAtoms, List.flatMap_append, List.flatMap_append, flatMap_intercalate _ rfl,
    List.flatMap_map] at h
  obtain ⟨_, _, rfl, h, hcontext⟩ := says_append h
  obtain ⟨_, _, rfl, _ | ⟨hfrom, _ | ⟨hpath, _ | ⟨himport, _ | _⟩⟩⟩, hnames⟩ := says_append h
  rw [Word.text_keyword] at hfrom himport
  obtain ⟨s, hlpath, -⟩ := leads_path options hpath
  obtain ⟨es, hes, hlnames⟩ := leads_names options hnames []
  obtain ⟨p, rfl, hlcontext⟩ :=
    leads_names_context options hcontext ⟨path, some s⟩ ⟨es.reverse ++ []⟩
  have hlimport : Directive.Leads options (.importNames ⟨path, some s⟩ {}) _
      (.importNames ⟨path, some s⟩ {}) :=
    leads_names_word himport (ImportNames.feed_import himport {})
  refine ⟨_, (leads_keyword hfrom rfl).append <| hlpath.append <| hlimport.append <|
    (hlnames _).append hlcontext, ?_⟩
  intro opening closing sp hs
  refine ⟨.importing ⟨⟨path, some s⟩, p.isConfirmed,
    .names (NameList.build ⟨es.reverse ++ []⟩), some sp⟩, ?_, ?_⟩
  · simp [Item.mapSpan, Import.mapSpan, Leaf.mapSpan, Binding.mapSpan, ImportedNames.mapSpan,
      NameList.build, NameList.entries, hes, dropSpan]
  · simp only [Directive.close, ImportNames.close, hs]
    rfl

theorem leads_importTarget {path : String} {name : Identifier importReserved} {withContext : Bool}
    (h : List.Forall₂ Token.Says ts ((targetAtoms path name withContext).flatMap Atom.sayings)) :
    ∃ d, Directive.Leads options .keyword ts d ∧ d.ClosesTo options.positionMode (.importing {
      template := { value := path }, withContext, binding := .target { value := name.text } }) := by
  rw [targetAtoms, List.flatMap_append] at h
  obtain ⟨_, _, rfl, _ | ⟨himport, _ | ⟨hpath, _ | ⟨has, _ | ⟨hname, _ | _⟩⟩⟩⟩, hcontext⟩ :=
    says_append h
  rw [Word.text_keyword] at himport has
  obtain ⟨s, -, hlpath⟩ := leads_path options hpath
  obtain ⟨s', hfname⟩ := ImportTarget.feed_name options.positionMode hname name.not_reserved
  obtain ⟨p, rfl, hlcontext⟩ :=
    leads_target_context options hcontext ⟨path, some s⟩ (some ⟨name.text, some s'⟩)
  refine ⟨_, (leads_keyword himport rfl).append <| hlpath.append <|
    (leads_target_word has (ImportTarget.feed_as has)).append <|
    (leads_target_word hname hfname).append hlcontext, ?_⟩
  intro opening closing sp hs
  refine ⟨.importing ⟨⟨path, some s⟩, p.isConfirmed, .target ⟨name.text, some s'⟩, some sp⟩,
    rfl, ?_⟩
  simp only [Directive.close, ImportTarget.close, hs]
  rfl

theorem Directive.closesTo_including {mode : PositionMode} {path : Token} {left? : Option Token}
    {template : IncludePath} (h : IncludeWords.template mode path left? = .ok template)
    (p : Phrase) :
    (including { ignoreMissing := p, path? := some path, left? }).ClosesTo mode
      (.including { ignoreMissing := p.isConfirmed, template := template.mapSpan dropSpan }) := by
  intro opening closing s hs
  refine ⟨.including ⟨p.isConfirmed, template, some s⟩, rfl, ?_⟩
  simp only [close, IncludeWords.close, hs, h]
  rfl

theorem leads_include {path : String} {left? : Option (Identifier includeReserved)}
    {ignoreMissing : Bool}
    (h : List.Forall₂ Token.Says ts
      ((includingAtoms path left? ignoreMissing).flatMap Atom.sayings)) :
    ∃ d, Directive.Leads options .keyword ts d ∧ d.ClosesTo options.positionMode
      (.including { ignoreMissing, template := includePath path left? }) := by
  rw [includingAtoms, List.flatMap_append, List.flatMap_append, List.flatMap_append] at h
  obtain ⟨_, _, rfl, h, hignore⟩ := says_append h
  obtain ⟨_, us, rfl, h, hpath⟩ := says_append h
  obtain ⟨_, _, rfl, _ | ⟨hinclude, _ | _⟩, hoperand⟩ := says_append h
  obtain _ | @⟨t, _, _, _, hpath, _ | _⟩ := hpath
  rw [Word.text_keyword] at hinclude
  obtain ⟨u?, hloperand, hread⟩ := leads_operand options hoperand
  obtain ⟨template, ht, hsaid⟩ := hread hpath
  obtain ⟨p, rfl, hlignore⟩ := leads_including_ignore options hignore (some t) u?
  have hlpath := leads_including options { left? := u? } (t := t)
    (by rw [hpath.kind]; rfl)
  rw [IncludeWords.feed_path hpath] at hlpath
  have hlinclude : Directive.Leads options .keyword _ _ := leads_keyword hinclude rfl
  refine ⟨_, ((hlinclude.append hloperand).append hlpath).append hlignore, ?_⟩
  rw [← hsaid]
  exact Directive.closesTo_including ht p

/-- From what a part says a reading takes what the part says, and nothing else. -/
theorem takes_part (options : Options) {p : Part} (h : List.Forall₂ Token.Says ts p.sayings)
    (ho : ts.Pairwise Token.Before) : Takes options ts p.item?.toList := by
  cases p with
  | data text =>
    cases h
    exact .nil
  | comment text trimLeft trimRight =>
    obtain _ | ⟨ht, _ | _⟩ := h
    exact takes_comment ht
  | importNames path names withContext => exact takes_tag h ho fun _ => leads_importNames
  | importTarget path name withContext => exact takes_tag h ho fun _ => leads_importTarget
  | including path left? ignoreMissing => exact takes_tag h ho fun _ => leads_include

theorem takes_parts (options : Options) {parts : List Part}
    (h : List.Forall₂ Token.Says ts (parts.flatMap Part.sayings)) (ho : ts.Pairwise Token.Before) :
    Takes options ts (parts.filterMap Part.item?) := by
  induction parts generalizing ts with
  | nil =>
    cases h
    exact .nil
  | cons p parts ih =>
    rw [List.flatMap_cons] at h
    obtain ⟨us, vs, rfl, hu, hv⟩ := says_append h
    obtain ⟨hou, hov, -⟩ := List.pairwise_append.mp ho
    have hp := (takes_part options hu hou).append (ih hv hov)
    cases hi : p.item? <;> simpa [hi] using hp

end TemplateTree
