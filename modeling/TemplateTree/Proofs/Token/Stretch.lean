import TemplateTree.Proofs.Token.Located

/-!
# Stretches of a text

The tokens of a text cut into stretches: its tags, and the single tokens between them. A
tag goes from the token that opens it to the next one that closes a tag, whether or not
the two belong together, or else to the end of the text. Cutting loses no token
(`Stretch.tokens_ofText`), and as a text alternates between running text and tags, no comment
and no other tag stands inside a tag (`Stretch.wellFormed_ofText`).
-/

namespace TemplateTree

-- ---------------------------------------------------------------------------
-- Inside and outside of tags
-- ---------------------------------------------------------------------------

namespace TokenKind

def opensTag (kind : TokenKind) : Bool := kind ∈ [.blockStart, .variableStart]

def closesTag (kind : TokenKind) : Bool := kind ∈ [.blockEnd, .variableEnd]

/-- The kinds of the tokens that stand between tags. -/
def isPlain (kind : TokenKind) : Bool := kind ∈ [.data, .comment]

/-- The kinds of the tokens that a tag can have between its delimiters. -/
def isInner (kind : TokenKind) : Bool := !kind.opensTag && !kind.closesTag && !kind.isPlain

/-- `kind.Leads inTag inTag'`: a token of this kind can stand inside a tag or outside, and
the text goes on inside a tag or outside. -/
inductive Leads (kind : TokenKind) : Bool → Bool → Prop
  | plain (h : kind.isPlain) : Leads kind false false
  | opening (h : kind.opensTag) : Leads kind false true
  | inner (h : kind.isInner) : Leads kind true true
  | closing (h : kind.closesTag) : Leads kind true false

variable {kind : TokenKind}

theorem isPlain_iff : kind.isPlain = true ↔ kind = .data ∨ kind = .comment := by
  simp [isPlain]

theorem opensTag_iff : kind.opensTag = true ↔ kind = .blockStart ∨ kind = .variableStart := by
  simp [opensTag]

theorem closesTag_iff : kind.closesTag = true ↔ kind = .blockEnd ∨ kind = .variableEnd := by
  simp [closesTag]

theorem opensTag_of_isPlain (h : kind.isPlain) : kind.opensTag = false := by
  rcases isPlain_iff.mp h with rfl | rfl <;> rfl

theorem closesTag_of_isInner (h : kind.isInner) : kind.closesTag = false := by
  simp only [isInner, Bool.and_eq_true, Bool.not_eq_true'] at h
  exact h.1.2

theorem Leads.inTag_of_isInner {inTag inTag' : Bool} (h : kind.Leads inTag inTag')
    (hk : kind.isInner) : inTag = true := by
  simp only [isInner, Bool.and_eq_true, Bool.not_eq_true'] at hk
  cases h with
  | plain hp => rw [hp] at hk; cases hk.2
  | opening ho => rw [ho] at hk; cases hk.1.1
  | inner => rfl
  | closing => rfl

end TokenKind

/-- Tokens that a text can have, from inside a tag or outside. -/
inductive Tagged : Bool → List Token → Prop
  | nil (inTag : Bool) : Tagged inTag []
  | cons {inTag inTag' : Bool} {t : Token} {ts : List Token} (h : t.kind.Leads inTag inTag')
      (hs : Tagged inTag' ts) : Tagged inTag (t :: ts)

theorem Scanned.leads {inTag : Bool} {p : Piece} (h : Scanned inTag p) :
    p.kind.Leads inTag p.inTag := by
  cases h with
  | opener rest hm => rcases kind_of_mem_openers hm with rfl | rfl <;> exact .opening rfl
  | comment | openComment | data => exact .plain rfl
  | closer rest hm => rcases kind_of_mem_closers hm with rfl | rfl <;> exact .closing rfl
  | string | openString | whitespace | regex | openRegex | operator | float => exact .inner rfl
  | @mark c =>
    have hk : delimiterKind c ∈ markKinds :=
      Decidable.byContradiction fun h => delimiterKind_ne h c rfl
    exact .inner ((by decide : ∀ kind ∈ markKinds, kind.isInner) _ hk)
  | @word c run =>
    have hk : wordKind (c :: run) ∈ wordKinds :=
      Decidable.byContradiction fun h => wordKind_ne h (c :: run) rfl
    exact .inner ((by decide : ∀ kind ∈ wordKinds, kind.isInner) _ hk)

theorem tagged_tokensAfter (front : List Char) (inTag : Bool) (cs : List Char) :
    Tagged inTag (tokensAfter front (pieces inTag cs)) := by
  fun_induction pieces inTag cs generalizing front with
  | case1 inTag => exact .nil inTag
  | case2 inTag c cs ih =>
    rw [tokensAfter_cons]
    exact .cons (scanned_scan inTag c cs).leads (ih _)

theorem tagged_lex (text : String) :
    Tagged false ((Lexer.ofText text).lex.1.map Lexeme.toToken) := by
  rw [tokens_lex]
  exact tagged_tokensAfter [] false text.toList

-- ---------------------------------------------------------------------------
-- Cutting
-- ---------------------------------------------------------------------------

/-- A tag by its tokens, from the one that opens it on. -/
structure Tag where
  opening : Token
  inside : List Token := []
  /-- None as long as the tag is open, and where it is left open. -/
  closing? : Option Token := none
  deriving DecidableEq, Repr

namespace Tag

def push (tag : Tag) (t : Token) : Tag := { tag with inside := tag.inside ++ [t] }

def close (tag : Tag) (t : Token) : Tag := { tag with closing? := some t }

def tokens (tag : Tag) : List Token := tag.opening :: tag.inside ++ tag.closing?.toList

/-- The first word of the tag. -/
def keyword? (tag : Tag) : Option String :=
  (tag.inside.find? fun t => t.kind == .symbol).map Token.value

/-- Delimiters stand at the ends of the tag and nowhere between. -/
structure WellFormed (tag : Tag) : Prop where
  opening : tag.opening.kind.opensTag
  inside : ∀ t ∈ tag.inside, t.kind.isInner
  closing : ∀ t ∈ tag.closing?, t.kind.closesTag

theorem tokens_push {tag : Tag} (h : tag.closing? = none) (t : Token) :
    (tag.push t).tokens = tag.tokens ++ [t] := by
  simp [tokens, push, h]

theorem tokens_close {tag : Tag} (h : tag.closing? = none) (t : Token) :
    (tag.close t).tokens = tag.tokens ++ [t] := by
  simp [tokens, close, h]

theorem keyword?_close (tag : Tag) (t : Token) : (tag.close t).keyword? = tag.keyword? := rfl

/-- Only the first word counts. -/
theorem keyword?_push (tag : Tag) (t : Token) :
    (tag.push t).keyword? =
      tag.keyword?.or (if t.kind = .symbol then some t.value else none) := by
  simp only [keyword?, push, List.find?_append, Option.map_or]
  congr 1
  split <;> simp_all

end Tag

inductive Stretch
  /-- A token between tags. -/
  | plain (t : Token)
  | ofTag (tag : Tag)
  deriving DecidableEq, Repr

namespace Stretch

def tokens : Stretch → List Token
  | .plain t => [t]
  | .ofTag tag => tag.tokens

/-- A block that is closed with the delimiter of a variable. -/
def Mismatched : Stretch → Prop
  | .plain _ => False
  | .ofTag tag => tag.opening.kind = .blockStart ∧ ∃ t ∈ tag.closing?, t.kind = .variableEnd

instance : DecidablePred Mismatched
  | .plain _ => inferInstanceAs (Decidable False)
  | .ofTag _ => inferInstanceAs (Decidable (_ ∧ _))

/-- The stretch that a token completes, and the tag that is open after it. -/
def next (open? : Option Tag) (t : Token) : Option Stretch × Option Tag :=
  match open? with
  | none => if t.kind.opensTag then (none, some { opening := t }) else (some (.plain t), none)
  | some tag =>
    if t.kind.closesTag then (some (.ofTag (tag.close t)), none) else (none, some (tag.push t))

/-- The stretches of tokens of which a first tag may be open already. -/
def ofTokens (open? : Option Tag) : List Token → List Stretch
  | [] => open?.toList.map .ofTag
  | t :: ts => (next open? t).1.toList ++ ofTokens (next open? t).2 ts

inductive WellFormed : Stretch → Prop
  | plain {t : Token} (h : t.kind.isPlain) : WellFormed (.plain t)
  | ofTag {tag : Tag} (h : tag.WellFormed) : WellFormed (.ofTag tag)

end Stretch

/-- The stretches of a text. -/
def Stretch.ofText (text : String) : List Stretch :=
  Stretch.ofTokens none ((Lexer.ofText text).lex.1.map Lexeme.toToken)

namespace Stretch

variable {open? : Option Tag} {t : Token} {ts : List Token}

theorem next_plain (h : t.kind.isPlain) : next none t = (some (.plain t), none) := by
  simp only [next, TokenKind.opensTag_of_isPlain h, Bool.false_eq_true, ↓reduceIte]

theorem next_opening (h : t.kind.opensTag) : next none t = (none, some { opening := t }) := by
  simp only [next, h, ↓reduceIte]

theorem next_inner (h : t.kind.isInner) (tag : Tag) :
    next (some tag) t = (none, some (tag.push t)) := by
  simp only [next, TokenKind.closesTag_of_isInner h, Bool.false_eq_true, ↓reduceIte]

theorem next_closing (h : t.kind.closesTag) (tag : Tag) :
    next (some tag) t = (some (.ofTag (tag.close t)), none) := by
  simp only [next, h, ↓reduceIte]

theorem next_tokens (ho : ∀ tag ∈ open?, tag.closing? = none) (t : Token) :
    (next open? t).1.toList.flatMap tokens ++ (next open? t).2.toList.flatMap Tag.tokens =
        open?.toList.flatMap Tag.tokens ++ [t] ∧
      ∀ tag ∈ (next open? t).2, tag.closing? = none := by
  cases open? with
  | none =>
    simp only [next]
    split
    · exact ⟨rfl, by rintro _ ⟨⟩; rfl⟩
    · exact ⟨rfl, by simp⟩
  | some tag =>
    have ho := ho tag rfl
    simp only [next]
    split
    · exact ⟨by simp [tokens, Tag.tokens_close ho], by simp⟩
    · exact ⟨by simp [Tag.tokens_push ho], by rintro _ ⟨⟩; exact ho⟩

theorem tokens_ofTokens (ho : ∀ tag ∈ open?, tag.closing? = none) (ts : List Token) :
    (ofTokens open? ts).flatMap tokens = open?.toList.flatMap Tag.tokens ++ ts := by
  -- the open tag has been cut off already, so its tokens come in front
  induction ts generalizing open? with
  | nil => cases open? <;> simp [ofTokens, tokens]
  | cons t ts ih =>
    obtain ⟨hnext, ho'⟩ := next_tokens ho t
    rw [ofTokens, List.flatMap_append, ih ho', ← List.append_assoc, hnext, List.append_assoc]
    rfl

theorem isSome_next {inTag' : Bool} (h : t.kind.Leads open?.isSome inTag') :
    (next open? t).2.isSome = inTag' := by
  cases open? with
  | none =>
    cases h with
    | plain h => rw [next_plain h]; rfl
    | opening h => rw [next_opening h]; rfl
  | some tag =>
    cases h with
    | inner h => rw [next_inner h]; rfl
    | closing h => rw [next_closing h]; rfl

/-- A token that can stand where it does completes a well-formed stretch or keeps the open
tag well formed. -/
theorem wellFormed_next {inTag' : Bool} (ho : ∀ tag ∈ open?, tag.WellFormed)
    (h : t.kind.Leads open?.isSome inTag') :
    (∀ s ∈ (next open? t).1, s.WellFormed) ∧ ∀ tag ∈ (next open? t).2, tag.WellFormed := by
  cases open? with
  | none =>
    cases h with
    | plain h =>
      rw [next_plain h]
      exact ⟨by rintro _ ⟨⟩; exact .plain h, by simp⟩
    | opening h =>
      rw [next_opening h]
      exact ⟨by simp, by rintro _ ⟨⟩; exact ⟨h, by simp, by simp⟩⟩
  | some tag =>
    obtain ⟨hopening, hinside, hclosing⟩ := ho tag rfl
    cases h with
    | inner h =>
      rw [next_inner h]
      refine ⟨by simp, ?_⟩
      rintro _ ⟨⟩
      refine ⟨hopening, fun u hu => ?_, hclosing⟩
      rcases List.mem_append.mp hu with hu | hu
      · exact hinside u hu
      · rw [List.mem_singleton.mp hu]
        exact h
    | closing h =>
      rw [next_closing h]
      refine ⟨?_, by simp⟩
      rintro _ ⟨⟩
      exact .ofTag ⟨hopening, hinside, by rintro _ ⟨⟩; exact h⟩

theorem wellFormed_ofTokens (ho : ∀ tag ∈ open?, tag.WellFormed)
    (h : Tagged open?.isSome ts) : ∀ s ∈ ofTokens open? ts, s.WellFormed := by
  induction ts generalizing open? with
  | nil =>
    intro s hs
    obtain ⟨tag, ht, rfl⟩ := List.mem_map.mp hs
    exact .ofTag (ho tag (Option.mem_toList.mp ht))
  | cons t ts ih =>
    cases h with
    | cons hk hts =>
      obtain ⟨hdone, hopen⟩ := wellFormed_next ho hk
      intro s hs
      rcases List.mem_append.mp hs with hs | hs
      · exact hdone s (Option.mem_toList.mp hs)
      · exact ih hopen (isSome_next hk ▸ hts) s hs

theorem tokens_ofText (text : String) :
    (ofText text).flatMap tokens = (Lexer.ofText text).lex.1.map Lexeme.toToken :=
  tokens_ofTokens (by simp) _

theorem wellFormed_ofText (text : String) : ∀ s ∈ ofText text, s.WellFormed :=
  wellFormed_ofTokens (by simp) (tagged_lex text)

end Stretch

end TemplateTree
