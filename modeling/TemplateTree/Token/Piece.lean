import TemplateTree.Diagnostic.Code
import TemplateTree.Token.Literal

/-!
# Scanning one token

A template is read in two regimes: running text with comments, and the inside
of a tag. `scan` takes one token off a nonempty text; which regime holds for
what is left is part of its answer. Nothing is skipped: the slice taken and
the rest make up the text (`slice_append_rest_scan`), and the slice is never
empty.

A comment is one token with its delimiters. Its end is looked for from the
third character on, so the hash sign that opens it cannot also close it.
-/

namespace TemplateTree

structure Piece where
  kind : TokenKind
  /-- What is taken off the text. -/
  slice : List Char
  /-- What the slice stands for; the slice itself but for string literals. -/
  value : List Char
  rest : List Char
  /-- Whether the rest starts inside a tag. -/
  inTag : Bool
  problem? : Option Code := none
  deriving DecidableEq, Repr

def openers : List (List Char × TokenKind) := [
  (['{', '%', '-'], .blockStart), (['{', '%'], .blockStart),
  (['{', '{', '-'], .variableStart), (['{', '{'], .variableStart)]

def closers : List (List Char × TokenKind) := [
  (['-', '%', '}'], .blockEnd), (['%', '}'], .blockEnd),
  (['-', '}', '}'], .variableEnd), (['}', '}'], .variableEnd)]

/-- The first delimiter of a table with which the text starts. -/
def delimiterPiece? (table : List (List Char × TokenKind)) (inTag : Bool) (cs : List Char) :
    Option Piece :=
  table.findSome? fun (delimiter, kind) =>
    (after? delimiter cs).map fun rest => ⟨kind, delimiter, delimiter, rest, inTag, none⟩

/-- Where running text ends: at the start of a tag or a comment. -/
def startsMarkup : List Char → Bool
  | '{' :: c :: _ => c == '%' || c == '{' || c == '#'
  | _ => false

def endsComment (cs : List Char) : Bool := ['#', '}'].isPrefixOf cs

/-- A comment, from what follows its opening delimiter. -/
def scanComment (cs : List Char) : Piece :=
  let (body, tail) := splitWhen endsComment cs
  match after? ['#', '}'] tail with
  | some rest =>
    let slice := '{' :: '#' :: body ++ ['#', '}']
    ⟨.comment, slice, slice, rest, false, none⟩
  | none =>
    let slice := '{' :: '#' :: body
    ⟨.comment, slice, slice, tail, false, some .unterminatedComment⟩

def scanOutside (c : Char) (cs : List Char) : Piece :=
  match delimiterPiece? openers true (c :: cs) with
  | some piece => piece
  | none =>
    match after? ['{', '#'] (c :: cs) with
    | some body => scanComment body
    | none =>
      let (run, rest) := splitWhen startsMarkup cs
      ⟨.data, c :: run, c :: run, rest, false, none⟩

/-- A string literal, from what follows its opening quote. -/
def scanString (quote : Char) (cs : List Char) : Piece :=
  let cut := cutAt quote cs
  if cut.closed then
    ⟨.string, quote :: cut.body ++ [quote], decodeString cut.body, cut.rest, true, none⟩
  else
    ⟨.string, quote :: cut.body, decodeString cut.body, cut.rest, true, some .unterminatedString⟩

/-- A regular expression, from what follows its opening slash. Left open, it
runs to the end of the text, which is not a problem worth a report. -/
def scanRegex (cs : List Char) : Piece :=
  let cut := cutAt '/' cs
  let (flags, rest) := splitRun isRegexFlag cut.rest
  let slice := 'r' :: '/' :: cut.body ++ (if cut.closed then '/' :: flags else flags)
  ⟨.regex, slice, slice, rest, true, none⟩

/-- An operator or a punctuation mark, the longest that fits. -/
def scanOperator (c : Char) (cs : List Char) : Piece :=
  match delimiterPiece? (longOperators.map (·, .operator)) true (c :: cs) with
  | some piece => piece
  | none => ⟨delimiterKind c, [c], [c], cs, true, none⟩

/-- A word. A number may go on with a point and more digits, or none. -/
def scanWord (c : Char) (cs : List Char) : Piece :=
  let (run, rest) := splitRun isWordChar cs
  let word := c :: run
  match wordKind word, rest with
  | .int, '.' :: rest =>
    let (digits, rest) := splitRun Char.isDigit rest
    let slice := word ++ '.' :: digits
    ⟨.float, slice, slice, rest, true, none⟩
  | kind, rest => ⟨kind, word, word, rest, true, none⟩

def scanInside (c : Char) (cs : List Char) : Piece :=
  -- a closing delimiter ends the tag wherever it stands but in a string or a regular expression
  if c = '"' ∨ c = '\'' then scanString c cs
  else if isTagSpace c then
    let (run, rest) := splitRun isTagSpace cs
    ⟨.whitespace, c :: run, c :: run, rest, true, none⟩
  else
    match delimiterPiece? closers false (c :: cs) with
    | some piece => piece
    | none =>
      match c, cs with
      -- elsewhere `r` starts a word and the slash is an operator
      | 'r', '/' :: body => scanRegex body
      | c, cs => if isDelimiter c then scanOperator c cs else scanWord c cs

/-- Takes one token off the text `c :: cs`. -/
def scan (inTag : Bool) (c : Char) (cs : List Char) : Piece :=
  if inTag then scanInside c cs else scanOutside c cs

/-! ### Nothing is lost -/

/-- The piece is a nonempty front of the text. -/
def Piece.Fronts (piece : Piece) (cs : List Char) : Prop :=
  piece.slice ++ piece.rest = cs ∧ piece.slice ≠ []

theorem delimiterPiece?_fronts {table : List (List Char × TokenKind)} {inTag : Bool}
    {cs : List Char} {piece : Piece} (ht : ∀ entry ∈ table, entry.1 ≠ [])
    (h : delimiterPiece? table inTag cs = some piece) : piece.Fronts cs := by
  obtain ⟨entry, hm, h⟩ := List.exists_of_findSome?_eq_some h
  obtain ⟨rest, hr, rfl⟩ := Option.map_eq_some_iff.1 h
  exact ⟨(after?_eq_some_iff.1 hr).symm, ht entry hm⟩

theorem scanComment_fronts (cs : List Char) : (scanComment cs).Fronts ('{' :: '#' :: cs) := by
  have hs := splitWhen_append endsComment cs
  simp only [scanComment]
  split
  · next rest h =>
    rw [after?_eq_some_iff.1 h] at hs
    exact ⟨by simpa using hs, by simp⟩
  · exact ⟨by simpa using hs, by simp⟩

theorem scanOutside_fronts (c : Char) (cs : List Char) : (scanOutside c cs).Fronts (c :: cs) := by
  simp only [scanOutside]
  split
  · next h => exact delimiterPiece?_fronts (by decide) h
  · split
    · next body h =>
      rw [after?_eq_some_iff.1 h]
      exact scanComment_fronts body
    · exact ⟨by simpa using splitWhen_append startsMarkup cs, by simp⟩

theorem scanString_fronts (quote : Char) (cs : List Char) :
    (scanString quote cs).Fronts (quote :: cs) := by
  have h := whole_cutAt quote cs
  simp only [scanString]
  split <;> simp_all [Piece.Fronts, Cut.whole]

theorem scanRegex_fronts (cs : List Char) : (scanRegex cs).Fronts ('r' :: '/' :: cs) := by
  have h := whole_cutAt '/' cs
  have hf := splitRun_append isRegexFlag (cutAt '/' cs).rest
  simp only [Cut.whole] at h
  simp only [scanRegex, Piece.Fronts]
  split at h <;> simp_all

theorem scanOperator_fronts (c : Char) (cs : List Char) :
    (scanOperator c cs).Fronts (c :: cs) := by
  simp only [scanOperator]
  split
  · next h => exact delimiterPiece?_fronts (by decide) h
  · exact ⟨rfl, by simp⟩

theorem scanWord_fronts (c : Char) (cs : List Char) : (scanWord c cs).Fronts (c :: cs) := by
  have h := splitRun_append isWordChar cs
  simp only [scanWord]
  split
  · next rest _ hr =>
    have hd := splitRun_append Char.isDigit rest
    rw [hr] at h
    exact ⟨by simp [hd, h], by simp⟩
  · exact ⟨by simp [h], by simp⟩

theorem scanInside_fronts (c : Char) (cs : List Char) : (scanInside c cs).Fronts (c :: cs) := by
  simp only [scanInside]
  split
  · exact scanString_fronts c cs
  · split
    · exact ⟨by simpa using splitRun_append isTagSpace cs, by simp⟩
    · split
      · next h => exact delimiterPiece?_fronts (by decide) h
      · split
        · exact scanRegex_fronts _
        · split
          · exact scanOperator_fronts _ _
          · exact scanWord_fronts _ _

theorem scan_fronts (inTag : Bool) (c : Char) (cs : List Char) :
    (scan inTag c cs).Fronts (c :: cs) := by
  simp only [scan]
  split
  · exact scanInside_fronts c cs
  · exact scanOutside_fronts c cs

theorem slice_append_rest_scan (inTag : Bool) (c : Char) (cs : List Char) :
    (scan inTag c cs).slice ++ (scan inTag c cs).rest = c :: cs :=
  (scan_fronts inTag c cs).1

theorem length_rest_scan_lt (inTag : Bool) (c : Char) (cs : List Char) :
    (scan inTag c cs).rest.length < cs.length + 1 := by
  have ⟨h, hn⟩ := scan_fronts inTag c cs
  have hl := congrArg List.length h
  have := List.length_pos_iff.2 hn
  simp only [List.length_append, List.length_cons] at hl
  omega

end TemplateTree
