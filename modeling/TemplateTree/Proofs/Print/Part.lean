import TemplateTree.Text.Blank
import TemplateTree.Token.Literal
import TemplateTree.Tree.Basic

/-!
# Templates in print

A template as a list of parts, and how it is printed. A part says what it says
in one fixed way: one blank between words, paths between double quotes, markers
next to the delimiters. What cannot be printed so that it is read back, such as
running text with a tag in it, is not a part.
-/

namespace TemplateTree

-- ---------------------------------------------------------------------------
-- Texts
-- ---------------------------------------------------------------------------

/-- Running text that starts no markup, whatever follows it. -/
structure RunningText where
  chars : List Char
  no_block : ¬['{', '%'] <:+: chars
  no_variable : ¬['{', '{'] <:+: chars
  no_comment : ¬['{', '#'] <:+: chars
  no_brace : ¬['{'] <:+ chars

/-- The text of a comment without its padding. -/
structure PaddedText where
  chars : List Char
  no_end : ¬['#', '}'] <:+: chars
  no_lead : ¬chars.head?.any isBlank
  no_tail : ¬chars.getLast?.any isBlank

/-- A word that is read as a name. -/
structure Word where
  chars : List Char
  ne_nil : chars ≠ []
  wordChars : chars.all isWordChar
  no_quote : chars.head? ∉ [some '"', some '\'']
  not_number : ¬chars.all Char.isDigit
  not_literal : String.ofList chars ∉ ["true", "false", "True", "False", "none", "None", "null"]

def Word.text (w : Word) : String := String.ofList w.chars

/-- A name that is none of the words of the directive that it stands in. -/
structure Identifier (reserved : List String) extends Word where
  not_reserved : toWord.text ∉ reserved

/-- The text between double quotes: a backslash before every backslash and every quote. -/
def escape (cs : List Char) : List Char :=
  cs.flatMap fun c => if c = '\\' ∨ c = '"' then ['\\', c] else [c]

-- ---------------------------------------------------------------------------
-- Tags
-- ---------------------------------------------------------------------------

/-- The words that directives are made of, beside names. -/
def keywords : List String :=
  ["from", "import", "include", "as", "with", "context", "ignore", "missing"]

def Word.keyword (text : String) (h : text ∈ keywords := by decide) : Word where
  chars := text.toList
  ne_nil := (by decide : ∀ text ∈ keywords, text.toList ≠ []) text h
  wordChars := (by decide : ∀ text ∈ keywords, text.toList.all isWordChar) text h
  no_quote := (by decide : ∀ text ∈ keywords, text.toList.head? ∉ [some '"', some '\'']) text h
  not_number := (by decide : ∀ text ∈ keywords, ¬text.toList.all Char.isDigit) text h
  not_literal := (by decide : ∀ text ∈ keywords, String.ofList text.toList ∉
    ["true", "false", "True", "False", "none", "None", "null"]) text h

@[simp] theorem Word.text_keyword (text : String) (h : text ∈ keywords) :
    (Word.keyword text h).text = text := String.ofList_toList

/-- What a tag is made of. -/
inductive Atom
  | word (w : Word)
  | literal (value : String)
  | comma
  | plus

/-- An atom with the blank in front of it, if it has one. -/
def Atom.chars : Atom → List Char
  | .word w => ' ' :: w.chars
  | .literal value => ' ' :: '"' :: escape value.toList ++ ['"']
  | .comma => [',']
  | .plus => [' ', '+']

def printTag (atoms : List Atom) : List Char :=
  ['{', '%'] ++ atoms.flatMap Atom.chars ++ [' ', '%', '}']

def importReserved : List String := ["with", "context", "import", "as"]

def includeReserved : List String := ["ignore", "missing"]

/-- A name to import, perhaps under another name. -/
structure NamePart where
  name : Identifier importReserved
  alias? : Option (Identifier importReserved) := none

def NamePart.atoms (n : NamePart) : List Atom :=
  match n.alias? with
  | none => [.word n.name.toWord]
  | some other => [.word n.name.toWord, .word (.keyword "as"), .word other.toWord]

def contextAtoms (withContext : Bool) : List Atom :=
  if withContext then [.word (.keyword "with"), .word (.keyword "context")] else []

def operandAtoms (left? : Option (Identifier includeReserved)) : List Atom :=
  match left? with
  | none => []
  | some left => [.word left.toWord, .plus]

def ignoreAtoms (ignoreMissing : Bool) : List Atom :=
  if ignoreMissing then [.word (.keyword "ignore"), .word (.keyword "missing")] else []

-- ---------------------------------------------------------------------------
-- Parts
-- ---------------------------------------------------------------------------

inductive Part
  | data (text : RunningText)
  | comment (text : PaddedText) (trimLeft trimRight : Bool)
  | importNames (path : String) (names : List NamePart) (withContext : Bool)
  | importTarget (path : String) (name : Identifier importReserved) (withContext : Bool)
  | including (path : String) (left? : Option (Identifier includeReserved)) (ignoreMissing : Bool)

def printComment (text : List Char) (trimLeft trimRight : Bool) : List Char :=
  ['{', '#'] ++ (if trimLeft then ['-'] else []) ++ [' '] ++ text ++ [' '] ++
    (if trimRight then ['-'] else []) ++ ['#', '}']

def namesAtoms (path : String) (names : List NamePart) (withContext : Bool) : List Atom :=
  [.word (.keyword "from"), .literal path, .word (.keyword "import")] ++
    List.intercalate [.comma] (names.map NamePart.atoms) ++ contextAtoms withContext

def targetAtoms (path : String) (name : Identifier importReserved) (withContext : Bool) :
    List Atom :=
  [.word (.keyword "import"), .literal path, .word (.keyword "as"), .word name.toWord] ++
    contextAtoms withContext

def includingAtoms (path : String) (left? : Option (Identifier includeReserved))
    (ignoreMissing : Bool) : List Atom :=
  [.word (.keyword "include")] ++ operandAtoms left? ++ [.literal path] ++ ignoreAtoms ignoreMissing

/-- The part as it is printed. -/
def Part.chars : Part → List Char
  | .data text => text.chars
  | .comment text trimLeft trimRight => printComment text.chars trimLeft trimRight
  | .importNames path names withContext => printTag (namesAtoms path names withContext)
  | .importTarget path name withContext => printTag (targetAtoms path name withContext)
  | .including path left? ignoreMissing => printTag (includingAtoms path left? ignoreMissing)

/-- A printed template. -/
def printed (parts : List Part) : String := String.ofList (parts.flatMap Part.chars)

example : printed [
    .comment ⟨['#'], by decide, by decide, by decide⟩ true false,
    .including "a\"%\x7d" none true] =
    "\x7b#- # #\x7d\x7b% include \"a\\\"%\x7d\" ignore missing %\x7d" := by decide

example :
    let a : Word := ⟨['a'], by decide, by decide, by decide, by decide, by decide⟩
    let b : Word := ⟨['b', '"'], by decide, by decide, by decide, by decide, by decide⟩
    let named : NamePart := { name := ⟨a, by decide⟩, alias? := some ⟨b, by decide⟩ }
    printed [
      .importNames "f" [named, { name := named.name }] true,
      .importTarget "g" named.name false,
      .including "h" (some ⟨b, by decide⟩) false] =
    "\x7b% from \"f\" import a as b\", a with context %\x7d" ++
      "\x7b% import \"g\" as a %\x7d\x7b% include b\" + \"h\" %\x7d" := by decide

/-- What is imported under which name, wherever it stands. -/
def NamePart.entry (n : NamePart) : ImportedName :=
  match n.alias? with
  | none => .plain { value := n.name.text }
  | some other => .aliased { key := { value := n.name.text }, value := { value := other.text } }

/-- The path of an include, with the left operand if it has one, wherever it stands. -/
def includePath (path : String) (left? : Option (Identifier includeReserved)) : IncludePath :=
  match left? with
  | none => .value { value := path }
  | some left => .expression { left := { value := left.text }, right := { value := path } }

/-- What the part says, wherever it stands; running text says nothing. -/
def Part.item? : Part → Option Item
  | .data _ => none
  | .comment text trimLeft trimRight =>
    some (.comment { text := String.ofList text.chars, trimLeft, trimRight })
  | .importNames path names withContext =>
    some (.importing {
      template := { value := path }
      withContext
      binding := .names { entries := names.map NamePart.entry } })
  | .importTarget path name withContext =>
    some (.importing {
      template := { value := path }, withContext, binding := .target { value := name.text } })
  | .including path left? ignoreMissing =>
    some (.including { ignoreMissing, template := includePath path left? })

end TemplateTree
