import TemplateTree.Text.Unprintable

/-!
# Quoted text

A text written on one line between quotes. Single quotes enclose it unless it
holds a single quote and no double quote. The backslash, the enclosing quote,
line feed, carriage return and tab are escaped by name, every other
unprintable character by its code point in the fewest of 2, 4 or 8 hexadecimal
digits.
-/

namespace TemplateTree.Quoted

def enclosing (cs : List Char) : Char :=
  if '\'' ∈ cs ∧ '"' ∉ cs then '"' else '\''

/-- The lower-case hexadecimal digits of `n`, filled up with zeros to `width`. -/
def hex (width n : Nat) : List Char :=
  let digits := Nat.toDigits 16 n
  List.replicate (width - digits.length) '0' ++ digits

def encodeChar (quote c : Char) : List Char :=
  if c = quote ∨ c = '\\' then ['\\', c]
  else if c = '\n' then ['\\', 'n']
  else if c = '\r' then ['\\', 'r']
  else if c = '\t' then ['\\', 't']
  else if isPrintable c then [c]
  else if c.toNat < 0x100 then '\\' :: 'x' :: hex 2 c.toNat
  else if c.toNat < 0x10000 then '\\' :: 'u' :: hex 4 c.toNat
  else '\\' :: 'U' :: hex 8 c.toNat

def encode (cs : List Char) : List Char :=
  let quote := enclosing cs
  quote :: cs.flatMap (encodeChar quote) ++ [quote]

end Quoted

/-- The quoted form of a text. -/
def quoted (text : String) : String := String.ofList (Quoted.encode text.toList)

end TemplateTree
