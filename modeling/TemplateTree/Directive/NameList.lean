import TemplateTree.Tree.Basic

/-!
# Lists of imported names

The names of a from-import while they are read. An alias belongs to the name
read last, replaces an alias that it may have, and has nothing to belong to
before the first name.
-/

namespace TemplateTree

structure NameList where
  newestFirst : List ImportedName := []
  deriving DecidableEq, Repr

/-- The name itself, without its alias. -/
def ImportedName.key : ImportedName → Leaf
  | .plain name => name
  | .aliased entry => entry.key

namespace NameList

def push (l : NameList) (name : Leaf) : NameList := ⟨.plain name :: l.newestFirst⟩

def aliasLast? (l : NameList) (value : Leaf) : Option NameList :=
  match l.newestFirst with
  | [] => none
  | last :: earlier =>
    some ⟨.aliased ⟨last.key, value, Span.cover? last.key.span? value.span?⟩ :: earlier⟩

/-- The entries in the order of import. -/
def entries (l : NameList) : List ImportedName := l.newestFirst.reverse

/-- The finished list, spanning from its first entry to its last. -/
def build (l : NameList) : ImportedNames :=
  { entries := l.entries
    span? := Span.cover? (l.entries.head?.bind ImportedName.span?)
      (l.newestFirst.head?.bind ImportedName.span?) }

end NameList

end TemplateTree
