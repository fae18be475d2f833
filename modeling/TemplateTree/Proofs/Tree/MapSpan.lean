import TemplateTree.Directive.NameList
import TemplateTree.Fault

/-!
# Trees with other spans

A tree with a function applied to the span of every part, known or not. With
the spans moved it is the tree of the same template further down a text; with
the spans dropped it is what a template says, wherever it stands.
-/

namespace TemplateTree

variable (f : Option Span → Option Span)

def Leaf.mapSpan (l : Leaf) : Leaf := { l with span? := f l.span? }

def Comment.mapSpan (c : Comment) : Comment := { c with span? := f c.span? }

def Alias.mapSpan (a : Alias) : Alias := ⟨a.key.mapSpan f, a.value.mapSpan f, f a.span?⟩

def ImportedName.mapSpan : ImportedName → ImportedName
  | .plain name => .plain (name.mapSpan f)
  | .aliased entry => .aliased (entry.mapSpan f)

def ImportedNames.mapSpan (names : ImportedNames) : ImportedNames :=
  ⟨names.entries.map (·.mapSpan f), f names.span?⟩

def Binding.mapSpan : Binding → Binding
  | .names list => .names (list.mapSpan f)
  | .target name => .target (name.mapSpan f)

def Import.mapSpan (i : Import) : Import :=
  ⟨i.template.mapSpan f, i.withContext, i.binding.mapSpan f, f i.span?⟩

def PathExpression.mapSpan (p : PathExpression) : PathExpression :=
  ⟨p.left.mapSpan f, p.right.mapSpan f, f p.span?⟩

def IncludePath.mapSpan : IncludePath → IncludePath
  | .value path => .value (path.mapSpan f)
  | .expression path => .expression (path.mapSpan f)

def Include.mapSpan (i : Include) : Include :=
  ⟨i.ignoreMissing, i.template.mapSpan f, f i.span?⟩

def Item.mapSpan : Item → Item
  | .comment c => .comment (c.mapSpan f)
  | .importing i => .importing (i.mapSpan f)
  | .including i => .including (i.mapSpan f)

def Document.mapSpan (d : Document) : Document := ⟨d.items.map (·.mapSpan f), f d.span?⟩

def Diagnostic.mapSpan (d : Diagnostic) : Diagnostic := { d with span? := f d.span? }

/-- No span, whatever it was. -/
def dropSpan (_ : Option Span) : Option Span := none

variable {f}

@[simp] theorem ImportedName.mapSpan_plain (name : Leaf) :
    (plain name).mapSpan f = .plain (name.mapSpan f) := rfl

@[simp] theorem ImportedName.mapSpan_aliased (entry : Alias) :
    (aliased entry).mapSpan f = .aliased (entry.mapSpan f) := rfl

theorem ImportedName.key_mapSpan (name : ImportedName) :
    (name.mapSpan f).key = name.key.mapSpan f := by
  cases name <;> rfl

theorem ImportedName.span?_mapSpan (name : ImportedName) :
    (name.mapSpan f).span? = f name.span? := by
  cases name <;> rfl

-- ---------------------------------------------------------------------------
-- Spans left as they are
-- ---------------------------------------------------------------------------

@[simp] theorem ImportedName.mapSpan_id (name : ImportedName) : name.mapSpan id = name := by
  cases name <;> rfl

@[simp] theorem Import.mapSpan_id (i : Import) : i.mapSpan id = i := by
  obtain ⟨template, withContext, binding, span?⟩ := i
  cases binding <;> simp [mapSpan, Leaf.mapSpan, Binding.mapSpan, ImportedNames.mapSpan]

@[simp] theorem Include.mapSpan_id (i : Include) : i.mapSpan id = i := by
  obtain ⟨ignoreMissing, template, span?⟩ := i
  cases template <;> rfl

@[simp] theorem Item.mapSpan_id (item : Item) : item.mapSpan id = item := by
  cases item <;> simp [mapSpan, Comment.mapSpan]

@[simp] theorem Document.mapSpan_id (d : Document) : d.mapSpan id = d := by
  obtain ⟨items, span?⟩ := d
  simp [mapSpan]

@[simp] theorem Diagnostic.mapSpan_id (d : Diagnostic) : d.mapSpan id = d := rfl

end TemplateTree
