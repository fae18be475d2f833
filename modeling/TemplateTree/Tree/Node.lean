import TemplateTree.Tree.Basic

/-!
# Nodes

Any part of a tree as a node, whatever its type, and the walk over a node and
all below it, parents before children and children in source order. The depth
of a node bounds the walk.
-/

namespace TemplateTree

inductive NodeType
  | document | comment
  | importing | importTemplate | importNames | importName | importAlias | aliasKey | aliasValue
  | importTarget
  | including | includeValue | includeExpression | includeLeft | includeRight
  deriving DecidableEq, Repr

namespace NodeType

def all : List NodeType := [
  .document, .comment, .importing, .importTemplate, .importNames, .importName, .importAlias,
  .aliasKey, .aliasValue, .importTarget, .including, .includeValue, .includeExpression,
  .includeLeft, .includeRight]

def id : NodeType → String
  | .document => "Root"
  | .comment => "CommentNode"
  | .importing => "ImportNode"
  | .importTemplate => "ImportTemplate"
  | .importNames => "ImportNamesNode"
  | .importName => "ImportNameValueNode"
  | .importAlias => "ImportNameAliasNode"
  | .aliasKey => "ImportAliasKeyNode"
  | .aliasValue => "ImportAliasValueNode"
  | .importTarget => "ImportTargetNode"
  | .including => "IncludeTemplateNode"
  | .includeValue => "IncludeTemplateValueNode"
  | .includeExpression => "IncludeTemplateExpressionNode"
  | .includeLeft => "IncludeTemplateLeftNode"
  | .includeRight => "IncludeTemplateRightNode"

def label : NodeType → String
  | .document => "ROOT"
  | .comment => "COMMENT"
  | .importing => "IMPORT"
  | .importTemplate => "IMPORT_TEMPLATE"
  | .importNames => "IMPORT_NAMES"
  | .importName => "IMPORT_NAME_VALUE"
  | .importAlias => "IMPORT_NAME_ALIAS"
  | .aliasKey => "IMPORT_ALIAS_KEY"
  | .aliasValue => "IMPORT_ALIAS_VALUE"
  | .importTarget => "IMPORT_TARGET"
  | .including => "INCLUDE_TEMPLATE"
  | .includeValue => "INCLUDE_TEMPLATE_VALUE"
  | .includeExpression => "INCLUDE_TEMPLATE_EXPRESSION"
  | .includeLeft => "INCLUDE_TEMPLATE_LEFT"
  | .includeRight => "INCLUDE_TEMPLATE_RIGHT"

def ofId? (name : String) : Option NodeType := all.find? (·.id == name)

theorem ofId?_id (type : NodeType) : ofId? type.id = some type := by
  cases type <;> decide

end NodeType

inductive Node
  | document (document : Document)
  | comment (comment : Comment)
  | importing (directive : Import)
  | importTemplate (path : Leaf)
  | importNames (names : ImportedNames)
  | importName (name : Leaf)
  | importAlias (entry : Alias)
  | aliasKey (name : Leaf)
  | aliasValue (name : Leaf)
  | importTarget (name : Leaf)
  | including (directive : Include)
  | includeValue (path : Leaf)
  | includeExpression (path : PathExpression)
  | includeLeft (operand : Leaf)
  | includeRight (operand : Leaf)
  deriving DecidableEq, Repr

def ImportedName.toNode : ImportedName → Node
  | .plain name => .importName name
  | .aliased entry => .importAlias entry

def Binding.toNode : Binding → Node
  | .names list => .importNames list
  | .target name => .importTarget name

def IncludePath.toNode : IncludePath → Node
  | .value path => .includeValue path
  | .expression path => .includeExpression path

def Item.toNode : Item → Node
  | .comment c => .comment c
  | .importing directive => .importing directive
  | .including directive => .including directive

namespace Node

def type : Node → NodeType
  | .document _ => .document
  | .comment _ => .comment
  | .importing _ => .importing
  | .importTemplate _ => .importTemplate
  | .importNames _ => .importNames
  | .importName _ => .importName
  | .importAlias _ => .importAlias
  | .aliasKey _ => .aliasKey
  | .aliasValue _ => .aliasValue
  | .importTarget _ => .importTarget
  | .including _ => .including
  | .includeValue _ => .includeValue
  | .includeExpression _ => .includeExpression
  | .includeLeft _ => .includeLeft
  | .includeRight _ => .includeRight

def span? : Node → Option Span
  | .document d => d.span?
  | .comment c => c.span?
  | .importing i => i.span?
  | .importNames names => names.span?
  | .importAlias entry => entry.span?
  | .including i => i.span?
  | .includeExpression path => path.span?
  | .importTemplate leaf | .importName leaf | .aliasKey leaf | .aliasValue leaf
  | .importTarget leaf | .includeValue leaf | .includeLeft leaf | .includeRight leaf => leaf.span?

/-- The parts directly below a node, in source order. -/
def children : Node → List Node
  | .document d => d.items.map Item.toNode
  | .importing i => [.importTemplate i.template, i.binding.toNode]
  | .importNames names => names.entries.map ImportedName.toNode
  | .importAlias entry => [.aliasKey entry.key, .aliasValue entry.value]
  | .including i => [i.template.toNode]
  | .includeExpression path => [.includeLeft path.left, .includeRight path.right]
  | _ => []

/-- How far the type of a node lets its descendants reach down. -/
def depth : Node → Nat
  | .document _ => 4
  | .importing _ => 3
  | .importNames _ | .including _ => 2
  | .importAlias _ | .includeExpression _ => 1
  | _ => 0

theorem depth_lt_of_mem_children {node child : Node} (h : child ∈ node.children) :
    child.depth < node.depth := by
  cases node with
  | document d =>
    obtain ⟨item, _, rfl⟩ := List.mem_map.1 h
    cases item <;> simp [Item.toNode, depth]
  | importing i =>
    obtain rfl | rfl : child = .importTemplate i.template ∨ child = i.binding.toNode := by
      simpa [children] using h
    · simp [depth]
    · cases i.binding <;> simp [Binding.toNode, depth]
  | importNames names =>
    obtain ⟨entry, _, rfl⟩ := List.mem_map.1 h
    cases entry <;> simp [ImportedName.toNode, depth]
  | importAlias entry =>
    obtain rfl | rfl : child = .aliasKey entry.key ∨ child = .aliasValue entry.value := by
      simpa [children] using h
    all_goals simp [depth]
  | including i =>
    obtain rfl : child = i.template.toNode := by simpa [children] using h
    cases i.template <;> simp [IncludePath.toNode, depth]
  | includeExpression path =>
    obtain rfl | rfl : child = .includeLeft path.left ∨ child = .includeRight path.right := by
      simpa [children] using h
    all_goals simp [depth]
  | _ => simp [children] at h

/-- The node and all below it, parents first. -/
def walk (node : Node) : List Node :=
  node :: node.children.attach.flatMap fun ⟨child, _⟩ => child.walk
termination_by node.depth
decreasing_by exact depth_lt_of_mem_children ‹_›

theorem walk_eq (node : Node) : node.walk = node :: node.children.flatMap walk := by
  rw [walk, List.flatMap_subtype (g := walk) (by simp)]
  simp

theorem forall_mem_walk_iff {P : Node → Prop} {node : Node} :
    (∀ n ∈ node.walk, P n) ↔ P node ∧ ∀ child ∈ node.children, ∀ n ∈ child.walk, P n := by
  rw [walk_eq]
  simp only [List.mem_cons, List.mem_flatMap, forall_eq_or_imp, forall_exists_index, and_imp]
  exact and_congr_right fun _ => ⟨fun h c hc n hn => h n c hc hn, fun h n c hc hn => h c hc n hn⟩

theorem forall_mem_walk_of_leaf {P : Node → Prop} {node : Node} (h : node.children = [])
    (hn : P node) : ∀ n ∈ node.walk, P n :=
  forall_mem_walk_iff.mpr ⟨hn, by simp [h]⟩

end Node

end TemplateTree
