import TemplateTree.Document.Template
import TemplateTree.Text.Lines

/-!
# Surveys

How a directory of templates fares: the template files below it, and how many
nodes, diagnostics and failures reading them all gives. What a directory holds
comes in as a listing, so a survey itself touches no file.
-/

namespace TemplateTree

/-- A file by the names that lead to it, or a directory, which has no content. -/
structure Entry where
  path : List String
  content? : Option String
  deriving DecidableEq, Repr

/-- All that lies below a directory, at any depth. -/
abbrev Listing := List Entry

/-- The directory that `path` leads to, if it is one. A path on the way to an
entry is a directory, whether it is listed or not. -/
def Listing.below? (listing : Listing) (path : List String) : Option Listing :=
  let inner := listing.filterMap fun e =>
    if path.isPrefixOf e.path && e.path != path then
      some { e with path := e.path.drop path.length }
    else none
  if path.isEmpty || !inner.isEmpty || listing.contains ⟨path, none⟩ then some inner else none

def templateSuffixes : List String := [".njk", ".nunjucks", ".html"]

def isTemplateName (name : String) : Bool := templateSuffixes.any fun suffix => name.endsWith suffix

structure TemplateFile where
  path : List String
  text : String
  deriving DecidableEq, Repr

/-- A file whose name has a template's suffix, with its line ends unified. -/
def Entry.template? (e : Entry) : Option TemplateFile :=
  match e.content?, e.path.getLast? with
  | some content, some name =>
    if isTemplateName name then
      some ⟨e.path, String.ofList (unifyLineEnds content.toList)⟩
    else none
  | _, _ => none

/-- The template files of a listing, by path, name by name. -/
def Listing.templates (listing : Listing) : List TemplateFile :=
  (listing.filterMap Entry.template?).mergeSort fun a b =>
    !List.lex b.path a.path fun s t => s < t

structure Counts where
  nodes : Nat := 0
  diagnostics : Nat := 0
  failures : Nat := 0
  deriving DecidableEq, Repr

def Counts.add (c : Counts) (file : TemplateFile) : Counts :=
  match ParseResult.ofText {} file.text with
  | .ok result =>
    { c with
      nodes := c.nodes + result.document.items.length
      diagnostics := c.diagnostics + result.diagnostics.length }
  | .error _ => { c with failures := c.failures + 1 }

def Counts.ofFiles (files : List TemplateFile) : Counts := files.foldl add {}

/-- Why there is nothing to survey. -/
inductive SurveyError
  | notDirectory (root : String)
  | noTemplates (root : String)
  deriving DecidableEq, Repr

def SurveyError.message : SurveyError → String
  | .notDirectory root => "Invalid template root: " ++ root
  | .noTemplates root => "No templates found under " ++ root

/-- The report on the directory shown as `root`. -/
def survey (root : String) (listing? : Option Listing) : Except SurveyError (List String) :=
  match listing? with
  | none => .error (.notDirectory root)
  | some listing =>
    match listing.templates with
    | [] => .error (.noTemplates root)
    | files =>
      let counts := Counts.ofFiles files
      .ok [
        s!"Dataset: {root}",
        s!"Files: {files.length}",
        s!"Top-level nodes: {counts.nodes}",
        s!"Diagnostics: {counts.diagnostics}",
        s!"Failed parses: {counts.failures}"]

end TemplateTree
