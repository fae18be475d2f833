import TemplateTree.Survey
import TemplateTree.Token.Dump

/-!
# Command line

`tokens FILE` prints the tokens of a template with the lexer's diagnostics,
`survey DIRECTORY` reports on the templates below a directory.
-/

namespace TemplateTree

def dumpFile (path : String) : IO Unit := do
  let text := String.ofList (unifyLineEnds (← IO.FS.readFile path).toList)
  let (lexemes, lexer) := (Lexer.ofText text).lex
  IO.print (Dump.render lexemes (some lexer.diagnostics))

partial def entriesBelow (path : List String) (entries : Array IO.FS.DirEntry) : IO Listing := do
  let mut listing := []
  for entry in entries do
    let path := path ++ [entry.fileName]
    if ← entry.path.isDir then
      let inner ← entriesBelow path (← entry.path.readDir)
      listing := ⟨path, none⟩ :: inner ++ listing
    else
      -- only a template's content is looked at
      let content ← if isTemplateName entry.fileName then IO.FS.readFile entry.path else pure ""
      listing := ⟨path, some content⟩ :: listing
  return listing

def listing? (root : String) : IO (Option Listing) := do
  let path? ← try pure (some (← IO.FS.realPath root)) catch _ => pure none
  match path? with
  | none => return none
  | some path =>
    if ← path.isDir then return some (← entriesBelow [] (← path.readDir)) else return none

def surveyDirectory (root : String) : IO UInt32 := do
  match survey root (← listing? root) with
  | .ok lines =>
    lines.forM IO.println
    return 0
  | .error e =>
    IO.eprintln e.message
    return 1

end TemplateTree

def main : List String → IO UInt32
  | ["tokens", path] => do
    TemplateTree.dumpFile path
    return 0
  | ["survey", root] => TemplateTree.surveyDirectory root
  | _ => do
    IO.eprintln "usage: templatetree tokens FILE | templatetree survey DIRECTORY"
    return 2
