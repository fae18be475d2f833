import TemplateTree.Diagnostic.Basic
import TemplateTree.Text.Quoted
import TemplateTree.Token.Basic

/-!
# Token dumps

Lexemes as lines for a reader: number, kind, place and quoted value, with the
diagnostics below if they are asked for.
-/

namespace TemplateTree.Dump

/-- Fills up on the left to a width. -/
def padLeft (fill : Char) (width : Nat) (text : String) : String :=
  String.ofList (List.replicate (width - text.length) fill) ++ text

/-- Fills up on the right to a width. -/
def padRight (fill : Char) (width : Nat) (text : String) : String :=
  text ++ String.ofList (List.replicate (width - text.length) fill)

def lexemeLine (l : Lexeme) (index : Nat) : String :=
  let number := padLeft '0' 3 (toString index)
  let kind := padRight ' ' 15 l.kind.label
  s!"{number} {kind} at={l.line}:{l.column} value={quoted l.value}"

def diagnosticLines (ds : List Diagnostic) : List String :=
  "" :: "Diagnostics:" :: ds.map fun d => "- " ++ d.render

def lines (lexemes : List Lexeme) (diagnostics? : Option (List Diagnostic)) : List String :=
  lexemes.zipIdx.map (fun (l, index) => lexemeLine l index) ++
    diagnostics?.elim [] diagnosticLines

/-- The lines as one text, each ended by a line feed. -/
def render (lexemes : List Lexeme) (diagnostics? : Option (List Diagnostic)) : String :=
  String.join ((lines lexemes diagnostics?).map (· ++ "\n"))

end TemplateTree.Dump
