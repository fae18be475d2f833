/-!
# Line ends

A file may end its lines with a line feed, a carriage return or both. Reading
turns each of these into one line feed, and nothing else changes.
-/

namespace TemplateTree

/-- A line feed right after a carriage return is dropped, and every carriage
return becomes a line feed. -/
def unifyLineEnds (cs : List Char) : List Char :=
  (cs.zip (' ' :: cs)).filterMap fun (c, before) =>
    if c = '\n' ∧ before = '\r' then none else some (if c = '\r' then '\n' else c)

theorem not_mem_unifyLineEnds (cs : List Char) : '\r' ∉ unifyLineEnds cs := by
  simp only [unifyLineEnds, List.mem_filterMap, not_exists, not_and]
  intro (c, before) _
  grind

end TemplateTree
