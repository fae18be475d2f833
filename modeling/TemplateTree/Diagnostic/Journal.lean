import TemplateTree.Diagnostic.Basic

/-!
# The journal

The diagnostics kept of those reported. A report with the code and the place
of the one kept last is taken for the same problem and dropped, whatever it
says.
-/

namespace TemplateTree

def Diagnostic.Repeats (d previous : Diagnostic) : Prop :=
  d.code = previous.code ∧ d.span? = previous.span?

instance (d previous : Diagnostic) : Decidable (d.Repeats previous) :=
  inferInstanceAs (Decidable (_ ∧ _))

structure Journal where
  newestFirst : List Diagnostic := []
  deriving DecidableEq, Repr

namespace Journal

def report (j : Journal) (d : Diagnostic) : Journal :=
  match j.newestFirst with
  | [] => ⟨[d]⟩
  | previous :: earlier =>
    if d.Repeats previous then j else ⟨d :: previous :: earlier⟩

def reportAll (j : Journal) (ds : List Diagnostic) : Journal := ds.foldl report j

theorem reportAll_append (j : Journal) (ds es : List Diagnostic) :
    j.reportAll (ds ++ es) = (j.reportAll ds).reportAll es := List.foldl_append

/-- The kept diagnostics in the order of their reports. -/
def toList (j : Journal) : List Diagnostic := j.newestFirst.reverse

end Journal

/-- The diagnostics kept of a sequence of reports. -/
def Diagnostic.kept (ds : List Diagnostic) : List Diagnostic := (Journal.reportAll {} ds).toList

end TemplateTree
