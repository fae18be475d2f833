import TemplateTree.Main
import TemplateTree.Proofs.Diagnostic.Runs
import TemplateTree.Proofs.Directive.Closing
import TemplateTree.Proofs.Directive.FromImport
import TemplateTree.Proofs.Directive.ImportTarget
import TemplateTree.Proofs.Directive.NameHistory
import TemplateTree.Proofs.Document.Append
import TemplateTree.Proofs.Document.Ends
import TemplateTree.Proofs.Document.Errors
import TemplateTree.Proofs.Document.Faults
import TemplateTree.Proofs.Document.InOrder
import TemplateTree.Proofs.Document.Inert
import TemplateTree.Proofs.Document.Keywords
import TemplateTree.Proofs.Document.Modes
import TemplateTree.Proofs.Document.Pull
import TemplateTree.Proofs.Document.ReadsBack
import TemplateTree.Proofs.Document.Stream
import TemplateTree.Proofs.Document.Stretches
import TemplateTree.Proofs.Document.WalkOrder
import TemplateTree.Proofs.Document.Warnings
import TemplateTree.Proofs.Position.Action
import TemplateTree.Proofs.Print.RoundTrip
import TemplateTree.Proofs.Reading.ScanHistory
import TemplateTree.Proofs.Reading.Stretches
import TemplateTree.Proofs.Token.Extent
import TemplateTree.Proofs.Token.Grammar
import TemplateTree.Proofs.Token.Literal
import TemplateTree.Proofs.Tree.Comment
