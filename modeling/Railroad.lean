import Railroad.Grammar.Printer
import Railroad.Main
import Railroad.Proofs.Diagram.Outline
import Railroad.Proofs.Diagram.Readability
import Railroad.Proofs.Diagram.Shown
import Railroad.Proofs.Documentation.Announced
import Railroad.Proofs.Documentation.Attached
import Railroad.Proofs.Drawing.Captions
import Railroad.Proofs.Drawing.Elements
import Railroad.Proofs.Drawing.Fitting
import Railroad.Proofs.Drawing.Selected
import Railroad.Proofs.Grammar.Places
import Railroad.Proofs.Grammar.Progress
import Railroad.Proofs.Grammar.Rejection
import Railroad.Proofs.Page.Entities
import Railroad.Proofs.Page.Filling
import Railroad.Proofs.Page.Isolation
import Railroad.Proofs.Page.Linking
import Railroad.Proofs.Printing.NormalForm
import Railroad.Proofs.Selection
import Railroad.Proofs.Token.Blocks
import Railroad.Proofs.Token.Faults
import Railroad.Proofs.Token.Lines
import Railroad.Proofs.Files.Paths
import Railroad.Proofs.Files.Trees
import Railroad.Proofs.Run.Stems
import Railroad.Proofs.Run.Turns
import Railroad.Proofs.Run.Alone
import Railroad.Proofs.Run.Interleaving
import Railroad.Proofs.Run.Endings
import Railroad.Proofs.Run.Remains
import Railroad.Proofs.Run.Drawn
import Railroad.Proofs.Diagram.Edges
import Railroad.Proofs.Diagram.Redeclared
import Railroad.Proofs.Page.Insertion
import Railroad.Proofs.Declarations.Blocks
import Railroad.Proofs.Declarations.Comments
