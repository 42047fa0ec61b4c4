import KmlTree.Element.Emission
import KmlTree.Element.Outline
import KmlTree.Workspace.Command
import KmlTree.Proofs.Text.Bytes
import KmlTree.Proofs.Text.Scan
import KmlTree.Proofs.Text.Reference
import KmlTree.Proofs.Markup.Token
import KmlTree.Proofs.Document.Run
import KmlTree.Proofs.Document.Feed
import KmlTree.Proofs.Attributes
import KmlTree.Proofs.Element.Family
import KmlTree.Proofs.Element.Regular
import KmlTree.Proofs.Document.Growth
import KmlTree.Proofs.Document.Excerpt
import KmlTree.Proofs.Document.Verbatim
import KmlTree.Proofs.Element.Tally
import KmlTree.Proofs.Document.AttributeTally
import KmlTree.Proofs.Markup.Name
import KmlTree.Proofs.Markup.Written
import KmlTree.Proofs.Text.Space
import KmlTree.Proofs.Document.Passage
import KmlTree.Proofs.Element.Bare
import KmlTree.Proofs.Element.Reopening
import KmlTree.Proofs.Element.Filling
import KmlTree.Proofs.Document.Following
import KmlTree.Proofs.Document.Rereading
import KmlTree.Proofs.Document.NormalForm
import KmlTree.Proofs.Element.Built
import KmlTree.Proofs.Position
import KmlTree.Proofs.Document.RoundTrip
import KmlTree.Proofs.Workspace.Built
import KmlTree.Proofs.Element.Rearranged
import KmlTree.Proofs.Workspace.Ownership
import KmlTree.Proofs.Element.Gathering
import KmlTree.Proofs.Element.Census
import KmlTree.Proofs.Element.Dispatch
import KmlTree.Proofs.Document.Nesting
import KmlTree.Proofs.Document.Offer
import KmlTree.Proofs.Document.Census
import KmlTree.Proofs.Document.Pairing
import KmlTree.Proofs.Document.Limit
import KmlTree.Proofs.Document.Cut
import KmlTree.Proofs.Markup.AttributeList
import KmlTree.Proofs.Document.Scene
import KmlTree.Proofs.Document.Acceptance
import KmlTree.Proofs.Element.Serialization
import KmlTree.Proofs.Element.Site
import KmlTree.Proofs.Markup.Course
import KmlTree.Proofs.Attributes.Merge
import KmlTree.Proofs.Element.Account
import KmlTree.Proofs.Position.Tuples
import KmlTree.Proofs.Element.Reading
import KmlTree.Proofs.Workspace.Refusal
import KmlTree.Proofs.Workspace.Invariant
import KmlTree.Proofs.Element.AttributeLaws
import KmlTree.Proofs.Position.Pieces
import KmlTree.Proofs.Element.LastText
import KmlTree.Proofs.Document.Renaming
import KmlTree.Proofs.Document.SimpleField
import KmlTree.Proofs.Text.Escape
import KmlTree.Proofs.Attributes.History
import KmlTree.Proofs.Element.Scalar
