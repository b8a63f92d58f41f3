import PagePreview.Main
import PagePreview.Live.Page
import PagePreview.Proofs.Document.Mark
import PagePreview.Proofs.Document.Grammar
import PagePreview.Proofs.Document.Derivation
import PagePreview.Proofs.Document.Tree
import PagePreview.Proofs.Analysis.Braces
import PagePreview.Proofs.Analysis.Agreement
import PagePreview.Proofs.Analysis.Placement
import PagePreview.Proofs.Analysis.Positions
import PagePreview.Proofs.Analysis.Ranges
import PagePreview.Proofs.Document.Block
import PagePreview.Proofs.Document.Print
import PagePreview.Proofs.Document.Problems
import PagePreview.Proofs.Source.Reprint
import PagePreview.Proofs.Html.Reader
import PagePreview.Proofs.Live.Bindings
import PagePreview.Proofs.Html.Seen
import PagePreview.Proofs.Url.Percent
import PagePreview.Proofs.Url.Request
import PagePreview.Proofs.Url.Address
import PagePreview.Proofs.Backend.Bootstrap
import PagePreview.Proofs.Backend.Session
import PagePreview.Proofs.Backend.ScriptTag
import PagePreview.Proofs.Live.Coherence
import PagePreview.Proofs.Backend.Writes
import PagePreview.Proofs.Live.Focus
import PagePreview.Proofs.Live.Clock
import PagePreview.Proofs.Backend.Template
import PagePreview.Proofs.Backend.EffectTable
import PagePreview.Proofs.Html.Trigger
import PagePreview.Proofs.Number.PageNumber
import PagePreview.Proofs.Backend.Counter
import PagePreview.Proofs.Live.Boot
import PagePreview.Proofs.Node.Json
import PagePreview.Proofs.Backend.Lists
import PagePreview.Proofs.Text.Position
