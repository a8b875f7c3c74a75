import HtmlCompose.CommandLine.Options
import HtmlCompose.CommandLine.Program
import HtmlCompose.Component.Config
import HtmlCompose.Component.Context
import HtmlCompose.Component.ImportTable
import HtmlCompose.Component.Settings
import HtmlCompose.Data.Json
import HtmlCompose.Data.Json.Printer
import HtmlCompose.Data.Json.Reader
import HtmlCompose.Data.Path
import HtmlCompose.Data.Record
import HtmlCompose.Data.Style
import HtmlCompose.Decimal.Double
import HtmlCompose.Decimal.Shortest
import HtmlCompose.Digest.Fingerprint
import HtmlCompose.Digest.Sha256
import HtmlCompose.Directive.Attribute
import HtmlCompose.Directive.Evaluate
import HtmlCompose.Enhance.Behavior
import HtmlCompose.Enhance.Emission
import HtmlCompose.Enhance.Script
import HtmlCompose.Enhance.Stylesheet
import HtmlCompose.Files.Entry
import HtmlCompose.Files.Path
import HtmlCompose.Files.Source
import HtmlCompose.Head.Asset
import HtmlCompose.Head.Page
import HtmlCompose.Head.Promotion
import HtmlCompose.Main
import HtmlCompose.Markup.Cursor
import HtmlCompose.Markup.Document
import HtmlCompose.Markup.Draft
import HtmlCompose.Markup.Element
import HtmlCompose.Markup.Error
import HtmlCompose.Markup.OpenTag
import HtmlCompose.Markup.Parse
import HtmlCompose.Markup.Reference
import HtmlCompose.Markup.Report
import HtmlCompose.Markup.Serialize
import HtmlCompose.Markup.Token
import HtmlCompose.Markup.Traversal
import HtmlCompose.Markup.Tree
import HtmlCompose.Placeholder.Layout
import HtmlCompose.Placeholder.Render
import HtmlCompose.Placeholder.Tag
import HtmlCompose.Placeholder.Template
import HtmlCompose.Proofs.Component.Precedence
import HtmlCompose.Proofs.Component.StyleOverrides
import HtmlCompose.Proofs.Data.RoundTrip
import HtmlCompose.Proofs.Data.Text
import HtmlCompose.Proofs.Decimal.Interval
import HtmlCompose.Proofs.Decimal.Reading
import HtmlCompose.Proofs.Digest.Stream
import HtmlCompose.Proofs.Directive.Bindings
import HtmlCompose.Proofs.Directive.Elements
import HtmlCompose.Proofs.Directive.InPlace
import HtmlCompose.Proofs.Directive.Inert
import HtmlCompose.Proofs.Directive.Meaning
import HtmlCompose.Proofs.Directive.Removal
import HtmlCompose.Proofs.Enhance.Arguments
import HtmlCompose.Proofs.Enhance.Compiling
import HtmlCompose.Proofs.Enhance.Emission
import HtmlCompose.Proofs.Enhance.Pieces
import HtmlCompose.Proofs.Enhance.Scripts
import HtmlCompose.Proofs.Enhance.Tokens
import HtmlCompose.Proofs.Files.Confinement
import HtmlCompose.Proofs.Files.History
import HtmlCompose.Proofs.Head.Assets
import HtmlCompose.Proofs.Head.Grafts
import HtmlCompose.Proofs.Head.Merging
import HtmlCompose.Proofs.Head.Page
import HtmlCompose.Proofs.Head.Promotion
import HtmlCompose.Proofs.Head.Split
import HtmlCompose.Proofs.Markup.Copies
import HtmlCompose.Proofs.Markup.Edit
import HtmlCompose.Proofs.Markup.Faults
import HtmlCompose.Proofs.Markup.Growth
import HtmlCompose.Proofs.Markup.Insertion
import HtmlCompose.Proofs.Markup.Lexing
import HtmlCompose.Proofs.Markup.Links
import HtmlCompose.Proofs.Markup.Moves
import HtmlCompose.Proofs.Markup.NormalForm
import HtmlCompose.Proofs.Markup.Normalized
import HtmlCompose.Proofs.Markup.Parsed
import HtmlCompose.Proofs.Markup.Placed
import HtmlCompose.Proofs.Markup.Plain
import HtmlCompose.Proofs.Markup.ReadBack
import HtmlCompose.Proofs.Markup.Recognition
import HtmlCompose.Proofs.Markup.Replacement
import HtmlCompose.Proofs.Markup.Row
import HtmlCompose.Proofs.Markup.Shape
import HtmlCompose.Proofs.Markup.Tiling
import HtmlCompose.Proofs.Markup.Traversal
import HtmlCompose.Proofs.Markup.Walks
import HtmlCompose.Proofs.Markup.WrittenTag
import HtmlCompose.Proofs.Render.Ancestry
import HtmlCompose.Proofs.Render.Chains
import HtmlCompose.Proofs.Render.Cold
import HtmlCompose.Proofs.Render.Composition
import HtmlCompose.Proofs.Render.Discovery
import HtmlCompose.Proofs.Render.Handover
import HtmlCompose.Proofs.Render.ImportErrors
import HtmlCompose.Proofs.Render.Lifting
import HtmlCompose.Proofs.Render.Registration
import HtmlCompose.Proofs.Render.Repeat
import HtmlCompose.Proofs.Render.Scope
import HtmlCompose.Proofs.Render.Static
import HtmlCompose.Proofs.Render.Steps
import HtmlCompose.Proofs.Render.Termination
import HtmlCompose.Proofs.Render.Warmth
import HtmlCompose.Proofs.Render.Worlds
import HtmlCompose.Proofs.Resolve.Conservation
import HtmlCompose.Proofs.Resolve.Dialogue
import HtmlCompose.Proofs.Resolve.Discovery
import HtmlCompose.Proofs.Resolve.Filling
import HtmlCompose.Proofs.Resolve.NamedSlots
import HtmlCompose.Proofs.Resolve.Projection
import HtmlCompose.Proofs.Resolve.Scope
import HtmlCompose.Proofs.Text.Pattern
import HtmlCompose.Render.Cache
import HtmlCompose.Render.Outcome
import HtmlCompose.Render.Projection
import HtmlCompose.Render.Registry
import HtmlCompose.Render.Renderer
import HtmlCompose.Render.Resolve
import HtmlCompose.Render.Slot
import HtmlCompose.Text.Blank
import HtmlCompose.Text.Pattern
import HtmlCompose.Text.Search
import HtmlCompose.Text.Slice
import HtmlCompose.Toml.Datetime
import HtmlCompose.Toml.Document
import HtmlCompose.Toml.Scalar
import HtmlCompose.Toml.Table
import HtmlCompose.Toml.Value
