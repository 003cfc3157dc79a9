import InlineBinding.Text.Basic
import InlineBinding.Text.Ranges
import InlineBinding.Text.Space
import InlineBinding.Text.Numbered
import InlineBinding.Text.Word
import InlineBinding.Text.Lower
import InlineBinding.Text.Printable
import InlineBinding.Text.Quoted
import InlineBinding.Text.Utf8
import InlineBinding.Literal
import InlineBinding.Pattern
import InlineBinding.Accessor
import InlineBinding.Delimiters
import InlineBinding.Expression
import InlineBinding.Shield
import InlineBinding.Forest
import InlineBinding.Html.Content
import InlineBinding.Html.Token
import InlineBinding.Html.Builder
import InlineBinding.Html.Document
import InlineBinding.Markup.Node
import InlineBinding.Markup.Printer
import InlineBinding.Markup.Spelling
import InlineBinding.Markup.Recovery
import InlineBinding.Options.Basic
import InlineBinding.Linked.Store
import InlineBinding.Linked.Links
import InlineBinding.Linked.Tree
import InlineBinding.Event
import InlineBinding.Binding.Attacher
import InlineBinding.Binding.Scan
import InlineBinding.Settings.Value
import InlineBinding.Settings.Problem
import InlineBinding.Options.Resolve
import InlineBinding.Transform
import InlineBinding.Markup.Reader
import InlineBinding.Files.Path
import InlineBinding.Settings.Source
import InlineBinding.Files.Tree
import InlineBinding.Config
import InlineBinding.Build
import InlineBinding.Command.Arguments
import InlineBinding.Command.Help
import InlineBinding.Command.Run
import InlineBinding.Main
import InlineBinding.Proofs.Text.Replace
import InlineBinding.Proofs.Literal.Escape
import InlineBinding.Proofs.Accessor.Path
import InlineBinding.Proofs.Accessor.Span
import InlineBinding.Proofs.Delimiters.Binding
import InlineBinding.Proofs.Delimiters.Block
import InlineBinding.Proofs.Expression.Grammar
import InlineBinding.Proofs.Expression.Meaning
import InlineBinding.Proofs.Text.Passes
import InlineBinding.Proofs.Text.Labels
import InlineBinding.Proofs.Shield.Blocks
import InlineBinding.Proofs.Shield.RoundTrip
import InlineBinding.Proofs.Linked.Held
import InlineBinding.Proofs.Linked.Planting
import InlineBinding.Proofs.Linked.Shape
import InlineBinding.Proofs.Linked.Wrapping
import InlineBinding.Proofs.Binding.Attachments
import InlineBinding.Proofs.Binding.Progress
import InlineBinding.Proofs.Binding.Gathered
import InlineBinding.Proofs.Binding.Walk
import InlineBinding.Proofs.Binding.Directive
import InlineBinding.Proofs.Binding.Complete
import InlineBinding.Proofs.Shield.Marks
import InlineBinding.Proofs.Delimiters.Split
import InlineBinding.Proofs.Text.Mapped
import InlineBinding.Proofs.Markup.Restore
import InlineBinding.Proofs.Transform.Clauses
import InlineBinding.Proofs.Transform.Guarded
import InlineBinding.Proofs.Markup.Render
import InlineBinding.Proofs.Markup.Attributes
import InlineBinding.Proofs.Transform.Output
import InlineBinding.Proofs.Binding.Kept
import InlineBinding.Proofs.Binding.Total
import InlineBinding.Proofs.Binding.Placement
import InlineBinding.Proofs.Html.Written
import InlineBinding.Proofs.Html.Nesting
import InlineBinding.Proofs.Text.Settled
import InlineBinding.Proofs.Html.Recoded
import InlineBinding.Proofs.Markup.Source
import InlineBinding.Proofs.Markup.Reread
import InlineBinding.Proofs.Binding.Idle
import InlineBinding.Proofs.Delimiters.Exchange
import InlineBinding.Proofs.Transform.Verbatim
import InlineBinding.Proofs.Shield.Fresh
import InlineBinding.Proofs.Transform.Literals
import InlineBinding.Proofs.Binding.Naming
import InlineBinding.Proofs.Delimiters.Words
import InlineBinding.Proofs.Binding.Retained
import InlineBinding.Proofs.Html.Skipped
import InlineBinding.Proofs.Html.Steps
import InlineBinding.Proofs.Html.Growth
import InlineBinding.Proofs.Markup.Recovered
import InlineBinding.Proofs.Markup.Words
import InlineBinding.Proofs.Transform.Dropped
import InlineBinding.Proofs.Html.Sections
import InlineBinding.Proofs.Html.Normalized
import InlineBinding.Proofs.Html.Opening
import InlineBinding.Proofs.Markup.Front
import InlineBinding.Proofs.Markup.Skeleton
import InlineBinding.Proofs.Html.Relabelled
import InlineBinding.Proofs.Html.Placed
import InlineBinding.Proofs.Markup.Spelled
import InlineBinding.Proofs.Html.Commented
import InlineBinding.Proofs.Markup.Commented
import InlineBinding.Proofs.Binding.Finished
import InlineBinding.Proofs.Transform.Commented
import InlineBinding.Proofs.Html.References
import InlineBinding.Proofs.Delimiters.Ahead
import InlineBinding.Proofs.Expression.References
import InlineBinding.Proofs.Markup.Hosted
import InlineBinding.Proofs.Transform.Placeholders
import InlineBinding.Proofs.Transform.References
import InlineBinding.Proofs.Binding.Untouched
import InlineBinding.Proofs.Binding.Rescanned
import InlineBinding.Proofs.Transform.Rescanned
import InlineBinding.Proofs.Transform.Sessions
import InlineBinding.Proofs.Transform.Separated
import InlineBinding.Proofs.Delimiters.Grammar
import InlineBinding.Proofs.Text.Utf8
import InlineBinding.Proofs.Text.Separated
import InlineBinding.Proofs.Files.Path
import InlineBinding.Proofs.Files.Tree
import InlineBinding.Proofs.Runs
import InlineBinding.Proofs.Build.Project
import InlineBinding.Proofs.Options.Layers
import InlineBinding.Proofs.Command.Delivered
import InlineBinding.Proofs.Shield.Exact
import InlineBinding.Proofs.Delimiters.Placeholder
import InlineBinding.Proofs.Binding.Again
import InlineBinding.Proofs.Binding.Sources
import InlineBinding.Proofs.Transform.Closed
import InlineBinding.Proofs.Markup.Merged
import InlineBinding.Proofs.Literal.Inverse
import InlineBinding.Proofs.Markup.Hidden
import InlineBinding.Proofs.Options.Resolved
import InlineBinding.Proofs.Text.Collapsed
import InlineBinding.Proofs.Markup.Texts
import InlineBinding.Proofs.Markup.Searched
import InlineBinding.Proofs.Linked.Spliced
