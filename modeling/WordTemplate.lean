import WordTemplate.Binding.Condition
import WordTemplate.Binding.Driver
import WordTemplate.Binding.Formatter
import WordTemplate.Binding.Model
import WordTemplate.Binding.Path
import WordTemplate.Block.Expansion
import WordTemplate.Block.Nesting
import WordTemplate.Block.Placement
import WordTemplate.Block.Template
import WordTemplate.CommandLine.Arguments
import WordTemplate.CommandLine.Run
import WordTemplate.Config.Basic
import WordTemplate.Config.Decoding
import WordTemplate.Config.Expansion
import WordTemplate.Config.Loading
import WordTemplate.Decimal.Literal
import WordTemplate.Decimal.Shortest
import WordTemplate.Directive.Body
import WordTemplate.Directive.Kind
import WordTemplate.Directive.Scan
import WordTemplate.Error
import WordTemplate.Finishing
import WordTemplate.FlatText
import WordTemplate.Forest
import WordTemplate.Host.Basic
import WordTemplate.Host.FileTree
import WordTemplate.Host.Path
import WordTemplate.Json.Reading
import WordTemplate.Json.Token
import WordTemplate.Json.Value
import WordTemplate.Json.Writing
import WordTemplate.Main
import WordTemplate.Preparation
import WordTemplate.Processing
import WordTemplate.Text.Alphanumeric
import WordTemplate.Text.Blank
import WordTemplate.Text.Case
import WordTemplate.Text.CaseTable
import WordTemplate.Text.Numeral
import WordTemplate.Text.Pieces
import WordTemplate.Toml.Quoted
import WordTemplate.Toml.Reading
import WordTemplate.Toml.Scalar
import WordTemplate.Toml.Table
import WordTemplate.Toml.Value
import WordTemplate.Word.Mark
import WordTemplate.Word.Names
import WordTemplate.Word.Paragraph
import WordTemplate.Word.Text
import WordTemplate.Xml.Division
import WordTemplate.Xml.Document
import WordTemplate.Xml.Edit
import WordTemplate.Xml.Error
import WordTemplate.Xml.Label
import WordTemplate.Xml.Markup
import WordTemplate.Xml.Reading
import WordTemplate.Xml.Tag
import WordTemplate.Xml.Token
import WordTemplate.Proofs.Xml.Spot
import WordTemplate.Proofs.Xml.CharacterData
import WordTemplate.Proofs.Xml.Editing
import WordTemplate.Proofs.Xml.Formatting
import WordTemplate.Proofs.Block.PlaceAll
import WordTemplate.Proofs.Word.Sign
import WordTemplate.Proofs.Xml.Scope
import WordTemplate.Proofs.Block.Extraction
import WordTemplate.Proofs.Word.Writing
import WordTemplate.Proofs.Binding.Step
import WordTemplate.Proofs.Binding.Substitution
import WordTemplate.Proofs.Block.Expansion
import WordTemplate.Proofs.Block.Instance
import WordTemplate.Proofs.Word.Paragraph
import WordTemplate.Proofs.Block.Soundness
import WordTemplate.Proofs.Block.Agreement
import WordTemplate.Proofs.Block.Validation
import WordTemplate.Proofs.Block.Reading
import WordTemplate.Proofs.Word.Run
import WordTemplate.Proofs.Word.Entries
import WordTemplate.Proofs.Word.Isolation
import WordTemplate.Proofs.Word.Detachment
import WordTemplate.Proofs.Directive.Scan
import WordTemplate.Proofs.Directive.Finding
import WordTemplate.Proofs.Preparation
import WordTemplate.Proofs.Block.ExtractAny
import WordTemplate.Proofs.Block.InPlace
import WordTemplate.Proofs.Block.PlaceAny
import WordTemplate.Proofs.Processing.Building
import WordTemplate.Proofs.Processing.Checking
import WordTemplate.Proofs.Processing.Leftover
import WordTemplate.Proofs.Processing.Lookup
import WordTemplate.Proofs.Processing.Calls
import WordTemplate.Proofs.Processing.Artefacts
import WordTemplate.Proofs.Processing.Spacing
import WordTemplate.Proofs.Processing.Stripping
import WordTemplate.Proofs.Block.Accepting
import WordTemplate.Proofs.Processing.Skipping
import WordTemplate.Proofs.Processing.Confined
import WordTemplate.Proofs.Processing.Instances
import WordTemplate.Proofs.Processing.Restoring
import WordTemplate.Proofs.Processing.Settled
import WordTemplate.Proofs.Processing.Numbering
import WordTemplate.Proofs.Processing.Flattening
import WordTemplate.Proofs.Mapping
import WordTemplate.Proofs.Directive.Arguments
import WordTemplate.Proofs.Word.Renumbering
import WordTemplate.Proofs.Xml.Keys
import WordTemplate.Proofs.Xml.Removal
import WordTemplate.Proofs.Xml.Insertion
import WordTemplate.Proofs.Binding.Comparison
import WordTemplate.Proofs.Word.Lines
import WordTemplate.Proofs.Word.Trimming
import WordTemplate.Proofs.Xml.Navigation
import WordTemplate.Proofs.Config.Loading
import WordTemplate.Proofs.Xml.Retouching
import WordTemplate.Proofs.Word.Retouching
import WordTemplate.Proofs.Block.Rows
import WordTemplate.Proofs.Block.Plots
import WordTemplate.Proofs.Block.RowContents
import WordTemplate.Proofs.Block.Grids
import WordTemplate.Proofs.Word.Upright
import WordTemplate.Proofs.Word.Rows
import WordTemplate.Proofs.Block.RowInstances
import WordTemplate.Proofs.Block.RowGroups
import WordTemplate.Proofs.Processing.AroundRows
import WordTemplate.Proofs.Processing.Rows
import WordTemplate.Proofs.Block.RowSections
import WordTemplate.Proofs.Processing.RowSections
