import ColorChain.Arithmetic
import ColorChain.Chain.Op
import ColorChain.Chain.Simplify
import ColorChain.Color.Affine
import ColorChain.Color.Channels
import ColorChain.Color.Derived
import ColorChain.Color.Grade
import ColorChain.Color.Luma
import ColorChain.Color.Matrix
import ColorChain.CommandLine.Grammar
import ColorChain.CommandLine.Report
import ColorChain.CommandLine.Request
import ColorChain.CommandLine.Run
import ColorChain.FileFormat
import ColorChain.Main
import ColorChain.Markup.Attribute
import ColorChain.Markup.Escape
import ColorChain.Markup.Event
import ColorChain.Markup.Piece
import ColorChain.Number.Binary
import ColorChain.Number.Decimal
import ColorChain.Number.Text
import ColorChain.Proofs.Chain.NormalForm
import ColorChain.Proofs.Chain.Pieces
import ColorChain.Proofs.Chain.Simplify
import ColorChain.Proofs.Chain.Undo
import ColorChain.Proofs.Color.Fit
import ColorChain.Proofs.Color.Gain
import ColorChain.Proofs.Color.Inverse
import ColorChain.Proofs.Color.Linear
import ColorChain.Proofs.Color.View
import ColorChain.Proofs.Color.Saturation
import ColorChain.Proofs.Markup.Attribute
import ColorChain.Proofs.Markup.Balance
import ColorChain.Proofs.Markup.Escape
import ColorChain.Proofs.Markup.Event
import ColorChain.Proofs.Markup.Fragment
import ColorChain.Proofs.Markup.Piece
import ColorChain.Proofs.Markup.Tree
import ColorChain.Proofs.Number.Bits
import ColorChain.Proofs.Number.Float
import ColorChain.Proofs.Number.Nearest
import ColorChain.Proofs.Number.Numeral
import ColorChain.Proofs.Number.Quotient
import ColorChain.Proofs.Number.Reciprocal
import ColorChain.Proofs.Number.Shortest
import ColorChain.Proofs.Number.Text
import ColorChain.Proofs.Outcome
import ColorChain.Proofs.Real
import ColorChain.Proofs.Record.Document
import ColorChain.Proofs.Record.File
import ColorChain.Proofs.Record.Fragment
import ColorChain.Proofs.Record.Gathered
import ColorChain.Proofs.Record.Passage
import ColorChain.Proofs.Record.Position
import ColorChain.Proofs.Record.SelfClosing
import ColorChain.Proofs.Record.Streaming
import ColorChain.Proofs.Record.Tree
import ColorChain.Proofs.Record.Truncated
import ColorChain.Proofs.Record.Written
import ColorChain.Proofs.Text.Ascii
import ColorChain.Proofs.Text.Blank
import ColorChain.Proofs.Text.Utf8
import ColorChain.Proofs.Transform.Allocation
import ColorChain.Proofs.Transform.Cancellation
import ColorChain.Proofs.Transform.Channelwise
import ColorChain.Proofs.Transform.Compilable
import ColorChain.Proofs.Transform.Divisors
import ColorChain.Proofs.Transform.Document
import ColorChain.Proofs.Transform.Nesting
import ColorChain.Proofs.Transform.Record
import ColorChain.Proofs.Transform.Resolve
import ColorChain.Proofs.Transform.Restore
import ColorChain.Proofs.Transform.Reversal
import ColorChain.Proofs.Transform.Saved
import ColorChain.Proofs.Transform.Tree
import ColorChain.Record.Correction
import ColorChain.Record.Document
import ColorChain.Record.Element
import ColorChain.Record.Fault
import ColorChain.Record.File
import ColorChain.Record.Written
import ColorChain.Storage.Directory
import ColorChain.Storage.Path
import ColorChain.Text.Blank
import ColorChain.Text.CaseProperty
import ColorChain.Text.LowerCase
import ColorChain.Text.Utf8
import ColorChain.Transform.Atom
import ColorChain.Transform.Compile
import ColorChain.Transform.Direction
import ColorChain.Transform.Document
import ColorChain.Transform.Fault
import ColorChain.Transform.Group
import ColorChain.Transform.Record
import ColorChain.Transform.Schedule
import ColorChain.Transform.Tree
import ColorChain.Transform.Validity
import ColorChain.Yaml.Document
import ColorChain.Yaml.Glyph
import ColorChain.Yaml.Lexer
import ColorChain.Yaml.Node
import ColorChain.Yaml.Plain
import ColorChain.Yaml.Property
import ColorChain.Yaml.Scalar
import ColorChain.Yaml.Token
import ColorChain.Yaml.Value
import ColorChain.Yaml.Written
import ColorChain.Proofs.Color.Saturation
import ColorChain.Proofs.Transform.WellFormed
