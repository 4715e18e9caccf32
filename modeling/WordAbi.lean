import WordAbi.Bytes.Basic
import WordAbi.Bytes.Hex
import WordAbi.Bytes.Sha256
import WordAbi.Call
import WordAbi.Chunk
import WordAbi.CommandLine.Arguments
import WordAbi.CommandLine.Help
import WordAbi.CommandLine.Invocation
import WordAbi.CommandLine.Run
import WordAbi.Configurable
import WordAbi.Console.Level
import WordAbi.Console.Moment
import WordAbi.Console.Record
import WordAbi.Decoder
import WordAbi.Fault
import WordAbi.Json.Basic
import WordAbi.Json.Lexeme
import WordAbi.Json.Reader
import WordAbi.Json.Writer
import WordAbi.Log
import WordAbi.Main
import WordAbi.Native.Basic
import WordAbi.Native.Display
import WordAbi.Native.Order
import WordAbi.Number.Binary64
import WordAbi.Number.Literal
import WordAbi.Number.Shortest
import WordAbi.ParamType.Basic
import WordAbi.ParamType.Signature
import WordAbi.Program.Basic
import WordAbi.Program.Violation
import WordAbi.Proofs.Bytes.Slice
import WordAbi.Proofs.Chunk.Layout
import WordAbi.Proofs.Decoder.Standing
import WordAbi.Proofs.Decoder.Window
import WordAbi.Proofs.Outcome
import WordAbi.Proofs.Token.Value
import WordAbi.Receipt
import WordAbi.Schema.Memory
import WordAbi.Schema.Property
import WordAbi.Schema.Flat
import WordAbi.Schema.Inline
import WordAbi.Schema.Reading
import WordAbi.Schema.Site
import WordAbi.Version
import WordAbi.Table
import WordAbi.Text.Character
import WordAbi.Text.Printable
import WordAbi.Text.Quoted
import WordAbi.Token.Basic
import WordAbi.Token.Display
import WordAbi.Token.Encoding
import WordAbi.Token.Native
import WordAbi.TypeExpr.Basic
import WordAbi.TypeExpr.Lexeme
import WordAbi.Word.Basic
import WordAbi.Proofs.Decoder.Reading
import WordAbi.Proofs.Decoder.RoundTrip
import WordAbi.Proofs.Decoder.Soundness
import WordAbi.Proofs.Schema.Build
import WordAbi.Proofs.ParamType.Height
import WordAbi.Proofs.Schema.Nesting
import WordAbi.Proofs.Schema.Flat.Account
import WordAbi.Proofs.Schema.Flat.Nesting
import WordAbi.Proofs.Schema.Inline.Account
import WordAbi.Proofs.Schema.Inline.Nesting
import WordAbi.Proofs.Schema.NestingLimit
import WordAbi.Proofs.Schema.Flat.Expansion
import WordAbi.Proofs.Schema.Flat.Anew
import WordAbi.Proofs.Schema.Flat.Sharing
import WordAbi.Proofs.Schema.Flat.Likeness
import WordAbi.Proofs.Chunk.Pointers
import WordAbi.Proofs.Call.Placement
import WordAbi.Proofs.Schema.Flat.Scopes
import WordAbi.Proofs.Schema.Inline.Meaning
import WordAbi.Proofs.Schema.Inline.Kind
import WordAbi.Proofs.Schema.Flat.Writing
import WordAbi.Proofs.Schema.Flat.Meaning
import WordAbi.Proofs.Schema.Runs
import WordAbi.Proofs.Schema.Simulation
import WordAbi.Proofs.Schema.Agreement
import WordAbi.Proofs.ParamType.Signature
import WordAbi.Proofs.Schema.Faults
import WordAbi.Proofs.Schema.Conduct
import WordAbi.Proofs.Schema.Flat.Termination
import WordAbi.Proofs.Schema.Flat.Cycle
import WordAbi.Proofs.Schema.Inline.Conduct
import WordAbi.Proofs.Schema.Inline.Attainable
import WordAbi.Proofs.Schema.Inline.Sharing
import WordAbi.Proofs.Decoder.Failure
import WordAbi.Proofs.Decoder.Surroundings
import WordAbi.Proofs.Decoder.Truncation
import WordAbi.Proofs.Schema.Inline.Labels
import WordAbi.Proofs.Token.Distinction
import WordAbi.Proofs.Program.Validity
import WordAbi.Proofs.Program.Answers
import WordAbi.Proofs.Token.Parts
import WordAbi.Proofs.Token.Written
import WordAbi.Proofs.Configurable.Frame
import WordAbi.Proofs.TypeExpr.Lexing
import WordAbi.Proofs.TypeExpr.Grammar
import WordAbi.Proofs.Schema.Flat.Recall
import WordAbi.Proofs.Schema.Flat.Labels
import WordAbi.Proofs.Token.Datum
import WordAbi.Proofs.Token.Spelling
import WordAbi.Proofs.Token.Refusal
import WordAbi.Proofs.Decoder.Payload
import WordAbi.Proofs.Program.Calling
import WordAbi.Proofs.Chunk.Relocation
import WordAbi.Proofs.Chunk.Addresses
import WordAbi.Proofs.Chunk.Concatenation
import WordAbi.Proofs.Token.Alignment
import WordAbi.Proofs.Token.Static
import WordAbi.Proofs.Token.Acceptance
import WordAbi.Proofs.Decoder.Inversion
import WordAbi.Proofs.Decoder.Weightless
import WordAbi.Proofs.Bytes.Span
import WordAbi.Proofs.Decoder.Regions
import WordAbi.Proofs.Decoder.Places
import WordAbi.Proofs.Token.Form
import WordAbi.Proofs.Decoder.Tokenized
import WordAbi.Proofs.Token.Respelling
import WordAbi.Proofs.Configurable.Splicing
import WordAbi.Proofs.Decoder.Renaming
import WordAbi.Proofs.Decoder.Zeros
import WordAbi.Proofs.Receipt.Fields
import WordAbi.Proofs.Decoder.Legible
import WordAbi.Proofs.Receipt.Logs
import WordAbi.Proofs.TypeExpr.Printing
import WordAbi.Proofs.TypeExpr.Limit
import WordAbi.Proofs.Schema.Replay
import WordAbi.Proofs.Schema.Flat.Retry
import WordAbi.Proofs.Schema.Inline.Recall
import WordAbi.Proofs.Schema.Steady
import WordAbi.Proofs.Schema.Inline.Display
import WordAbi.Proofs.Decoder.Cursor
import WordAbi.Proofs.TypeExpr.Tiling
import WordAbi.Proofs.TypeExpr.Custom
