import NumericScript.Single.Basic
import NumericScript.Single.Bits
import NumericScript.Single.Arith
import NumericScript.Single.Decimal
import NumericScript.Single.FixedPoint
import NumericScript.Single.Elementary
import NumericScript.Builtin
import NumericScript.Source.Span
import NumericScript.Source.Whitespace
import NumericScript.Source.Line
import NumericScript.Token.Basic
import NumericScript.Token.Scan
import NumericScript.Error
import NumericScript.Tree.Expr
import NumericScript.Tree.Stmt
import NumericScript.Grammar.Expr
import NumericScript.Grammar.Tier
import NumericScript.Grammar.Progress
import NumericScript.Grammar.Cond
import NumericScript.Grammar.Outline
import NumericScript.Grammar.Program
import NumericScript.Word
import NumericScript.Store.Name
import NumericScript.Store.Address
import NumericScript.Store.Diagnostic
import NumericScript.Store.Basic
import NumericScript.Store.Environment
import NumericScript.Run.Limits
import NumericScript.Run.Reading
import NumericScript.Run.Basic
import NumericScript.Narration
import NumericScript.CommandLine.Options
import NumericScript.CommandLine.Response
import NumericScript.Main
import NumericScript.Proofs.Glyph.Basic
import NumericScript.Proofs.Glyph.Tree
import NumericScript.Proofs.Glyph.Mention
import NumericScript.Proofs.Glyph.Shape
import NumericScript.Proofs.Glyph.Free
import NumericScript.Proofs.ReadBack.Expr
import NumericScript.Proofs.ReadBack.Cond
import NumericScript.Proofs.ReadBack.Program
import NumericScript.Proofs.Scanning.Cut
import NumericScript.Proofs.Scanning.Lines
import NumericScript.Proofs.ReadBack.Source
import NumericScript.Proofs.Nesting.Level
import NumericScript.Proofs.Nesting.Bare
import NumericScript.Proofs.Nesting.Expr
import NumericScript.Proofs.Nesting.Cond
import NumericScript.Proofs.Nesting.Line
import NumericScript.Proofs.Nesting.Outline
import NumericScript.Proofs.Nesting.Program
import NumericScript.Proofs.Print.Text
import NumericScript.Proofs.Print.Cut
import NumericScript.Proofs.Print.Line
import NumericScript.Proofs.Print.Layout
import NumericScript.Proofs.Print.Scan
import NumericScript.Proofs.Print.Source
import NumericScript.Proofs.Print.Joins
import NumericScript.Proofs.Journal.Key
import NumericScript.Proofs.Journal.Step
import NumericScript.Proofs.Journal.Replay
import NumericScript.Proofs.Journal.Operation
import NumericScript.Proofs.Store.Listing
import NumericScript.Proofs.Store.Keeping
import NumericScript.Proofs.Scanning.Munch
import NumericScript.Proofs.Scanning.Split
import NumericScript.Proofs.Scanning.Places
import NumericScript.Proofs.Scanning.Stream
import NumericScript.Proofs.Scanning.Stray
import NumericScript.Proofs.Scanning.Tiles
import NumericScript.Proofs.Scanning.Names
import NumericScript.Proofs.Running.Evaluation
import NumericScript.Proofs.Running.Reach
import NumericScript.Proofs.Running.Accord
import NumericScript.Proofs.Running.Frame
import NumericScript.Proofs.Running.Limit
import NumericScript.Proofs.Running.Stopping
import NumericScript.Proofs.Running.Succession
import NumericScript.Proofs.Relocation.Move
import NumericScript.Proofs.Relocation.Expr
import NumericScript.Proofs.Relocation.Line
import NumericScript.Proofs.Relocation.Sequel
import NumericScript.Proofs.Relocation.Program
import NumericScript.Proofs.Relocation.Run
import NumericScript.Proofs.Layout.Texts
import NumericScript.Proofs.Layout.Tokens
import NumericScript.Proofs.Layout.OneLine
import NumericScript.Proofs.Layout.Edit
import NumericScript.Proofs.Layout.Alike
import NumericScript.Proofs.Running.Host
import NumericScript.Proofs.Composition.Lines
import NumericScript.Proofs.Composition.Outline
import NumericScript.Proofs.Composition.Program
import NumericScript.Proofs.Cursor.Course
import NumericScript.Proofs.Cursor.Walk
import NumericScript.Proofs.Cursor.Descent
import NumericScript.Proofs.Cursor.Trace
import NumericScript.Proofs.Cursor.Expr
import NumericScript.Proofs.Cursor.Line
import NumericScript.Proofs.Cursor.Outline
import NumericScript.Proofs.Cursor.Program
import NumericScript.Proofs.Cursor.Scanner
import NumericScript.Proofs.Cursor.Scan
import NumericScript.Proofs.Cursor.FrontEnd
import NumericScript.Proofs.Single.ReadBack
import NumericScript.Proofs.Single.Root
import NumericScript.Proofs.Layout.Shown
import NumericScript.Proofs.Running.Restoring
import NumericScript.Proofs.Faithful.Expr
import NumericScript.Proofs.Faithful.Outline
import NumericScript.Proofs.Faithful.Program
import NumericScript.Proofs.Faithful.Slice
import NumericScript.Proofs.Faithful.Around
import NumericScript.Proofs.Faithful.Excerpt
import NumericScript.Proofs.Faithful.Parts
import NumericScript.Proofs.Faithful.Spans
import NumericScript.Proofs.Refusal.Descent
import NumericScript.Proofs.Refusal.Limit
import NumericScript.Proofs.Running.Index
import NumericScript.Proofs.Store.Rewriting
import NumericScript.Proofs.Store.Access
import NumericScript.Proofs.Store.Keyed
import NumericScript.Proofs.Running.ReadOrder
import NumericScript.Proofs.Running.TargetName
import NumericScript.Proofs.Running.Branching
import NumericScript.Proofs.Layout.Lossless
import NumericScript.Proofs.Blame.Reader
import NumericScript.Proofs.Blame.Program
import NumericScript.Proofs.Blame.Source
import NumericScript.Proofs.Blame.Run
import NumericScript.Proofs.Running.Writes
import NumericScript.Proofs.Running.SharedNames
import NumericScript.Proofs.Store.Encoding
import NumericScript.Proofs.Running.Loop
import NumericScript.Proofs.Store.Loading
