import CPretty.Main
import CPretty.Proofs.Doc.Arrangement
import CPretty.Proofs.Doc.Dump
import CPretty.Proofs.Doc.Flat
import CPretty.Proofs.Doc.Layout
import CPretty.Proofs.Doc.Lines
import CPretty.Proofs.Doc.Stack
import CPretty.Proofs.Doc.Tidy
import CPretty.Proofs.Doc.Width
import CPretty.Proofs.Format.Append
import CPretty.Proofs.Format.Depth
import CPretty.Proofs.Format.Expression
import CPretty.Proofs.Format.Faults
import CPretty.Proofs.Format.Header
import CPretty.Proofs.Format.Independence
import CPretty.Proofs.Format.Ladder
import CPretty.Proofs.Format.Layouts
import CPretty.Proofs.Format.Parentheses
import CPretty.Proofs.Format.Ranges
import CPretty.Proofs.Format.Relexed
import CPretty.Proofs.Format.RoundTrip
import CPretty.Proofs.Format.Tidy
import CPretty.Proofs.Format.Tokens
import CPretty.Proofs.Format.Totality
import CPretty.Proofs.Grammar.Alike.Declaration
import CPretty.Proofs.Grammar.Alike.Expression
import CPretty.Proofs.Grammar.Alike.SourceFile
import CPretty.Proofs.Grammar.Attached
import CPretty.Proofs.Grammar.Blind.Declaration
import CPretty.Proofs.Grammar.Blind.Expression
import CPretty.Proofs.Grammar.Blind.SourceFile
import CPretty.Proofs.Grammar.Blind.Statement
import CPretty.Proofs.Grammar.Completeness
import CPretty.Proofs.Grammar.Concat
import CPretty.Proofs.Grammar.Derivation
import CPretty.Proofs.Grammar.Detaching
import CPretty.Proofs.Grammar.Dots
import CPretty.Proofs.Grammar.Grafting
import CPretty.Proofs.Grammar.Ladder
import CPretty.Proofs.Grammar.Locality
import CPretty.Proofs.Grammar.Movable
import CPretty.Proofs.Grammar.Nesting
import CPretty.Proofs.Grammar.Parentheses
import CPretty.Proofs.Grammar.Plain
import CPretty.Proofs.Grammar.Precedence
import CPretty.Proofs.Grammar.Regular
import CPretty.Proofs.Grammar.Repetition
import CPretty.Proofs.Grammar.Reprinted
import CPretty.Proofs.Grammar.Rereading
import CPretty.Proofs.Grammar.Settled
import CPretty.Proofs.Grammar.Sited.Declaration
import CPretty.Proofs.Grammar.Sited.Expression
import CPretty.Proofs.Grammar.Sited.SourceFile
import CPretty.Proofs.Grammar.Soundness.Declaration
import CPretty.Proofs.Grammar.Soundness.Expression
import CPretty.Proofs.Grammar.Soundness.SourceFile
import CPretty.Proofs.Grammar.Spans.Declaration
import CPretty.Proofs.Grammar.Spans.Expression
import CPretty.Proofs.Grammar.Spans.SourceFile
import CPretty.Proofs.Grammar.Spelling
import CPretty.Proofs.Grammar.Trailing
import CPretty.Proofs.Grammar.Walk
import CPretty.Proofs.Machine.Agreement
import CPretty.Proofs.Machine.Declaration
import CPretty.Proofs.Machine.Discipline
import CPretty.Proofs.Machine.Expression
import CPretty.Proofs.Machine.Lookahead
import CPretty.Proofs.Machine.Operand
import CPretty.Proofs.Machine.Production
import CPretty.Proofs.Machine.Program
import CPretty.Proofs.Machine.Progress
import CPretty.Proofs.Machine.Repetition
import CPretty.Proofs.Machine.Run
import CPretty.Proofs.Machine.Specifier
import CPretty.Proofs.Machine.Statement
import CPretty.Proofs.Parse.Alike
import CPretty.Proofs.Parse.Brackets
import CPretty.Proofs.Parse.Completes
import CPretty.Proofs.Parse.Ensures
import CPretty.Proofs.Parse.Linked
import CPretty.Proofs.Parse.Place
import CPretty.Proofs.Parse.Sited
import CPretty.Proofs.Parse.Steps
import CPretty.Proofs.Syntax.Bare
import CPretty.Proofs.Syntax.Grafted
import CPretty.Proofs.Syntax.Header
import CPretty.Proofs.Syntax.Marks
import CPretty.Proofs.Syntax.Placement
import CPretty.Proofs.Syntax.Printed.Declaration
import CPretty.Proofs.Syntax.Printed.Expression
import CPretty.Proofs.Syntax.Printed.SourceFile
import CPretty.Proofs.Syntax.Printed.Statement
import CPretty.Proofs.Syntax.Printed.Tree
import CPretty.Proofs.Syntax.Respan
import CPretty.Proofs.Syntax.Spans
import CPretty.Proofs.Syntax.Within
import CPretty.Proofs.Text.Quoted
import CPretty.Proofs.Token.Adjacent
import CPretty.Proofs.Token.Canonical
import CPretty.Proofs.Token.CarriageReturn
import CPretty.Proofs.Token.Directive
import CPretty.Proofs.Token.Extent
import CPretty.Proofs.Token.Faults
import CPretty.Proofs.Token.Glued
import CPretty.Proofs.Token.Lexical
import CPretty.Proofs.Token.LineEnd
import CPretty.Proofs.Token.Longest
import CPretty.Proofs.Token.Pattern
import CPretty.Proofs.Token.Punctuator
import CPretty.Proofs.Token.Relexing
import CPretty.Proofs.Token.Respaced
import CPretty.Proofs.Token.Segments
import CPretty.Proofs.Token.Severed
import CPretty.Proofs.Token.Shift
import CPretty.Proofs.Token.Stream
