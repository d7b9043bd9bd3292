import Formula.Bindings
import Formula.Command
import Formula.Command.Arguments
import Formula.EvalError
import Formula.Evaluation
import Formula.Expr
import Formula.Expr.Error
import Formula.Expr.Parser
import Formula.Expr.Render
import Formula.Expr.Simplify
import Formula.Expr.Symbols
import Formula.Instruction
import Formula.Json
import Formula.Json.Printer
import Formula.Json.Reader
import Formula.Language
import Formula.Language.Document
import Formula.Machine
import Formula.Machine.Await
import Formula.Machine.World
import Formula.Main
import Formula.Number.Decimal
import Formula.Number.Elementary
import Formula.Number.Exact
import Formula.Number.Numeral
import Formula.Number.Shortest
import Formula.Number.Text
import Formula.Operation
import Formula.Operation.Apply
import Formula.Proofs.Expr.Balance
import Formula.Proofs.Expr.Derived
import Formula.Proofs.Expr.Ordered
import Formula.Proofs.Expr.Parsed
import Formula.Proofs.Expr.Parts
import Formula.Proofs.Language.Extended
import Formula.Proofs.Machine.Known
import Formula.Proofs.Machine.Plan
import Formula.Proofs.Machine.Safety
import Formula.Proofs.Machine.Shape
import Formula.Proofs.Machine.Sound
import Formula.Proofs.Outcome
import Formula.Proofs.Session
import Formula.Proofs.Simplify.Failing
import Formula.Proofs.Simplify.Functions
import Formula.Proofs.Simplify.Members
import Formula.Proofs.Simplify.Preserved
import Formula.Proofs.Simplify.Reads
import Formula.Proofs.Tree.Agreement
import Formula.Proofs.Tree.Cases
import Formula.Proofs.Tree.Compiled
import Formula.Proofs.Tree.Evaluator
import Formula.Proofs.Tree.Instructions
import Formula.Proofs.Tree.Operators
import Formula.Proofs.Tree.Reading
import Formula.Proofs.Tree.Refinement
import Formula.Proofs.Values.Flow
import Formula.Proofs.Values.Guard
import Formula.Proofs.Waiting.Calls
import Formula.Proofs.Waiting.Later
import Formula.Record
import Formula.Standard
import Formula.Stop
import Formula.Text.Alphabetic
import Formula.Text.Blank
import Formula.Text.Position
import Formula.Text.Quoted
import Formula.Text.Ranges
import Formula.Text.Units
import Formula.Token
import Formula.Token.Error
import Formula.Token.Lexer
import Formula.Value
import Formula.Value.Json
import Formula.Value.Text
import Formula.Proofs.Expr.Every
import Formula.Proofs.Expr.Literals
import Formula.Proofs.Numbers.Doubles
import Formula.Proofs.Numbers.Layout
import Formula.Proofs.Numbers.Signs
import Formula.Proofs.Printed.Blocks
import Formula.Proofs.Printed.Folded
import Formula.Proofs.Printed.Legible
import Formula.Proofs.Printed.Lexical
import Formula.Proofs.Printed.Reread
import Formula.Proofs.Printed.Opened
import Formula.Proofs.Printed.RoundTrip
import Formula.Proofs.Numbers.Negation
import Formula.Proofs.Printed.Literals
import Formula.Proofs.Depth.Lockstep
import Formula.Proofs.Depth.Machines
import Formula.Proofs.Depth.Threshold
import Formula.Proofs.Termination
import Formula.Proofs.Prepared.Sessions
import Formula.Proofs.Scope.Kept
import Formula.Proofs.Waiting.Traversals
import Formula.Proofs.Depth.Between
import Formula.Proofs.Scope.Agreeing
import Formula.Proofs.Language.Permitted
import Formula.Proofs.Scope.InPlace
import Formula.Proofs.Scope.Paths
import Formula.Proofs.Simplify.Stages
import Formula.Proofs.Parser.Precedence
import Formula.Proofs.Substitute.Preserved
import Formula.Proofs.Tokens.Places
import Formula.Proofs.Tokens.Spelled
import Formula.Proofs.Tokens.Tiles
import Formula.Proofs.Scope.Chains
import Formula.Proofs.Tokens.Followed
import Formula.Proofs.Tokens.Respaced
import Formula.Proofs.Parser.Related
import Formula.Proofs.Parser.Spacing
import Formula.Proofs.Simplify.Names
import Formula.Proofs.Numbers.Grammar
import Formula.Proofs.Numbers.Denoted
import Formula.Proofs.Values.Equality
import Formula.Proofs.Tree.Search
import Formula.Proofs.Values.Conversion
import Formula.Proofs.Numbers.Integral
import Formula.Proofs.Values.Documents
import Formula.Proofs.Values.Units
import Formula.Proofs.Tree.Places
import Formula.Proofs.Tokens.Strings
import Formula.Proofs.Json.Recovered
import Formula.Proofs.Json.Numerals
import Formula.Proofs.Json.Reading
import Formula.Proofs.Json.Assigned
import Formula.Proofs.Reserved.Runs
import Formula.Proofs.Substitute.Defined
