import StoryScript.Board
import StoryScript.Command
import StoryScript.Command.Load
import StoryScript.Console
import StoryScript.Console.Arguments
import StoryScript.Context
import StoryScript.Document
import StoryScript.Document.Lexeme
import StoryScript.Effect
import StoryScript.Fault
import StoryScript.Functions
import StoryScript.Host
import StoryScript.Instance
import StoryScript.Json.Basic
import StoryScript.Json.Number
import StoryScript.Json.Reader
import StoryScript.Library
import StoryScript.Main
import StoryScript.Markup.Character
import StoryScript.Markup.Cursor
import StoryScript.Markup.Element
import StoryScript.Markup.Problem
import StoryScript.Markup.Reference
import StoryScript.Node
import StoryScript.Node.Json
import StoryScript.Numeral.Binary
import StoryScript.Numeral.Decimal
import StoryScript.Numeral.Layout
import StoryScript.Numeral.Shortest
import StoryScript.Operand
import StoryScript.Proofs.Answer
import StoryScript.Proofs.Arrivals
import StoryScript.Proofs.Assembly
import StoryScript.Proofs.ByHand
import StoryScript.Proofs.Captured
import StoryScript.Proofs.Census
import StoryScript.Proofs.Course
import StoryScript.Proofs.Crossing
import StoryScript.Proofs.Delivery
import StoryScript.Proofs.Elapsed
import StoryScript.Proofs.Ending
import StoryScript.Proofs.Evaluation
import StoryScript.Proofs.Fidelity
import StoryScript.Proofs.Finality
import StoryScript.Proofs.Flaws
import StoryScript.Proofs.Flow
import StoryScript.Proofs.Frame
import StoryScript.Proofs.Grammar
import StoryScript.Proofs.Granting
import StoryScript.Proofs.Handling
import StoryScript.Proofs.Iterations
import StoryScript.Proofs.Journal
import StoryScript.Proofs.Lifecycle
import StoryScript.Proofs.Literals
import StoryScript.Proofs.Loading
import StoryScript.Proofs.Locations
import StoryScript.Proofs.Naming
import StoryScript.Proofs.Nesting
import StoryScript.Proofs.Operands
import StoryScript.Proofs.Origins
import StoryScript.Proofs.Overlap
import StoryScript.Proofs.Parsed
import StoryScript.Proofs.Pattern
import StoryScript.Proofs.Queries
import StoryScript.Proofs.Reach
import StoryScript.Proofs.Reading
import StoryScript.Proofs.Renewal
import StoryScript.Proofs.Replay
import StoryScript.Proofs.Restored
import StoryScript.Proofs.Rounds
import StoryScript.Proofs.Scanning
import StoryScript.Proofs.Schedule
import StoryScript.Proofs.Selection
import StoryScript.Proofs.Sole
import StoryScript.Proofs.Spending
import StoryScript.Proofs.Surplus
import StoryScript.Proofs.Targets
import StoryScript.Proofs.Tick
import StoryScript.Proofs.Trail
import StoryScript.Proofs.TurnOrder
import StoryScript.Proofs.Turns
import StoryScript.Proofs.Unrolling
import StoryScript.Proofs.Upkeep
import StoryScript.Proofs.Verdicts
import StoryScript.Proofs.Wakeup
import StoryScript.Proofs.Watching
import StoryScript.Proofs.Widening
import StoryScript.Proofs.Workload
import StoryScript.Proofs.Written
import StoryScript.Queue
import StoryScript.Scope
import StoryScript.Script
import StoryScript.Script.Arithmetic
import StoryScript.Script.Datum
import StoryScript.Script.Eval
import StoryScript.Script.Expr
import StoryScript.Script.Lexeme
import StoryScript.Script.Parser
import StoryScript.Script.Problem
import StoryScript.Script.Reference
import StoryScript.Slot
import StoryScript.Table
import StoryScript.Task
import StoryScript.Template
import StoryScript.Text.Blank
import StoryScript.Value
import StoryScript.Value.Json
import StoryScript.Vocabulary
import StoryScript.Watch
import StoryScript.World
