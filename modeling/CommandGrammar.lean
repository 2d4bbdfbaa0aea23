import CommandGrammar.AlarmClock
import CommandGrammar.Bytes
import CommandGrammar.Call.Token
import CommandGrammar.Command.Dispatcher
import CommandGrammar.Command.Wrap
import CommandGrammar.Grammar.Compile
import CommandGrammar.Grammar.Fault
import CommandGrammar.Grammar.Parse
import CommandGrammar.Grammar.Symbols
import CommandGrammar.Grammar.Token
import CommandGrammar.Main
import CommandGrammar.Matching.Arrangement
import CommandGrammar.Matching.Attempt
import CommandGrammar.Matching.Failure
import CommandGrammar.Matching.Lookup
import CommandGrammar.Matching.Match
import CommandGrammar.Matching.Policy
import CommandGrammar.Matching.Progress
import CommandGrammar.Pattern.Basic
import CommandGrammar.Pattern.Expected
import CommandGrammar.Pattern.Flatten
import CommandGrammar.Pattern.Render
import CommandGrammar.Proofs.AlarmClock
import CommandGrammar.Proofs.Call.Faithful
import CommandGrammar.Proofs.Call.Partition
import CommandGrammar.Proofs.Call.Quoted
import CommandGrammar.Proofs.Call.Slices
import CommandGrammar.Proofs.Call.Verbatim
import CommandGrammar.Proofs.Call.Words
import CommandGrammar.Proofs.Command.Dispatch
import CommandGrammar.Proofs.Command.History
import CommandGrammar.Proofs.Command.Wrap
import CommandGrammar.Proofs.Grammar.Accepts
import CommandGrammar.Proofs.Grammar.Brackets
import CommandGrammar.Proofs.Grammar.Canonical
import CommandGrammar.Proofs.Grammar.Flattened
import CommandGrammar.Proofs.Grammar.Faults
import CommandGrammar.Proofs.Grammar.Follows
import CommandGrammar.Proofs.Grammar.Grouped
import CommandGrammar.Proofs.Grammar.Groups
import CommandGrammar.Proofs.Grammar.Language
import CommandGrammar.Proofs.Grammar.Lexing
import CommandGrammar.Proofs.Grammar.Mirrors
import CommandGrammar.Proofs.Grammar.Moves
import CommandGrammar.Proofs.Grammar.Partition
import CommandGrammar.Proofs.Grammar.Reached
import CommandGrammar.Proofs.Grammar.Reads
import CommandGrammar.Proofs.Grammar.Recompiling
import CommandGrammar.Proofs.Grammar.Registers
import CommandGrammar.Proofs.Grammar.Relexing
import CommandGrammar.Proofs.Grammar.Remembered
import CommandGrammar.Proofs.Grammar.Rendering
import CommandGrammar.Proofs.Grammar.Sound
import CommandGrammar.Proofs.Grammar.Spelling
import CommandGrammar.Proofs.Grammar.WellFormed
import CommandGrammar.Proofs.Matching.Accounts
import CommandGrammar.Proofs.Matching.Answers
import CommandGrammar.Proofs.Matching.Behind
import CommandGrammar.Proofs.Matching.Best
import CommandGrammar.Proofs.Matching.Children
import CommandGrammar.Proofs.Matching.Choice
import CommandGrammar.Proofs.Matching.Coherence
import CommandGrammar.Proofs.Matching.Contest
import CommandGrammar.Proofs.Matching.Course
import CommandGrammar.Proofs.Matching.Derivation
import CommandGrammar.Proofs.Matching.Entries
import CommandGrammar.Proofs.Matching.Findings
import CommandGrammar.Proofs.Matching.Flatten
import CommandGrammar.Proofs.Matching.Fork
import CommandGrammar.Proofs.Matching.Forward
import CommandGrammar.Proofs.Matching.Gain
import CommandGrammar.Proofs.Matching.Literals
import CommandGrammar.Proofs.Matching.Metered
import CommandGrammar.Proofs.Matching.Orders
import CommandGrammar.Proofs.Matching.Parallel
import CommandGrammar.Proofs.Matching.Replay
import CommandGrammar.Proofs.Matching.Rounds
import CommandGrammar.Proofs.Matching.Simplify
import CommandGrammar.Proofs.Matching.Soundness
import CommandGrammar.Proofs.Matching.Stepwise
import CommandGrammar.Proofs.Matching.Strategies
import CommandGrammar.Proofs.Matching.Suggestions
import CommandGrammar.Proofs.Matching.Tails
import CommandGrammar.Proofs.Matching.Types
import CommandGrammar.Proofs.Matching.UnorderedLiterals
import CommandGrammar.Proofs.Matching.Values
import CommandGrammar.Proofs.Matching.Variants
import CommandGrammar.Proofs.Matching.Verdict
import CommandGrammar.Proofs.Matching.Writing
import CommandGrammar.Proofs.Pattern.Canonical
import CommandGrammar.Proofs.Pattern.Flatten
import CommandGrammar.Proofs.Pattern.Formed
import CommandGrammar.Proofs.Pattern.Inventory
import CommandGrammar.Proofs.Pattern.Nodes
import CommandGrammar.Proofs.Pattern.Required
import CommandGrammar.Proofs.Pattern.Writing
import CommandGrammar.Proofs.Pieces
import CommandGrammar.Proofs.Score
import CommandGrammar.Proofs.Similarity
import CommandGrammar.Proofs.Similarity.Loops
import CommandGrammar.Proofs.Similarity.Measure
import CommandGrammar.Proofs.Similarity.Pairing
import CommandGrammar.Proofs.Table
import CommandGrammar.Proofs.Value.Integers
import CommandGrammar.Report
import CommandGrammar.Score
import CommandGrammar.Similarity
import CommandGrammar.Specials
import CommandGrammar.Table
import CommandGrammar.Value.Basic
import CommandGrammar.Value.Binary64
import CommandGrammar.Value.Number
