import Containerfile.Bindings
import Containerfile.CommandLine.Files
import Containerfile.CommandLine.Invocation
import Containerfile.CommandLine.Run
import Containerfile.CommandLine.Settings
import Containerfile.CommandLine.Toml
import Containerfile.Comment
import Containerfile.Config
import Containerfile.Directive
import Containerfile.Document
import Containerfile.Document.Listing
import Containerfile.Document.Resolution
import Containerfile.Document.Stages
import Containerfile.Error
import Containerfile.ExecForm
import Containerfile.Expansion
import Containerfile.Failure
import Containerfile.Instruction.Basic
import Containerfile.Instruction.Command
import Containerfile.Instruction.Grammar
import Containerfile.Instruction.Keyword
import Containerfile.Instruction.Pairs
import Containerfile.Instruction.Stage
import Containerfile.KeyValue
import Containerfile.Lexeme
import Containerfile.Literal
import Containerfile.Literal.Scan
import Containerfile.Literal.Style
import Containerfile.Main
import Containerfile.Reader
import Containerfile.Reference.Head
import Containerfile.Text
import Containerfile.Text.Position
import Containerfile.Token
import Containerfile.Token.Edit
import Containerfile.Proofs.Readers
import Containerfile.Proofs.Lossless
import Containerfile.Proofs.Continuations
import Containerfile.Proofs.Walks
import Containerfile.Proofs.ClosedLines
import Containerfile.Proofs.Arrays
import Containerfile.Proofs.Fillers
import Containerfile.Proofs.LineEnds
import Containerfile.Proofs.Boundaries
import Containerfile.Proofs.Items
import Containerfile.Proofs.Directives
import Containerfile.Proofs.Appending
import Containerfile.Proofs.Cutting
import Containerfile.Proofs.Editing
import Containerfile.Proofs.Tails
import Containerfile.Proofs.Rereading
import Containerfile.Proofs.Absorption
import Containerfile.Proofs.Removing
import Containerfile.Proofs.Substitution
import Containerfile.Proofs.Resolution
import Containerfile.Proofs.Scoping
import Containerfile.Proofs.ParameterExpansion
import Containerfile.Proofs.Idempotence
import Containerfile.Proofs.SingleInstructions
import Containerfile.Proofs.Placement
import Containerfile.Proofs.Shape
import Containerfile.Proofs.Preservation
import Containerfile.Proofs.BuildArguments
import Containerfile.Proofs.Locations
import Containerfile.Proofs.CarriageReturns
import Containerfile.Proofs.Portability
import Containerfile.Proofs.Dispatch
import Containerfile.Proofs.Diagnostics
import Containerfile.Proofs.StageEdits
import Containerfile.Proofs.Undoing
import Containerfile.Proofs.WrittenArrays
import Containerfile.Proofs.Commands
import Containerfile.Proofs.QuotedWords
import Containerfile.Proofs.ContinuedValues
import Containerfile.Proofs.Followers
import Containerfile.Proofs.CreatedPairs
import Containerfile.Proofs.CreatedStages
import Containerfile.Proofs.ArrayReferences
import Containerfile.Proofs.RebuiltCommands
import Containerfile.Proofs.RepeatedDirectives
import Containerfile.Proofs.StageNames
import Containerfile.Proofs.Flags
import Containerfile.Proofs.Platforms
import Containerfile.Proofs.Arguments
import Containerfile.Proofs.FlagEdits
import Containerfile.Proofs.Fronts
import Containerfile.Proofs.WholeLines
import Containerfile.Proofs.ValueEnds
import Containerfile.Proofs.ValueEdits
import Containerfile.Proofs.Partition
import Containerfile.Proofs.AllOrNothing
import Containerfile.Proofs.UndeclaredNames
import Containerfile.Proofs.CreatedReferences
import Containerfile.Proofs.Positions
import Containerfile.Proofs.CreatedComments
import Containerfile.Proofs.Progress
