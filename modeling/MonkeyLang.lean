import MonkeyLang.Bytecode.Emitter
import MonkeyLang.Bytecode.Expectation
import MonkeyLang.CommandLine
import MonkeyLang.Lexer
import MonkeyLang.Main
import MonkeyLang.Proofs.ControlFlow
import MonkeyLang.Proofs.Derivation
import MonkeyLang.Proofs.StackBalance
import MonkeyLang.Proofs.CodeLayout
import MonkeyLang.Proofs.ValidCode
import MonkeyLang.Proofs.Evaluation
import MonkeyLang.Proofs.StackMachine
import MonkeyLang.Proofs.Simulation
import MonkeyLang.Proofs.Pass
import MonkeyLang.Proofs.Agreement
import MonkeyLang.Proofs.PassSteps
import MonkeyLang.Proofs.NameResolution
import MonkeyLang.Proofs.Captures
import MonkeyLang.Proofs.Initialization
import MonkeyLang.Proofs.Assembly
import MonkeyLang.Proofs.CaptureWiring
import MonkeyLang.Proofs.Spelling
import MonkeyLang.Proofs.ParserSoundness
import MonkeyLang.Proofs.Lexing
import MonkeyLang.Proofs.Words
import MonkeyLang.Proofs.ParserCompleteness
import MonkeyLang.Proofs.Positions
import MonkeyLang.Proofs.Printing
import MonkeyLang.Proofs.Pools
import MonkeyLang.Proofs.StorageFormat
import MonkeyLang.Proofs.Artifacts
import MonkeyLang.Proofs.LexicalScoping
import MonkeyLang.Proofs.NameChecking
import MonkeyLang.Proofs.ErrorOrder
import MonkeyLang.Proofs.Moments
import MonkeyLang.Proofs.Aliases
import MonkeyLang.Proofs.DeclarationSites
import MonkeyLang.Proofs.DeclarationRecords
import MonkeyLang.Proofs.Unused
import MonkeyLang.Proofs.CallChecking
import MonkeyLang.Proofs.HashKeys
import MonkeyLang.Proofs.Parentheses
import MonkeyLang.Proofs.Partition
import MonkeyLang.Proofs.ReadingLaws
import MonkeyLang.Proofs.CommonReading
import MonkeyLang.Proofs.SyntaxErrors
import MonkeyLang.Proofs.Progress
import MonkeyLang.Proofs.RecoveryLocality
import MonkeyLang.Proofs.PositionBounds
import MonkeyLang.Proofs.NodeSpans
import MonkeyLang.Proofs.BlockRecovery
import MonkeyLang.Proofs.Responses
import MonkeyLang.Proofs.ExecutableSize
import MonkeyLang.Proofs.ArtifactHistory
import MonkeyLang.Proofs.SourceLayout
import MonkeyLang.Proofs.LineTable
import MonkeyLang.Proofs.CodeSelection
import MonkeyLang.Proofs.Literals
import MonkeyLang.Proofs.StatementLines
import MonkeyLang.Proofs.Emission
import MonkeyLang.Proofs.Rendering
import MonkeyLang.Proofs.Listing
import MonkeyLang.Proofs.Outlines
import MonkeyLang.Proofs.Positionless
import MonkeyLang.Proofs.ScopeRuns
import MonkeyLang.Proofs.TableRuns
import MonkeyLang.Proofs.PoolRuns
import MonkeyLang.Proofs.TrackerRuns
import MonkeyLang.Proofs.StringEscapes
