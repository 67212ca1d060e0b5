import Copione.Token.Scan
import Copione.Program.Parse
import Copione.Program.Sexp
import Copione.Program.Json
import Copione.Source.Cursor
import Copione.Source.Window
import Copione.Decimal.Numeral
import Copione.Diagnostic
import Copione.CommandLine
import Copione.Main
import Copione.Proofs.WindowSimulation
import Copione.Proofs.WindowedScan
import Copione.Proofs.ScanSteps
import Copione.Proofs.ParserSoundness
import Copione.Proofs.ParserCompleteness
import Copione.Proofs.ParserSafety
import Copione.Proofs.ExpressionLimits
import Copione.Proofs.Recovery
import Copione.Proofs.MalformedStatements
import Copione.Proofs.FlawedRuns
import Copione.Proofs.MarredPrograms
import Copione.Proofs.Balance
import Copione.Proofs.BrokenHeads
import Copione.Proofs.BrokenPrograms
import Copione.Proofs.Tiling
import Copione.Proofs.JoinedTexts
import Copione.Proofs.Coupling
import Copione.Proofs.CoupledEvaluation
import Copione.Proofs.ScopeStability
import Copione.Proofs.AlignedScopes
import Copione.Proofs.Isolation
import Copione.Proofs.NearestBindings
import Copione.Proofs.ParserSpelling
import Copione.Proofs.MovedPrograms
import Copione.Proofs.Sessions
import Copione.Proofs.RuntimeErrors
import Copione.Proofs.JoinedSessions
import Copione.Proofs.LexicalGrammar
import Copione.Proofs.LongestMatch
import Copione.Proofs.RejoinedLexemes
import Copione.Proofs.PairedSources
import Copione.Proofs.ReadPatterns
import Copione.Proofs.WriteTraces
import Copione.Proofs.TruncatedRuns
import Copione.Proofs.ExactSpans
import Copione.Proofs.Slices
import Copione.Proofs.ErrorLines
import Copione.Proofs.ResumedScans
import Copione.Proofs.BlameOrder
import Copione.Proofs.PromptLines
import Copione.Proofs.TolerantParser
import Copione.Proofs.ExpectedWords
import Copione.Proofs.TrackedParser
import Copione.Proofs.TrackedStatements
import Copione.Proofs.FirstErrors
import Copione.Proofs.FloatTexts
import Copione.Proofs.SexpTrees
import Copione.Proofs.FaithfulSexp
import Copione.Proofs.UnpackedFloats
import Copione.Proofs.ReadNumerals
import Copione.Proofs.LiteralRange
import Copione.Proofs.Truncation
import Copione.Proofs.GuardedWindow
import Copione.Proofs.WindowInvariants
import Copione.Proofs.WindowRepresentation
import Copione.Proofs.ScopeTrees
import Copione.Proofs.RunCourses
import Copione.Proofs.RootedRuns
