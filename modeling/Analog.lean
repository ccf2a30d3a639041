import Analog.Collection.Optional
import Analog.Device.Reread
import Analog.Main
import Analog.Proofs.Circuit.AliasDirections
import Analog.Proofs.Circuit.MergedNodes
import Analog.Proofs.Circuit.Registers
import Analog.Proofs.Dataflow.AssignmentOrder
import Analog.Proofs.Device.FailedDeclarations
import Analog.Proofs.Device.ReverseDependencies
import Analog.Proofs.Device.UntangledShorts
import Analog.Proofs.Guarded.Elaboration
import Analog.Proofs.Lexer.Identifiers
import Analog.Proofs.Lexer.PatternEvaluation
import Analog.Proofs.Lexer.SourceLines
import Analog.Proofs.Lexer.Tiling
import Analog.Proofs.Parser.StackDiscipline
import Analog.Proofs.Parser.Unambiguity
import Analog.Proofs.Resolver.PrinterAgreement
import Analog.Proofs.Resolver.ResolvingAgain
import Analog.Proofs.Resolver.SimplifiedSummary
import Analog.Proofs.Statement.Interference
import Analog.Proofs.Summary.AbsorbingJoin
import Analog.Proofs.Summary.Monotone
import Analog.Proofs.Summary.ProbeSets
import Analog.Proofs.Tree.RationalExactness
import Analog.Proofs.Tree.RecordedReads
