import Proofhouse.Library.BoundedInteger
import Proofhouse.Library.Brackets
import Proofhouse.Library.ClimbingFailures
import Proofhouse.Library.ClimbingPrefixes
import Proofhouse.Library.ClimbingTotality
import Proofhouse.Library.Decimal
import Proofhouse.Library.Enclosures
import Proofhouse.Library.EuclideanDivisions
import Proofhouse.Library.Fairness
import Proofhouse.Library.GroupedSums
import Proofhouse.Library.OperatorGrammar
import Proofhouse.Library.Refinement
import Proofhouse.Library.RefusedLiterals
import Proofhouse.Library.SaturatingSum
import Proofhouse.Library.TokenMaps
import Proofhouse.Library.TransitionSystem
import Proofhouse.Library.ViewMemory
import Proofhouse.Library.WhileLoop
import Proofhouse.Ast
import Proofhouse.Cache
import Proofhouse.CacheCells
import Proofhouse.CacheProperties
import Proofhouse.CacheSharing
import Proofhouse.Concurrent
import Proofhouse.ConcurrentClaims
import Proofhouse.ConcurrentFairness
import Proofhouse.ConcurrentProgress
import Proofhouse.ConcurrentProperties
import Proofhouse.ConcurrentReductions
import Proofhouse.ConcurrentRefinement
import Proofhouse.ConcurrentWorkers
import Proofhouse.Coverage
import Proofhouse.CoverageProperties
import Proofhouse.Denotation
import Proofhouse.Errors
import Proofhouse.EvaluateCalls
import Proofhouse.EvaluationBounds
import Proofhouse.EvaluationLaws
import Proofhouse.EvaluationOrder
import Proofhouse.Evaluator
import Proofhouse.Formatter
import Proofhouse.FormatterCollisions
import Proofhouse.FormatterLexing
import Proofhouse.FormatterMeaning
import Proofhouse.FormatterMinimality
import Proofhouse.FormatterRoundTrip
import Proofhouse.GetOrCompute
import Proofhouse.GetOrComputeAgreement
import Proofhouse.GetOrComputeFairness
import Proofhouse.GetOrComputeProperties
import Proofhouse.Grammar
import Proofhouse.Integers
import Proofhouse.Lexer
import Proofhouse.LexerProperties
import Proofhouse.LexerSegments
import Proofhouse.ParenthesizedTexts
import Proofhouse.ParseErrors
import Proofhouse.ParsePrefixes
import Proofhouse.Parser
import Proofhouse.ParserClimbing
import Proofhouse.RationalProperties
import Proofhouse.RationalValues
import Proofhouse.ReductionLoop
import Proofhouse.ReductionLoopPasses
import Proofhouse.Sync
import Proofhouse.SyncAgreement
import Proofhouse.SyncFairness
import Proofhouse.SyncLinearization
import Proofhouse.SyncOrderedAgreement
import Proofhouse.SyncOrderings
import Proofhouse.SyncProperties
import Proofhouse.SyncPublication
import Proofhouse.SyncUnwinding
import Proofhouse.Testing
import Proofhouse.TestingProperties
import Proofhouse.TestingTrees
import Proofhouse.Tokens
import Proofhouse.TracefileProperties
import Proofhouse.Tracefiles
import Proofhouse.WhitespaceInsertion
import Proofhouse.WhitespaceRemoval
import Proofhouse.Xtask
import Proofhouse.XtaskExit
import Proofhouse.XtaskProperties
import Proofhouse.XtaskTables
