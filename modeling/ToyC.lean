import ToyC.ParserComplete
import ToyC.DeclOrder
import ToyC.IRGenCorrect
import ToyC.RegAllocSound
import ToyC.Lib.Rv32
import ToyC.StackFrame
import ToyC.AsmLabels
import ToyC.NaiveCodeGen
import ToyC.NaiveExec
import ToyC.NaiveCorrect
import ToyC.OptCodeGen
import ToyC.MagicExact
import ToyC.OptOperands
import ToyC.ConstOps
import ToyC.OptExec
import ToyC.IRRuns
import ToyC.Propagation
import ToyC.Cse
import ToyC.Peephole
import ToyC.UnsignedDiv
import ToyC.Lib.Stuttering
import ToyC.Lib.FlowGraph
import ToyC.Loops
import ToyC.Hoisting
import ToyC.Licm
import ToyC.OptFrame
import ToyC.OptPrologue
import ToyC.OptBlocks
import ToyC.OptSteps
import ToyC.OptFlow
import ToyC.OptJumps
import ToyC.Lib.Paths
import ToyC.OptShape
import ToyC.OptDiscipline
import ToyC.OptReturns
import ToyC.DeadCode
import ToyC.IRGenShape
import ToyC.SemaAccepts
import ToyC.ConstFold
import ToyC.ConstHoisting
import ToyC.LoopConstants
import ToyC.MagicHints
import ToyC.OptCalls
import ToyC.Inlining
import ToyC.InliningSound
import ToyC.InliningRuns
import ToyC.Lib.Pipeline
import ToyC.Optimizer
import ToyC.HostDivision
import ToyC.HostSafety
import ToyC.HostOptimizer
import ToyC.IRGenBound
import ToyC.IRGenLive
import ToyC.IRGenPaths
import ToyC.IRGenRange
import ToyC.IRGenInit
import ToyC.CseCommuted
import ToyC.Lexer
import ToyC.LexerLayout
import ToyC.ParserSafe
import ToyC.OneBlock
import ToyC.OptimizerSound
import ToyC.OptDivision
import ToyC.OptConvention
import ToyC.OptCorrect
import ToyC.IRGenClosed
import ToyC.Progress
import ToyC.LexerExact
import ToyC.PlainMode
import ToyC.SourceNames
import ToyC.PassRefs
import ToyC.OptimizerExact
import ToyC.Compiler
import ToyC.Encoding
import ToyC.Loading
