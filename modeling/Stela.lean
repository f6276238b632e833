import Stela.Semantic.Modules
import Stela.Semantic.Overloads
import Stela.Semantic.DefiniteInit
import Stela.Semantic.ReturnSoundness
import Stela.Semantic.CaptureChains
import Stela.CodeGen.ArrayCounts
import Stela.CodeGen.ClosureValues
import Stela.CodeGen.CallSafety
import Stela.Semantic.Conversions
import Stela.Semantic.ReturnCompleteness
import Stela.CodeGen.BoolConversion
import Stela.CodeGen.NestedConditions
import Stela.CodeGen.BodyTerminators
import Stela.CodeGen.LocalLeaks
import Stela.CodeGen.TypeOperations
import Stela.CodeGen.MutableLvalues
import Stela.Semantic.SymbolTable
import Stela.CodeGen.AcceptedJumps
import Stela.Lex.Comments
import Stela.Lex.StringLiterals
import Stela.Lex.InBounds
import Stela.Lex.TokenPartition
import Stela.CodeGen.ArrayIndex
import Stela.CodeGen.ArrayLengths
import Stela.Semantic.ArrayLiterals
import Stela.CodeGen.CompareExprs
import Stela.CodeGen.CompareLaws
import Stela.CodeGen.ReturnMoves
import Stela.Semantic.Declarations
import Stela.Semantic.TypeNames
import Stela.Semantic.AliasChains
import Stela.CodeGen.MakeCasts
import Stela.Ownership.OwnerCounts
import Stela.Syntax.ParseRoundTrip
import Stela.Syntax.SyntaxAnalysis
import Stela.Semantic.StackDiscipline
import Stela.CodeGen.BodyRuns
import Stela.CodeGen.ArrayLists
import Stela.CodeGen.InstanceCoherence
import Stela.CodeGen.ArrayGrowth
import Stela.CodeGen.GeneratorRequests
import Stela.CodeGen.ArrayLayers
import Stela.CodeGen.CallLengths
import Stela.Semantic.TableLayers
