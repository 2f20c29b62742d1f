import Goivy.Logic.Syntax
import Goivy.Logic.Constraint
import Goivy.Logic.Closed
import Goivy.Logic.Simplify
import Goivy.Util.Renamer
import Goivy.Logic.Vocabulary
import Goivy.Module.Clauses
import Goivy.Util.InsMap
import Goivy.Module.Elimination
import Goivy.Module.Merge
import Goivy.Module.Disjunction
import Goivy.TransRel.Update
import Goivy.TransRel.Relation
import Goivy.TransRel.Compose
import Goivy.Module.Conditional
import Goivy.TransRel.Join
import Goivy.TransRel.Image
import Goivy.TransRel.Hide
import Goivy.TransRel.History
import Goivy.UnitRes.Resolution
import Goivy.UnitRes.Literal
import Goivy.UnitRes.Clause
import Goivy.UnitRes.CongClos
import Goivy.UnitRes.Engine
import Goivy.UnitRes.Inference
import Goivy.UnitRes.Soundness
import Goivy.UnitRes.Meaning
import Goivy.UnitRes.UnionFind
import Goivy.UnitRes.Termination
import Goivy.UnitRes.Backtrack
import Goivy.UnitRes.Bridge
import Goivy.Mc.Circuit
import Goivy.Mc.Aiger
import Goivy.Mc.Numbering
import Goivy.Mc.Simulation
import Goivy.Mc.Boundary
import Goivy.Proof.Admission
import Goivy.Mc.AbstractSystem
import Goivy.Mc.Overapproximation
import Goivy.Util.OmapRuns
import Goivy.Logic.NodeMap
import Goivy.UnitRes.NodeStoreRuns
import Goivy.Util.HashedRuns
import Goivy.TransRel.DestructorAssign
import Goivy.Mc.Arithmetic
import Goivy.Action.LoopExpansion
import Goivy.Action.Unroll
import Goivy.Action.IfSome
import Goivy.Mc.ElimIte
import Goivy.Mc.DefList
import Goivy.Mc.TableExpansion
import Goivy.Fragment.FindCycle
import Goivy.Proof.UnusedDefinitions
import Goivy.Isolate.Callouts
import Goivy.Logic.OfSort
import Goivy.Logic.Uniquify
import Goivy.Proof.Reinterpretation
import Goivy.Proof.Unfold
import Goivy.Proof.UnfoldTruth
import Goivy.Proof.UnfoldGoals
import Goivy.Proof.Skolemization
import Goivy.Temporal.NamedBinders
import Goivy.Util.TarjanCorrect
import Goivy.Util.TopologicalSort
import Goivy.Alpha.Products
import Goivy.LogicUtil.Capture
import Goivy.Solver.EnumEncoding
import Goivy.Solver.FactsSpec
import Goivy.UnitRes.Mgu
import Goivy.UnitRes.Simplify
import Goivy.Logic.QuantifierNormalForm
import Goivy.Module.Subsume
import Goivy.Module.Witness
import Goivy.Module.Negation
import Goivy.Module.Skolemize
import Goivy.LogicUtil.NormalizeFree
import Goivy.LogicUtil.AlphaEquality
import Goivy.LogicUtil.VariableUniqifier
import Goivy.Lex.Tokenize
import Goivy.Logic.Tseitin
import Goivy.Proof.PatternMatch
import Goivy.Proof.AutoInst
import Goivy.TransRel.Execution
import Goivy.Art.Bounded
import Goivy.Check.Soundness
