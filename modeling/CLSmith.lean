import CLSmith.Common.CString
import CLSmith.Common.System
import CLSmith.Common.Tree
import CLSmith.Common.Relay
import CLSmith.Common.CInt
import CLSmith.Common.Imp
import CLSmith.Random
import CLSmith.Options
import CLSmith.MessagePassing.Schedule
import CLSmith.MessagePassing.Updates
import CLSmith.MessagePassing.Constraints
import CLSmith.MessagePassing.Emit
import CLSmith.MessagePassing.ProgramOrder
import CLSmith.MessagePassing.Protocol
import CLSmith.MessagePassing.Kernel
import CLSmith.MessagePassing.Invariant
import CLSmith.MessagePassing.Determinism
import CLSmith.MessagePassing.Progress
import CLSmith.MessagePassing.Barriers
import CLSmith.Reduction
import CLSmith.SafeMath.Macros
import CLSmith.SafeMath.Functions
import CLSmith.SafeMath.Guards
import CLSmith.SafeMath.Values
import CLSmith.SafeMath.ClMacros
import CLSmith.SafeMath.Exactness
import CLSmith.Atomic.Sections
import CLSmith.Atomic.SpecialValues
import CLSmith.Atomic.Slots
import CLSmith.Atomic.Determinism
import CLSmith.Launcher.Header
import CLSmith.Launcher.Arguments
import CLSmith.Launcher.Agreement
import CLSmith.Launcher.Geometry
import CLSmith.Launcher.Dimensions
import CLSmith.ExpressionVector
import CLSmith.Goto.Blocks
import CLSmith.Goto.Generate
import CLSmith.Goto.Wellformed
import CLSmith.EMI.Execution
import CLSmith.EMI.Prune
import CLSmith.EMI.Dead
import CLSmith.EMI.PruneBlock
import CLSmith.EMI.Reference
import CLSmith.EMI.Settle
import CLSmith.EMI.Refines
import CLSmith.EMI.Removal
import CLSmith.EMI.InSync
import CLSmith.EMI.Variants
import CLSmith.EMI.Containment
import CLSmith.EMI.Consistent
import CLSmith.Comm
import CLSmith.Common.Cursor
import CLSmith.Walker
import CLSmith.Walker.Next
import CLSmith.Walker.AtStatement
import CLSmith.Common.Loop
import CLSmith.ArrayLoop.Generate
import CLSmith.ArrayLoop.InBounds
import CLSmith.Common.Keyed
import CLSmith.Facts.Fact
import CLSmith.Facts.Merge
import CLSmith.Facts.Assign
import CLSmith.Facts.Run
import CLSmith.Facts.Readable
import CLSmith.Facts.Scope
import CLSmith.Common.Flow
import CLSmith.Facts.Loop
import CLSmith.Facts.Rounds
import CLSmith.Facts.FixedPoint
import CLSmith.Globals.Struct
import CLSmith.Globals.References
import CLSmith.BuiltIn.Select
import CLSmith.BuiltIn.Output
import CLSmith.Common.Paired
import CLSmith.Common.Triple
import CLSmith.Divergence.Process
import CLSmith.Divergence.Alike
import CLSmith.Divergence.Fixpoint
import CLSmith.Divergence.Levels
import CLSmith.Divergence.Barriers
import CLSmith.Divergence.Sections
import CLSmith.CLVariable
import CLSmith.Common.Radix
import CLSmith.Exhaustive.Enumerator
import CLSmith.Exhaustive.DFSRndNumGenerator
import CLSmith.Exhaustive.Search
import CLSmith.Common.StdString
import CLSmith.StringUtils
import CLSmith.ArrayVariable
import CLSmith.ArrayVariable.Fields
import CLSmith.Probabilities
import CLSmith.Probabilities.RoundTrip
import CLSmith.Common.Closure
import CLSmith.Facts.Match
import CLSmith.Facts.Handover
import CLSmith.Effect
import CLSmith.Effect.Conflict
import CLSmith.Effect.Access
import CLSmith.Effect.Rejected
import CLSmith.Goto.Remove
import CLSmith.Goto.MustReturn
import CLSmith.Goto.Deletion
import CLSmith.Goto.PostCreation
import CLSmith.Goto.Tail
import CLSmith.Goto.Jumps
import CLSmith.Goto.Flow
import CLSmith.Goto.Tracking
import CLSmith.Goto.Programs
import CLSmith.Delta
import CLSmith.Delta.Replay
import CLSmith.CVQualifiers
import CLSmith.CVQualifiers.Safety
import CLSmith.CVQualifiers.Random
import CLSmith.Common.Ranked
import CLSmith.Common.Events
import CLSmith.CallGraph
import CLSmith.CallGraph.Acyclic
import CLSmith.Common.Chronicle
import CLSmith.TypeTable
import CLSmith.TypeTable.Output
import CLSmith.TypeTable.Tables
import CLSmith.VariableSelector.Visible
