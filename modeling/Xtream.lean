import Xtream.Lib.While
import Xtream.Lib.LowerBound
import Xtream.Lib.ModularCounter
import Xtream.Lib.SlidingWindow
import Xtream.Lib.Slices
import Xtream.Lib.KeyGroups
import Xtream.Lib.TopologicalSort
import Xtream.Lib.KahnNetwork
import Xtream.Lib.KahnProgress
import Xtream.Lib.Runs
import Xtream.Lib.Monitor
import Xtream.Lib.MachineInt
import Xtream.Lib.Json
import Xtream.Lib.JsonUnambiguous
import Xtream.Lib.JsonEscapes
import Xtream.Core.Basic
import Xtream.Core.Record
import Xtream.Core.Lookup
import Xtream.Core.StrictInt
import Xtream.Core.Event
import Xtream.Runtime.EventBuffer
import Xtream.Runtime.BufferRuns
import Xtream.Runtime.InputChannel
import Xtream.Runtime.ChannelRuns
import Xtream.Runtime.ChannelMonitor
import Xtream.Operators.Basic
import Xtream.Operators.Source
import Xtream.Operators.Stateless
import Xtream.Operators.CountWindow
import Xtream.Operators.TimeWindow
import Xtream.Operators.Physical
import Xtream.Operators.Logical
import Xtream.Window.Loops
import Xtream.Window.Run
import Xtream.Window.Refinement
import Xtream.Window.Termination
import Xtream.Window.Ending
import Xtream.Window.Ties
import Xtream.Window.Coalescing
import Xtream.Window.Count
import Xtream.Window.Positions
import Xtream.Window.Results
import Xtream.Source.Invariant
import Xtream.Source.Contract
import Xtream.Source.LastWatermark
import Xtream.Graph.DataflowGraph
import Xtream.Graph.Linear
import Xtream.Graph.TopologicalOrder
import Xtream.Graph.Builder
import Xtream.Graph.Validation
import Xtream.Graph.Fluent
import Xtream.Graph.BuilderCalls
import Xtream.Graph.Faults
import Xtream.Graph.ForeignHandles
import Xtream.Graph.GraphJson
import Xtream.Engine.Pipeline
import Xtream.Engine.Stages
import Xtream.Engine.Shape
import Xtream.Engine.Roots
import Xtream.Engine.WindowStage
import Xtream.Engine.Lateness
import Xtream.Engine.Transform
import Xtream.Engine.Batch
import Xtream.Engine.Compiler
import Xtream.Engine.ExecutionGraph
import Xtream.Engine.Compilation
import Xtream.Engine.JoinCompilation
import Xtream.Engine.LinearChain
import Xtream.Engine.FanOut
import Xtream.Engine.Split
import Xtream.Engine.ExecutionGraphJson
import Xtream.Engine.FusedSplit
import Xtream.Engine.Threads
import Xtream.Engine.Interleaving
import Xtream.Engine.Agreement
import Xtream.Engine.Schedules
import Xtream.Engine.Progress
import Xtream.Engine.Calls
import Xtream.Engine.Lifecycle
import Xtream.Engine.Watermarks
import Xtream.Engine.Termination
import Xtream.Engine.Slot
import Xtream.Engine.Stopping
import Xtream.Engine.SlotEngine
import Xtream.Engine.SlotRuns
import Xtream.Engine.Submissions
import Xtream.Engine.Cancel
import Xtream.Engine.Program
import Xtream.Engine.Returns
import Xtream.Engine.Meaning
import Xtream.Engine.ProgramMeaning
import Xtream.Engine.ArrivalOrder
import Xtream.Engine.StopRequests
import Xtream.Engine.StopProgress
import Xtream.Engine.Cancellation
import Xtream.Engine.Conservation
import Xtream.Lib.KahnApart
import Xtream.Engine.SharedEngine
