import WarpLoop.Lib.Runs
import WarpLoop.Lib.Tiling
import WarpLoop.Lib.Incremental
import WarpLoop.Lib.Outcome
import WarpLoop.Lib.Following
import WarpLoop.Lib.Tokens
import WarpLoop.Lib.Reach
import WarpLoop.Lib.Walks
import WarpLoop.Lib.Replay
import WarpLoop.Lib.Framing
import WarpLoop.Lib.Assoc
import WarpLoop.Lib.Decimal
import WarpLoop.Lib.Schrage
import WarpLoop.Lib.Words
import WarpLoop.Lib.Wire
import WarpLoop.Lib.Floats
import WarpLoop.Lib.LittleEndian
import WarpLoop.Lib.Insertion
import WarpLoop.Lib.Components
import WarpLoop.Core.SlotMap
import WarpLoop.Core.SlotMapRefinement
import WarpLoop.Core.Zone
import WarpLoop.Core.Partition
import WarpLoop.Core.ZoneDispatch
import WarpLoop.Core.Ffi
import WarpLoop.Core.Octree
import WarpLoop.Core.WorldSpecs
import WarpLoop.Core.ZoneTiling
import WarpLoop.Core.Membership
import WarpLoop.Core.Rooms
import WarpLoop.Core.Handles
import WarpLoop.Core.GhostRange
import WarpLoop.Sketch.Codec
import WarpLoop.Sketch.History
import WarpLoop.Sketch.HistorySpecs
import WarpLoop.Sketch.Encode
import WarpLoop.Sketch.Fit
import WarpLoop.Sketch.FitSpecs
import WarpLoop.Sketch.Graph
import WarpLoop.Sketch.GraphSpecs
import WarpLoop.Sketch.Strokes
import WarpLoop.Sketch.Convergence
import WarpLoop.Bridge.Stream
import WarpLoop.Bridge.Server
import WarpLoop.Bridge.Headers
import WarpLoop.Bridge.ServerSpecs
import WarpLoop.Bridge.Chunking
import WarpLoop.Bridge.Steps
import WarpLoop.Bridge.Invariant
import WarpLoop.Bridge.Lifecycle
import WarpLoop.Bridge.Fanout
import WarpLoop.Bridge.SketchRelay
import WarpLoop.Bridge.SketchDelivery
import WarpLoop.Bridge.SketchFraming
import WarpLoop.Bridge.ZoneFanout
import WarpLoop.Bridge.ZpbFields
import WarpLoop.Bridge.SketchFrames
import WarpLoop.Bridge.SketchConvergence
import WarpLoop.Compiler.Lcnf
import WarpLoop.Compiler.Lower
import WarpLoop.Compiler.Emit
import WarpLoop.Compiler.Riscv
import WarpLoop.Compiler.Calls
import WarpLoop.Compiler.Correct
import WarpLoop.Shrubbery.Letters
import WarpLoop.Shrubbery.Scan
import WarpLoop.Shrubbery.ScanSpecs
import WarpLoop.Shrubbery.Reader
import WarpLoop.Shrubbery.S7Reader
import WarpLoop.Shrubbery.Agreement
import WarpLoop.Shrubbery.Portable
import WarpLoop.Shrubbery.Grammar
import WarpLoop.Shrubbery.Pieces
import WarpLoop.Shrubbery.RoundTrip
import WarpLoop.Shrubbery.Brackets
import WarpLoop.Shrubbery.SingleCall
import WarpLoop.Shrubbery.ReaderErrors
import WarpLoop.Shrubbery.Indentation
import WarpLoop.Taskweft.Capabilities
import WarpLoop.Taskweft.Rebac
import WarpLoop.Taskweft.Expand
import WarpLoop.Taskweft.Iso8601Duration
import WarpLoop.Taskweft.DurationText
import WarpLoop.Taskweft.QcFuzz
import WarpLoop.Taskweft.WitnessDag
import WarpLoop.Taskweft.StdGen
import WarpLoop.Taskweft.FindPlan
import WarpLoop.Taskweft.PlanSearch
import WarpLoop.Taskweft.FloydWarshall
import WarpLoop.Content.Combat
import WarpLoop.Content.Progression
import WarpLoop.Content.Loot
import WarpLoop.H3.Qpack
import WarpLoop.H3.Request
import WarpLoop.Core.HilbertCurve
import WarpLoop.Core.ZoneCubes
import WarpLoop.Core.Occupancy
import WarpLoop.Core.Targets
import WarpLoop.Core.Hysteresis
import WarpLoop.Core.Rebalance
import WarpLoop.Bridge.LoadClient
