import Sky.Library.Bitmap
import Sky.Library.CountingSort
import Sky.Library.DottedPath
import Sky.Library.FairSplit
import Sky.Library.FiniteMap
import Sky.Library.Following
import Sky.Library.Returning
import Sky.Library.Run
import Sky.Library.Sweep
import Sky.Model.Array
import Sky.Model.Dedupe
import Sky.Model.Dict
import Sky.Model.Jobs
import Sky.Model.Retry
import Sky.Verification.Variance.Least
import Sky.Model.Scheduler
import Sky.Model.VNode
import Sky.Verification.Array.Refinement
import Sky.Verification.Dedupe.AtMostOnce
import Sky.Verification.Dedupe.Books
import Sky.Verification.Dedupe.Eviction
import Sky.Verification.Dict.Refinement
import Sky.Verification.Jobs.Agree
import Sky.Verification.Jobs.Conserve
import Sky.Verification.Live.Handlers
import Sky.Verification.Retry.Resume
import Sky.Verification.Scheduler.Hold
import Sky.Verification.Scheduler.Order
import Sky.Model.Diff
import Sky.Model.Dom
import Sky.Verification.Task.Trampoline
import Sky.Verification.View.Converge
import Sky.Verification.Syntax.Operators
import Sky.Verification.Syntax.Simulation
import Sky.Verification.Syntax.Depth
import Sky.Verification.Syntax.Twin
import Sky.Verification.Syntax.Units
import Sky.Verification.Syntax.Isolation
import Sky.Verification.Syntax.Replacement
import Sky.Verification.Partition.Arms
import Sky.Verification.Ring.Replay
import Sky.Verification.Exhaustive.Coverage
import Sky.Verification.Identity.Exact
import Sky.Verification.ListBlock.Runs
import Sky.Verification.Rotation.Runs
import Sky.Verification.Durable.Replay
import Sky.Verification.Durable.Sleep
import Sky.Verification.Noise.Reuse
import Sky.Verification.Noise.Session
import Sky.Verification.Sync.Queue
import Sky.Verification.Parallel.Runs
import Sky.Verification.Snapshots.Runs
import Sky.Verification.Snapshots.Rotate
import Sky.Verification.Sources.Runs
import Sky.Verification.Migrate.Columns
import Sky.Verification.Migrate.Reach
import Sky.Verification.Migrate.Answers
import Sky.Verification.Migrate.Moves
import Sky.Verification.Migrate.Renames
import Sky.Verification.Migrate.Resolve
import Sky.Verification.Money.Allocate
import Sky.Verification.StringFast.Kernels
import Sky.Library.ArrayLiteral
import Sky.Library.JsonText
import Sky.Verification.ListParam.Same
import Sky.Verification.AiDedupe.Unbounded
import Sky.Verification.Vp8l.Codes
import Sky.Verification.Syntax.Progress
import Sky.Verification.Groups.Groups
import Sky.Verification.Hydration.Lined
import Sky.Verification.Gif.Operations
