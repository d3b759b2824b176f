import Geniex.Pipeline.TreeStopReason
import Geniex.Lib.Prog
import Geniex.Lib.Mem
import Geniex.Types
import Geniex.LLM.World
import Geniex.LLM.KVCache
import Geniex.LLM.Mask
import Geniex.LLM.Generate
import Geniex.Lib.Bytes
import Geniex.LLM.File
import Geniex.LLM.Operations
import Geniex.LLM.History
import Geniex.LLM.CallInvariant
import Geniex.LLM.WriteBack
import Geniex.LLM.ExitRestride
import Geniex.LLM.Cache
import Geniex.LLM.CacheRuns
import Geniex.LLM.RestingState
import Geniex.LLM.Restride
import Geniex.LLM.Promotion
import Geniex.Lib.Refines
import Geniex.LLM.LmHead
import Geniex.ThreadPool
import Geniex.VLM.InputProvider
import Geniex.VLM.Model
import Geniex.LLM.Passes
import Geniex.VLM.Runs
import Geniex.VLM.Rows
import Geniex.PoolClient
import Geniex.Qnn.PlanSound
import Geniex.Lib.StableSort
import Geniex.LLM.Initialize
import Geniex.LLM.Load
import Geniex.LLM.Sampling
import Geniex.LLM.Sliding
import Geniex.SSD.Tree
import Geniex.SSD.Generate
import Geniex.SSD.Contract
import Geniex.SSD.Instance
import Geniex.SSD.Bounds
import Geniex.Lib.Greedy
import Geniex.Lib.Logged
import Geniex.SSD.Oracle
import Geniex.SSD.Rows
import Geniex.SSD.Commit
import Geniex.SSD.Verify
import Geniex.SSD.Text
import Geniex.SSD.Greedy
import Geniex.Lib.LevelTree
import Geniex.Lib.Skip
import Geniex.SSD.Layout
import Geniex.SSD.Forecast
import Geniex.SSD.Draft
import Geniex.SSD.LongestPath
import Geniex.LLM.LogitsRows
import Geniex.SSD.LogitsRows
import Geniex.LLM.Eviction
import Geniex.Lib.InStep
import Geniex.LLM.Lockstep
import Geniex.LLM.Overlap
import Geniex.LLM.Rejection
import Geniex.VLM.Rejection
import Geniex.LLM.Replay
import Geniex.SSD.Prefix
import Geniex.Pipeline.BosToken
import Geniex.Lib.Diagonal
import Geniex.Lib.RowMajor
import Geniex.Lib.Rows
import Geniex.VLM.Boundary
import Geniex.VLM.Deepstack
import Geniex.VLM.ImageRows
import Geniex.SSD.Rotation
import Geniex.VLM.StaleRows
import Geniex.Dispatch
import Geniex.LLM.XTensorMask
import Geniex.VLM.BlockMask
import Geniex.VLM.MRoPETable
import Geniex.Qnn.TensorSize
import Geniex.LLM.KVPairs
import Geniex.Half
import Geniex.PoolLifecycle
import Geniex.Qnn.FusedBuffer
import Geniex.Lib.Blocks
import Geniex.VLM.Windows
import Geniex.FreshStart
import Geniex.LLM.XTensorKV
import Geniex.Pipeline.Vision
import Geniex.Lib.WriteOnce
import Geniex.LLM.InferSpec
import Geniex.LLM.Wiring
import Geniex.Lib.Moves
import Geniex.CB.KVCacheManager
import Geniex.CB.Mask
import Geniex.CB.Scheduler
import Geniex.CB.GenerateBatch
import Geniex.CB.Columns
import Geniex.CB.Pass
import Geniex.CB.Serving
import Geniex.CB.Round
import Geniex.CB.Finish
import Geniex.CB.Runs
import Geniex.CB.Progress
import Geniex.CB.Budget
import Geniex.CB.Streaming
import Geniex.CB.Fairness
import Geniex.CB.Capacity
import Geniex.CB.Requests
import Geniex.CB.InputProvider
