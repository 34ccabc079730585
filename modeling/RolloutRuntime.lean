import RolloutRuntime.Concurrency.Observation
import RolloutRuntime.Concurrency.Program
import RolloutRuntime.Concurrency.Progress
import RolloutRuntime.Concurrency.RelyGuarantee
import RolloutRuntime.Words.Invertible
import RolloutRuntime.Loops.Counted
import RolloutRuntime.Loops.FirstMax
import RolloutRuntime.Loops.KeepLargest
import RolloutRuntime.Loops.Strided
import RolloutRuntime.RingBuffer.Alone
import RolloutRuntime.RingBuffer.Clocked
import RolloutRuntime.RingBuffer.Contents
import RolloutRuntime.RingBuffer.Overwriting
import RolloutRuntime.RingBuffer.Spsc
import RolloutRuntime.Lockstep.Pairing
import RolloutRuntime.Lifecycle.History
import RolloutRuntime.Resources.Ledger
import RolloutRuntime.Rings.Exact
import RolloutRuntime.Rings.Progress
import RolloutRuntime.Rings.Safety
import RolloutRuntime.Rings.Software
import RolloutRuntime.Fastpath.Benchmark
import RolloutRuntime.Fastpath.BenchmarkProgress
import RolloutRuntime.Fastpath.BenchmarkRuns
import RolloutRuntime.Fastpath.DecodeAgreement
import RolloutRuntime.Fastpath.EndToEnd
import RolloutRuntime.Fastpath.RewardRounds
import RolloutRuntime.Fastpath.Submission
import RolloutRuntime.Fastpath.Worker
import RolloutRuntime.Pipeline.Benchmark
import RolloutRuntime.Pipeline.BenchmarkRun
import RolloutRuntime.Pipeline.BenchmarkStages
import RolloutRuntime.Pipeline.BenchmarkStartup
import RolloutRuntime.Pipeline.BenchmarkTrace
import RolloutRuntime.Pipeline.BenchmarkWindows
import RolloutRuntime.Pipeline.Credits
import RolloutRuntime.Pipeline.Drain
import RolloutRuntime.Pipeline.Queues
import RolloutRuntime.Pipeline.Stages
import RolloutRuntime.Decode.Dispatch
import RolloutRuntime.Decode.ExactlyOnce
import RolloutRuntime.Decode.Lifetime
import RolloutRuntime.Decode.LifetimeRuns
import RolloutRuntime.Decode.QueryTags
import RolloutRuntime.Decode.Startup
import RolloutRuntime.Decode.Windows
import RolloutRuntime.Decode.Workers
import RolloutRuntime.Attention.Argmax
import RolloutRuntime.Attention.Decode
import RolloutRuntime.Attention.OnlineSoftmax
import RolloutRuntime.Attention.Prefetch
import RolloutRuntime.Attention.Reference
import RolloutRuntime.Sampling.Generator
import RolloutRuntime.Sampling.Thresholds
import RolloutRuntime.Sampling.Token
import RolloutRuntime.Sampling.TopK
import RolloutRuntime.Bitmap.Allocator
import RolloutRuntime.Bitmap.Words
import RolloutRuntime.Arena.Blocks
import RolloutRuntime.Arena.KvLayout
import RolloutRuntime.Rollout.Histories
import RolloutRuntime.Rollout.Slab
import RolloutRuntime.KvPrefix.Benchmark
import RolloutRuntime.KvPrefix.Branches
import RolloutRuntime.KvPrefix.RefCounts
import RolloutRuntime.KvPrefix.Table
import RolloutRuntime.Allocators.Reference
import RolloutRuntime.Scheduler.Accounting
import RolloutRuntime.Scheduler.Benchmark
import RolloutRuntime.Scheduler.BenchmarkProgress
import RolloutRuntime.Scheduler.BenchmarkRuns
import RolloutRuntime.Scheduler.Capacity
import RolloutRuntime.Scheduler.DoneIds
import RolloutRuntime.Scheduler.Passes
import RolloutRuntime.Scheduler.Slots
import RolloutRuntime.Scheduler.Worker
import RolloutRuntime.Rtl.BitLayout
import RolloutRuntime.Rtl.Bridge
import RolloutRuntime.Rtl.DecodeRounds
import RolloutRuntime.Rtl.DescriptorEngine
import RolloutRuntime.Rtl.EndToEnd
import RolloutRuntime.Rtl.Sessions
import RolloutRuntime.Rtl.Submissions
import RolloutRuntime.Trace.Pairs
import RolloutRuntime.Trace.Ring
