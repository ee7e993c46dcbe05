import BandleCxl.Invariant.Retained
import BandleCxl.Invariant.Submission
import BandleCxl.Guarantees.Agreement
import BandleCxl.Guarantees.Skew
import BandleCxl.Guarantees.Order
import BandleCxl.Guarantees.Progress
import BandleCxl.Guarantees.SlotReuse
import BandleCxl.Guarantees.Shutdown
import BandleCxl.Guarantees.PayloadFreshness
import BandleCxl.Guarantees.WritePath
import BandleCxl.Guarantees.Accounting
import BandleCxl.Guarantees.MaximalRun
import BandleCxl.Guarantees.Batching
import BandleCxl.Guarantees.Decisions
import BandleCxl.Guarantees.SequenceNumbers
import BandleCxl.Guarantees.LockRelease
import BandleCxl.Guarantees.BatchPush
import BandleCxl.Guarantees.StoreRefinement
import BandleCxl.Guarantees.TraceParsers
import BandleCxl.Guarantees.TraceRoundTrip
import BandleCxl.Guarantees.StatsPipeline
import BandleCxl.Guarantees.Quantiles
import BandleCxl.Guarantees.BucketBounds
import BandleCxl.Guarantees.StatsFormats
import BandleCxl.Guarantees.NtMemcpy
import BandleCxl.Guarantees.PayloadStore
import BandleCxl.Guarantees.TraceRejection
import BandleCxl.Guarantees.LineGrammar
import BandleCxl.Guarantees.AdmissionProgress
import BandleCxl.Guarantees.ShardDeadlock
import BandleCxl.Guarantees.OrderedBroadcast
import BandleCxl.Guarantees.MemoryAgreement
import BandleCxl.Guarantees.RingQueue
import BandleCxl.Guarantees.RingView
import BandleCxl.Guarantees.TraceFiles
import BandleCxl.Guarantees.TracePreload
