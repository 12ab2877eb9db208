import Joda.Pipeline.PlanClauses
import Joda.Pipeline.Executor
import Joda.Index.TrieRuns
import Joda.Execution.CacheRuns
import Joda.Execution.MixedQuery
import Joda.Execution.QueryTree
import Joda.Storage.ViewReadings
import Joda.Storage.Bloom
import Joda.Storage.Paging
import Joda.Scheduling.Split
import Joda.Scheduling.Threads
import Joda.Scheduling.Optimization
import Joda.Join.MemoryJoin
import Joda.Join.FileJoin
import Joda.Join.ThetaJoin
import Joda.Aggregation.Merger
import Joda.Values.SplitString
import Joda.Index.MemoryManager
import Joda.Index.QueryLeaves
import Joda.Lib.Rounding
import Joda.Index.Histogram
import Joda.Index.HistogramRuns
import Joda.Index.TrieLex
import Joda.Lib.Ranges
import Joda.Index.FirstVisit
import Joda.Index.FirstVisitRanges
import Joda.Index.HistogramBuild
import Joda.Index.FirstVisitNumbers
import Joda.Values.Arithmetic
import Joda.Scheduling.OptimizationTarget
import Joda.Aggregation.WindowAgg
import Joda.Join.JoinNames
import Joda.Storage.StorageCollection
import Joda.Storage.FileOrigin
import Joda.Storage.Reparse
import Joda.Storage.ReparseRuns
import Joda.Parser.LineSplitting
import Joda.Storage.ViewStack
import Joda.Aggregation.FilterAgg
import Joda.Aggregation.FilterAggRuns
import Joda.Similarity.Paths
import Joda.Values.Handlers
import Joda.QueryParsing.NumberLiterals
import Joda.Aggregation.NumberArrays
import Joda.Aggregation.MergeHomomorphism
import Joda.Aggregation.GroupValues
import Joda.Aggregation.AttributePaths
import Joda.Similarity.Scheduler
import Joda.Projection.Flatten
import Joda.Index.TriePlaces
import Joda.Aggregation.AttStatEvents
import Joda.Execution.IndexEffort
import Joda.Lib.Custody
import Joda.Concurrency.MPMCQueue
import Joda.Concurrency.MPMCRuns
import Joda.Pipeline.IOQueue
import Joda.Pipeline.IOQueueRuns
import Joda.Index.SecondVisit
import Joda.Index.SecondVisitRuns
import Joda.Index.IndexManager
import Joda.Index.IndexManagerRuns
import Joda.Index.FirstVisitExact
import Joda.Export.FileLines
import Joda.Lib.Network
import Joda.Pipeline.Workers
import Joda.Pipeline.Storing
import Joda.Export.StoreLoad
