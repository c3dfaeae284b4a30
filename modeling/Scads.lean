import Scads.Data.Comparator
import Scads.Data.BinarySearch
import Scads.Data.Runs
import Scads.Data.Cells
import Scads.Data.ArrayCopy
import Scads.Data.Prefix
import Scads.Data.Chunks
import Scads.Data.Spans
import Scads.Data.SecondaryIndex
import Scads.Data.Programs
import Scads.Comm.Messages
import Scads.Comm.Futures
import Scads.Util.RangeTable
import Scads.Util.RangeLookup
import Scads.Util.RangeUpdates
import Scads.Util.Slices
import Scads.Util.RoutingOrder
import Scads.Server.Database
import Scads.Server.IterateOverRange
import Scads.Server.PartitionHandler
import Scads.Server.GarbageCollection
import Scads.Server.StorageHandler
import Scads.Server.Registries
import Scads.Server.Restart
import Scads.Server.InMemory
import Scads.Server.InMemoryWrites
import Scads.Server.Records
import Scads.Client.Metadata
import Scads.Client.Quorum
import Scads.Client.GetHandler
import Scads.Client.PutBytes
import Scads.Client.Routable
import Scads.Client.RangeHandle
import Scads.Client.GetKeys
import Scads.Client.Namespace
import Scads.Client.RangeReads
import Scads.Client.LimitedReads
import Scads.Client.BulkPut
import Scads.Client.BulkRuns
import Scads.Client.IndexManager
import Scads.Client.IndexWrites
import Scads.Client.IndexConsistency
import Scads.Client.BulkIndexes
import Scads.Client.Repartitioning
import Scads.Client.PartitionRequests
import Scads.Client.RoutedRanges
import Scads.Client.RoutedCalls
import Scads.Client.RoutedRuns
import Scads.Client.Cluster
import Scads.Client.ClusterRuns
import Scads.Client.HostedRecords
import Scads.Protocol.Replication
import Scads.Protocol.History
import Scads.Protocol.ReadLatest
import Scads.Protocol.ReadRepair
import Scads.Protocol.Deletes
import Scads.Protocol.IndexedWrites
import Scads.Client.FailedCalls
import Scads.Protocol.OwnWrites
import Scads.Piql.QueryPlan
import Scads.Data.Machines
import Scads.Data.Merging
import Scads.Piql.SimpleExecutor
import Scads.Piql.SimpleRuns
import Scads.Piql.ParallelExecutor
import Scads.Piql.ParallelMergeJoin
import Scads.Piql.ParallelRuns
import Scads.Piql.LazyExecutor
import Scads.Piql.LazyRuns
import Scads.Piql.Binder
import Scads.Piql.Optimizer
import Scads.Piql.Compiled
import Scads.Piql.Executable
import Scads.Piql.ExecutableQueries
import Scads.Data.Lexicographic
import Scads.Piql.KeyOrder
import Scads.Piql.QueryBounds
import Scads.Server.ForeignKeys
import Scads.Client.NamespaceIterator
import Scads.Data.Chaining
import Scads.Server.PartitionIterators
import Scads.Server.CursorScans
import Scads.Client.AggHandler
import Scads.Client.AggregatedRecords
import Scads.Server.Aggregates
import Scads.Comm.CircularByteBuffer
import Scads.Data.Rings
import Scads.Data.Words
import Scads.Comm.NioEndpoint
import Scads.Comm.Framing
import Scads.Axer.AxerSchema
import Scads.Data.SlotTables
import Scads.Axer.Layout
import Scads.Axer.AxerDatumWriter
import Scads.Data.OffsetTables
import Scads.Axer.Encoding
import Scads.Axer.AxerDatumReader
import Scads.Axer.Decoding
import Scads.Axer.RecordReads
import Scads.Axer.ArrayRoundTrips
import Scads.Axer.RoundTrips
import Scads.Axer.Configuration
import Scads.Mviews.MVClient
import Scads.Mviews.TagQueries
import Scads.Deploylib.ExperimentRuns
import Scads.Deploylib.ServiceScheduler
import Scads.Deploylib.FailedExperiments
import Scads.Deploylib.WebAppScheduler
import Scads.Deploylib.ServerScaling
import Scads.Client.RangeMerges
import Scads.Client.RangeVotes
import Scads.Client.RangeRepairs
import Scads.Util.SliceDifferences
import Scads.Server.RangeLoops
import Scads.Data.StableMerging
import Scads.Piql.MergeJoins
import Scads.Piql.ValueOrder
import Scads.Client.HashRouting
import Scads.Util.RangeSelection
import Scads.Server.PagedCalls
import Scads.Client.DataCopies
import Scads.Client.StoreIterator
import Scads.Client.PrefixRanges
import Scads.Data.FloatBits
import Scads.Piql.ScanTermination
import Scads.Piql.Qualifier
import Scads.Piql.AnyLimits
import Scads.Piql.OrderedQueries
import Scads.Piql.SwappedRows
import Scads.Piql.OrderedPlans
import Scads.Data.Transcripts
import Scads.Comm.ByteQueues
import Scads.Util.RangeChecks
import Scads.Client.RecordVersions
import Scads.Axer.FixedFields
import Scads.Client.ReadRepairThread
import Scads.Data.Ranks
import Scads.Client.SampledSchemes
import Scads.Client.AnsweringServers
import Scads.Data.Summaries
import Scads.Client.BuiltinAggregates
import Scads.Client.Extremes
import Scads.Client.SampleAverages
import Scads.Data.KeyedMaps
import Scads.Data.Lexemes
import Scads.Server.GroupKeys
import Scads.Server.GroupedRecords
import Scads.Piql.QueryAnswers
import Scads.Piql.Databases
import Scads.Piql.AnsweredQueries
import Scads.Piql.RangeRows
import Scads.Piql.SelectiveQueries
import Scads.Piql.KeptSelections
import Scads.Perf.Histogram
import Scads.Avro.RecursiveSchemas
import Scads.Avro.SchemaCompare
import Scads.Avro.SchemaStructure
import Scads.Data.Descents
import Scads.Comm.FailingMessages
import Scads.Comm.MessageFutures
import Scads.Avro.JsonParser
import Scads.Avro.JsonTexts
import Scads.Client.ClusterRecords
import Scads.Client.RecordPlacement
import Scads.Client.PlacedReplicas
import Scads.Client.PopulatedRanges
import Scads.Client.StoredRecords
import Scads.Data.Scripts
import Scads.Comm.ZooKeeperNode
import Scads.Protocol.NamespaceCreation
import Scads.Client.WatchedTables
import Scads.Data.WatchedValues
import Scads.Client.OpenPartitions
import Scads.Server.ContainedRecords
import Scads.Client.CallInvariants
import Scads.Client.TidyServers
import Scads.Client.MappedRecords
import Scads.Client.NamespaceMap
import Scads.Client.StaleReplicas
import Scads.Piql.BoundValues
import Scads.Piql.TupleBounds
import Scads.Piql.RangeKeys
import Scads.Piql.Realizations
import Scads.Piql.AskedTuples
import Scads.Piql.ComparedValues
