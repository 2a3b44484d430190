import Peridot.StorageTypes
import Peridot.Spine
import Peridot.LeveledTreeRoot
import Peridot.ApplyHistory
import Peridot.KeyedDiff
import Peridot.BTreePositions
import Peridot.ForEachDiffMinKey
import Peridot.ForEachThreeWayDiff
import Peridot.PageDb
import Peridot.PageDbReaders
import Peridot.AddCommitsNotify
import Peridot.PageHeads
import Peridot.CommitSyncCalls
import Peridot.BatchUploadCalls
import Peridot.AutoMerge
import Peridot.ConflictResolverCalls
import Peridot.PageDelegateDrained
import Peridot.CommonAncestor
import Peridot.JournalRollback
import Peridot.LastOneWins
import Peridot.Aggregator
import Peridot.PageSyncIdle
import Peridot.PageSyncBacklog
import Peridot.PageSyncChains
import Peridot.PageSyncErrors
import Peridot.PageSyncAwake
import Peridot.UnsyncedCommits
import Peridot.LostConflicts
import Peridot.LinkIsolation
import Peridot.LinkConvergence
import Peridot.MessageDelivery
import Peridot.QueueWatchers
import Peridot.ObtainMessageQueue
import Peridot.DeleteNamespace
import Peridot.ContextFreshness
import Peridot.ContextWriter
import Peridot.TopicWriters
import Peridot.AgentConnections
import Peridot.AlarmTasks
import Peridot.SplitSlices
import Peridot.WatchedBatches
import Peridot.PageCloud
import Peridot.ListenCall
import Peridot.ModuleResolution
import Peridot.ConflictResolveCallRun
import Peridot.AgentTeardownRun
import Peridot.FetchPartial
import Peridot.DiffUtils
import Peridot.PageSnapshot
import Peridot.UnchangedTree
import Peridot.DeviceSet
import Peridot.SuggestionEngine
import Peridot.StoryDeletion
import Peridot.MutatedStories
import Peridot.StoryViews
import Peridot.StoryOperations
import Peridot.KeyOrder
import Peridot.LRUCacheRun
import Peridot.HeadCommits
import Peridot.CollectPiecesRun
import Peridot.TreeNodeEncoding
import Peridot.ObjectIdentifiers
import Peridot.MarkedPieces
import Peridot.NewIdentifiers
import Peridot.EventStream
import Peridot.ExponentialBackoff
import Peridot.CloudRecords
import Peridot.EntityReference
import Peridot.SyncWatcherSet
import Peridot.OperationSerializer
import Peridot.ContextGraphWalks
import Peridot.PatchedTrees
import Peridot.StoredGraph
