import Foxing.Event
import Foxing.Lib.KeyedMap
import Foxing.Lib.Run
import Foxing.Lib.KeyedReplay
import Foxing.ReorderBuffer
import Foxing.ReorderAccounting
import Foxing.ReorderHistory
import Foxing.ReorderSorting
import Foxing.TransientFilter
import Foxing.FileModel
import Foxing.EventBatch
import Foxing.Coalescer
import Foxing.Ingress
import Foxing.GapReports
import Foxing.FileSystem
import Foxing.Identity
import Foxing.Worker
import Foxing.CallLocality
import Foxing.WorkerLocality
import Foxing.PathResolution
import Foxing.TargetNames
import Foxing.Mirror
import Foxing.SourceChanges
import Foxing.FilterBoundary
import Foxing.Lib.Retry
import Foxing.EventFootprint
import Foxing.RepeatedResolution
import Foxing.Absorption
import Foxing.RepeatedAttempts
import Foxing.RetryQueue
import Foxing.RetryRuns
import Foxing.BufferPool
import Foxing.BufferAccounting
import Foxing.Lib.EntryTree
import Foxing.Lib.Glob
import Foxing.Lib.PercpuHash
import Foxing.Lib.Tally
import Foxing.Lib.Sweep
import Foxing.Lib.Obligation
import Foxing.Lib.Chunks
import Foxing.Projector
import Foxing.ProjectorTracking
import Foxing.Fanout
import Foxing.HydrationRequests
import Foxing.DroppedEvents
import Foxing.Probes
import Foxing.WriteAggregation
import Foxing.DirtyFlags
import Foxing.Wal
import Foxing.Exclusion
import Foxing.Hydrator
import Foxing.HydrationExclusion
import Foxing.DeletePass
import Foxing.DeleteSafety
import Foxing.DirHash
import Foxing.HashedTarget
import Foxing.SyncRun
import Foxing.SyncPruning
import Foxing.MountHealth
import Foxing.LostRequests
import Foxing.Merkle
import Foxing.DeltaCopy
import Foxing.MerkleComparison
import Foxing.Lib.Lines
import Foxing.Lib.Text
import Foxing.TombstoneJournal
import Foxing.TombstoneCrash
import Foxing.Lib.Pool
import Foxing.TombstoneCompaction
import Foxing.SyncSignatures
import Foxing.SignatureBuffers
import Foxing.Lib.Bytes
import Foxing.Chunker
import Foxing.Lib.Cuts
import Foxing.Lib.Reads
import Foxing.ChunkBoundaries
import Foxing.FxarFormat
import Foxing.FxarWriter
import Foxing.FxarReader
import Foxing.FxarDedup
import Foxing.FxarLayout
import Foxing.ArchiveWriters
import Foxing.FxarIntegrity
import Foxing.ArchivePaths
import Foxing.ArchiveRoundTrip
import Foxing.DedupLayout
import Foxing.CodecSelection
import Foxing.SignatureSoundness
import Foxing.DirScan
import Foxing.ScanPruning
import Foxing.VersionArchive
import Foxing.SnapshotStore
import Foxing.FrontierScan
import Foxing.JobQueue
import Foxing.GenerationFence
import Foxing.ActiveRepairs
import Foxing.OutageJournal
import Foxing.SerializationEngine
import Foxing.TicketBarrier
import Foxing.Sidecar
import Foxing.SidecarUpdates
import Foxing.MetadataStore
import Foxing.MetadataMap
import Foxing.Lib.Triple
import Foxing.Lib.Xdr
import Foxing.NfsRpc
import Foxing.NfsClient
import Foxing.NfsCalls
import Foxing.NfsSessions
import Foxing.NfsReplies
import Foxing.NfsResults
import Foxing.NfsIdentifiers
import Foxing.NfsWrite
import Foxing.NfsBatch
import Foxing.RangeCopy
import Foxing.Lib.Uring
import Foxing.SegmentCopy
import Foxing.SegmentAccounting
import Foxing.SegmentData
import Foxing.StormRegistry
import Foxing.IdentityAccesses
import Foxing.TargetContainment
import Foxing.Lib.Lanes
import Foxing.StructuralOrder
import Foxing.WorkerExclusion
import Foxing.PausedJournal
import Foxing.WorkerLoop
import Foxing.EventAccounting
import Foxing.TargetLine
import Foxing.GapRescans
import Foxing.RenameClears
import Foxing.PendingRenames
import Foxing.StormBalance
import Foxing.Lib.Volume
import Foxing.LiveVersions
import Foxing.Lib.Suffixes
import Foxing.VersionCleanup
import Foxing.SparseSegments
import Foxing.MerkleSignatures
import Foxing.Lib.Ranks
import Foxing.Lib.Numerals
import Foxing.SnapshotDeletion
import Foxing.Timestamps
import Foxing.SnapshotPruning
import Foxing.DirFingerprint
import Foxing.Lib.Frames
import Foxing.CoalescerLedger
import Foxing.NfsRequests
import Foxing.AtomicRename
import Foxing.RestoreWaits
import Foxing.HostileArchives
import Foxing.SegmentFailures
import Foxing.UnitArguments
import Foxing.CompressionSniffing
import Foxing.IdentityEviction
import Foxing.RetryDelivery
import Foxing.RepairPaths
import Foxing.CoalescerBytes
import Foxing.DeferredRenames
import Foxing.PrunedAncestors
import Foxing.ExcludedSubtrees
import Foxing.StdinToFile
import Foxing.FsyncLatency
import Foxing.Lib.Simd
import Foxing.VectorScans
import Foxing.EventColumns
import Foxing.IdentityIndex
import Foxing.Lib.Borders
import Foxing.PatternMeaning
import Foxing.Lib.Words
import Foxing.Lib.FirstBest
import Foxing.MountTable
import Foxing.HydrationRetries
import Foxing.SignatureProducers
import Foxing.JobCounters
import Foxing.RenameCalls
import Foxing.RenameOutcomes
import Foxing.Lib.LateReplay
import Foxing.DataReplication
import Foxing.FileReplacement
import Foxing.Lib.Recent
import Foxing.WindowedFilter
import Foxing.CopyTiers
