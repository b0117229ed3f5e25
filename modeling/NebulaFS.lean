import NebulaFS.Lib.Cursor
import NebulaFS.Lib.Cutting
import NebulaFS.Lib.Feeding
import NebulaFS.Lib.TornSequence
import NebulaFS.Lib.Runs
import NebulaFS.Lib.LittleEndian
import NebulaFS.Lib.Nesting
import NebulaFS.Lib.MaskedProbe
import NebulaFS.Lib.SortedWalk
import NebulaFS.Lib.SparseFile
import NebulaFS.Lib.Wildcard
import NebulaFS.Lib.MaximalRuns
import NebulaFS.Lib.AuthenticatedCipher
import NebulaFS.Lib.Transfer
import NebulaFS.Lib.Ownership
import NebulaFS.Lib.MerkleDamgard
import NebulaFS.Lib.SecureHash
import NebulaFS.Lib.ShiftRegister
import NebulaFS.Types
import NebulaFS.VarInt
import NebulaFS.Buffer
import NebulaFS.Platform
import NebulaFS.Checksum
import NebulaFS.Crc32
import NebulaFS.Sha256
import NebulaFS.Compression
import NebulaFS.BlockStorage
import NebulaFS.Encryption
import NebulaFS.DirectoryTree
import NebulaFS.IndexManager
import NebulaFS.FileResolver
import NebulaFS.ChunkManager
import NebulaFS.Metadata
import NebulaFS.EntryMetadata
import NebulaFS.ArchiveHeader
import NebulaFS.Parser
import NebulaFS.StreamParser
import NebulaFS.Journal
import NebulaFS.Recovery
import NebulaFS.ArchiveWriter
import NebulaFS.ArchiveReader
import NebulaFS.ArchiveServer
import NebulaFS.CommandLine
import NebulaFS.StorageBackend
import NebulaFS.FileStorageBackend
import NebulaFS.TieredStorage
import NebulaFS.HashTable
import NebulaFS.BTree
import NebulaFS.IndexBTree
import NebulaFS.Snapshot
import NebulaFS.Allocator
import NebulaFS.ThreadPool
import NebulaFS.Scheduler
import NebulaFS.Search
import NebulaFS.IndexCodec
import NebulaFS.Proof.VarIntLemmas
import NebulaFS.Proof.VarIntExactness
import NebulaFS.Proof.DirectoryTreeLemmas
import NebulaFS.Proof.SectionCodecs
import NebulaFS.Proof.DirectoryPaths
import NebulaFS.Proof.DirectoryTreeRuns
import NebulaFS.Proof.GlobMatching
import NebulaFS.Proof.WriterRuns
import NebulaFS.Proof.JournalCodec
import NebulaFS.Proof.JournalRuns
import NebulaFS.Proof.JournalReplay
import NebulaFS.Proof.JournalBounds
import NebulaFS.Proof.RecoveryReplay
import NebulaFS.Proof.ArchiveImage
import NebulaFS.Proof.EntryLookup
import NebulaFS.Proof.EntryCounts
import NebulaFS.Proof.WriterReuse
import NebulaFS.Proof.StoredBytes
import NebulaFS.Proof.ArchiveRoundTrip
import NebulaFS.Proof.Verification
import NebulaFS.Proof.ExtractionReports
import NebulaFS.Proof.EntryBounds
import NebulaFS.Proof.CrashSafety
import NebulaFS.Proof.MetadataPrefix
import NebulaFS.Proof.MetadataLimits
import NebulaFS.Proof.StreamFeeding
import NebulaFS.Proof.StreamCuts
import NebulaFS.Proof.DirectoryBounds
import NebulaFS.Proof.StreamAgreement
import NebulaFS.Proof.RecoveryReports
import NebulaFS.Proof.RecoveryAnalysis
import NebulaFS.Proof.BackendContract
import NebulaFS.Proof.TieredStorageLemmas
import NebulaFS.Proof.TieredFailures
import NebulaFS.Proof.TieredRefinement
import NebulaFS.Proof.TierPlacement
import NebulaFS.Proof.ProbeWalk
import NebulaFS.Proof.Placement
import NebulaFS.Proof.Rehash
import NebulaFS.Proof.TableGrowth
import NebulaFS.Proof.HashTableRuns
import NebulaFS.Proof.Tombstones
import NebulaFS.Proof.TablePersistence
import NebulaFS.Proof.TableDecoding
import NebulaFS.Proof.BTreeNodes
import NebulaFS.Proof.BTreeInsertion
import NebulaFS.Proof.BTreeFill
import NebulaFS.Proof.BTreeRemoval
import NebulaFS.Proof.IndexBTreeRuns
import NebulaFS.Proof.FilesystemBTreeRuns
import NebulaFS.Proof.BTreeIteration
import NebulaFS.Proof.BTreePersistence
import NebulaFS.Proof.BTreeDecoding
import NebulaFS.Proof.IndexLookups
import NebulaFS.Proof.TypeIndex
import NebulaFS.Proof.IndexRoundTrip
import NebulaFS.Proof.SnapshotDeltas
import NebulaFS.Proof.DeltaCodec
import NebulaFS.Proof.ManifestCodec
import NebulaFS.Proof.SnapshotIds
import NebulaFS.Proof.Deduplication
import NebulaFS.Proof.ChunkBoundaries
import NebulaFS.Proof.ChunkPartition
import NebulaFS.Proof.ChunkAccounting
import NebulaFS.Proof.ChunkTable
import NebulaFS.Proof.BoundedDecoders
import NebulaFS.Proof.BackendCapacity
import NebulaFS.Proof.SpanReads
import NebulaFS.Proof.DeltaAccounting
import NebulaFS.Proof.ConcurrentIndexing
import NebulaFS.Proof.WaitAll
import NebulaFS.Proof.PostingCodec
import NebulaFS.Proof.RestoredIndex
import NebulaFS.Proof.DecoderDemands
import NebulaFS.Proof.SearchExactness
import NebulaFS.Proof.RestoredSearch
import NebulaFS.Proof.TokenizerRuns
import NebulaFS.Proof.BlockCompression
import NebulaFS.Proof.BlockReadback
import NebulaFS.Proof.StreamStanding
import NebulaFS.Proof.StreamAccounting
import NebulaFS.Proof.CutAgreement
import NebulaFS.Proof.BlockIntegrity
import NebulaFS.Proof.EncryptionRoundTrip
import NebulaFS.Proof.MetadataAgreement
import NebulaFS.Proof.EntryMetadataCodec
import NebulaFS.Proof.BufferBounds
import NebulaFS.Proof.ServerExchange
import NebulaFS.Proof.ServerRuns
import NebulaFS.Proof.TaskOwnership
import NebulaFS.Proof.TaskNumbers
import NebulaFS.Proof.Sha256Compression
import NebulaFS.Proof.Sha256Digest
import NebulaFS.Proof.AllocatorRuns
import NebulaFS.Proof.Crc32Paths
import NebulaFS.Proof.BlockFiles
import NebulaFS.Proof.HeaderDamage
import NebulaFS.Proof.Arguments
import NebulaFS.Proof.Commands
import NebulaFS.Proof.DeltaChains
