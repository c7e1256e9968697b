import Rdwarfs.Lib.Machine
import Rdwarfs.Lib.Oracle
import Rdwarfs.Lib.Builds
import Rdwarfs.Lib.Descent
import Rdwarfs.Lib.Scan
import Rdwarfs.Lib.Writes
import Rdwarfs.Source.Error
import Rdwarfs.Source.Format.Header
import Rdwarfs.Source.Format.ImageSource
import Rdwarfs.Source.Format.Detect
import Rdwarfs.Source.Format.SectionIndex
import Rdwarfs.Source.Compression
import Rdwarfs.Source.Format.Image
import Rdwarfs.Guarantees.DetectEquivalence
import Rdwarfs.Guarantees.IndexAbsence
import Rdwarfs.Source.Metadata.Tables
import Rdwarfs.Source.Fs.Inode
import Rdwarfs.Source.Fs.Tables
import Rdwarfs.Source.Fs.Filesystem
import Rdwarfs.Guarantees.InodePartition
import Rdwarfs.Lib.Utf8
import Rdwarfs.Source.Metadata.Thrift
import Rdwarfs.Guarantees.PackedTables
import Rdwarfs.Source.Metadata.Schema
import Rdwarfs.Source.Metadata.Frozen
import Rdwarfs.Source.Metadata.Fsst
import Rdwarfs.Source.Metadata.Model
import Rdwarfs.Source.Fs.Open
import Rdwarfs.Source.Fs.Walk
import Rdwarfs.Source.Fs.Lookup
import Rdwarfs.Source.Fs.Stat
import Rdwarfs.Guarantees.WalkTermination
import Rdwarfs.Guarantees.TreeAgreement
import Rdwarfs.Guarantees.AccessorSafety
import Rdwarfs.Guarantees.OpenedFilesystem
import Rdwarfs.Lib.UnixPath
import Rdwarfs.Source.Fs.Extract
import Rdwarfs.Guarantees.ExtractContainment
import Rdwarfs.Source.Fs.BlockCache
import Rdwarfs.Guarantees.CacheAccounting
import Rdwarfs.Source.Fs.Read
import Rdwarfs.Source.Fs.Tar
import Rdwarfs.Guarantees.BlockReads
import Rdwarfs.Guarantees.ChunkEnds
import Rdwarfs.Guarantees.ReadContract
import Rdwarfs.Guarantees.FileContents
import Rdwarfs.Source.Fs.SharedCache
import Rdwarfs.Source.Fs.FetchThreads
import Rdwarfs.Guarantees.CacheOwners
import Rdwarfs.Guarantees.BorrowedReads
import Rdwarfs.Guarantees.CacheRecency
import Rdwarfs.Guarantees.CacheTransparency
import Rdwarfs.Guarantees.SharedFetches
import Rdwarfs.Guarantees.ElidedFields
import Rdwarfs.Guarantees.FrozenArithmetic
import Rdwarfs.Guarantees.FrozenPositions
import Rdwarfs.Guarantees.NearAccessors
import Rdwarfs.Guarantees.ListOverruns
import Rdwarfs.Guarantees.ExactPositions
import Rdwarfs.Lib.Iteration
import Rdwarfs.Source.Format.Sections
import Rdwarfs.Guarantees.SectionTiling
import Rdwarfs.Lib.Streams
import Rdwarfs.Source.Compression.Capped
import Rdwarfs.Source.Compression.Arms
import Rdwarfs.Guarantees.DecodedCap
import Rdwarfs.Guarantees.TarFidelity
import Rdwarfs.Lib.Compact
import Rdwarfs.Guarantees.CompactDecoding
import Rdwarfs.Source.Format.History
import Rdwarfs.Guarantees.ThriftRoundTrip
import Rdwarfs.Guarantees.HeaderCodec
import Rdwarfs.Source.Format.Integrity
import Rdwarfs.Guarantees.TamperedSections
import Rdwarfs.Guarantees.FirstSection
import Rdwarfs.Guarantees.WindowedSources
import Rdwarfs.Guarantees.IndexedImage
import Rdwarfs.Lib.Paging
import Rdwarfs.Source.Fuse
import Rdwarfs.Guarantees.DirectoryPages
import Rdwarfs.Guarantees.BorrowedWindows
import Rdwarfs.Source.Compression.Prefix
import Rdwarfs.Guarantees.PartialDecode
import Rdwarfs.Guarantees.FsstCodec
import Rdwarfs.Guarantees.StringTables
import Rdwarfs.Guarantees.ListCaps
import Rdwarfs.Lib.Bits
import Rdwarfs.Lib.Json
import Rdwarfs.Guarantees.PackedLists
import Rdwarfs.Guarantees.PlainStrings
import Rdwarfs.Guarantees.FailureCounts
import Rdwarfs.Guarantees.ExtractedTree
import Rdwarfs.Guarantees.HoleLengths
import Rdwarfs.Guarantees.ChunkTable
import Rdwarfs.Guarantees.IncludeFilter
import Rdwarfs.Source.Dwarfsck
import Rdwarfs.Guarantees.FileChecksums
import Rdwarfs.Guarantees.JsonOutput
import Rdwarfs.Guarantees.DeltaOffsets
import Rdwarfs.Guarantees.ExactVarints
import Rdwarfs.Guarantees.ZigzagIntegers
import Rdwarfs.Lib.CompactTrees
import Rdwarfs.Guarantees.SkippedValues
import Rdwarfs.Source.Metadata.Bitbuf
import Rdwarfs.Guarantees.BitReader
import Rdwarfs.Guarantees.SameSections
import Rdwarfs.Source.Opening
import Rdwarfs.Guarantees.ReopenedImages
import Rdwarfs.Lib.Questions
import Rdwarfs.Source.FuseSession
import Rdwarfs.Guarantees.MountSessions
import Rdwarfs.Guarantees.MountedTree
import Rdwarfs.Lib.TryForEach
import Rdwarfs.Source.Format.Verify
import Rdwarfs.Guarantees.VerifiedImages
import Rdwarfs.Guarantees.TamperedImages
import Rdwarfs.Source.Dwarfs
import Rdwarfs.Guarantees.MountOptions
import Rdwarfs.Source.DwarfsckReport
import Rdwarfs.Guarantees.ImageReports
import Rdwarfs.Guarantees.TableReports
import Rdwarfs.Guarantees.ResizedImages
import Rdwarfs.Source.Dwarfsextract
import Rdwarfs.Guarantees.CheckedCommands
import Rdwarfs.Guarantees.ArchivedTree
import Rdwarfs.Guarantees.AskedBlocks
import Rdwarfs.Guarantees.CodecOutcomes
