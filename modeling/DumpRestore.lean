import DumpRestore.Foundations.ByteOrder
import DumpRestore.Foundations.Memory
import DumpRestore.Foundations.Sparse
import DumpRestore.Foundations.Keeps
import DumpRestore.Foundations.Chain
import DumpRestore.Foundations.Decimal
import DumpRestore.Foundations.Calendar
import DumpRestore.Foundations.Lines
import DumpRestore.Protocol.Spcl
import DumpRestore.Protocol.Checksum
import DumpRestore.Protocol.Segment
import DumpRestore.Protocol.TapeBuf
import DumpRestore.Protocol.Direct
import DumpRestore.Dump.Producer
import DumpRestore.Dump.FileRecords
import DumpRestore.Dump.Directory
import DumpRestore.Dump.DirectoryBound
import DumpRestore.Foundations.Bins
import DumpRestore.Dump.VolumeChange
import DumpRestore.Dump.InodeMaps
import DumpRestore.Dump.Mapping
import DumpRestore.Dump.MapPasses
import DumpRestore.Dump.Selection
import DumpRestore.Dump.MapAgreement
import DumpRestore.Dump.DumpDates
import DumpRestore.Dump.DumpDatesFile
import DumpRestore.Dump.DumpDatesTable
import DumpRestore.Dump.Writer
import DumpRestore.Dump.WriterInvariant
import DumpRestore.Dump.Numbering
import DumpRestore.Dump.Trailer
import DumpRestore.Dump.Compress
import DumpRestore.Dump.SlaveRing
import DumpRestore.Dump.RingInvariant
import DumpRestore.Dump.RingRuns
import DumpRestore.Restore.Tape
import DumpRestore.Restore.Convert
import DumpRestore.Restore.QuadTape
import DumpRestore.Restore.Decoder
import DumpRestore.Restore.GetFile
import DumpRestore.Restore.FileStream
import DumpRestore.Restore.DamagedStream
import DumpRestore.Restore.DirFile
import DumpRestore.Restore.ReadDir
import DumpRestore.Restore.Blocks
import DumpRestore.Restore.Effects
import DumpRestore.Restore.Untouched
import DumpRestore.Restore.DryRun
import DumpRestore.RoundTrip.FileData
import DumpRestore.RoundTrip.Directory
import DumpRestore.RoundTrip.Blocks
import DumpRestore.RoundTrip.Compressed
import DumpRestore.RoundTrip.VolumeLength
import DumpRestore.Restore.Resync
import DumpRestore.Restore.TrustedHeaders
import DumpRestore.Restore.SetupMaps
import DumpRestore.Restore.SymbolTable
import DumpRestore.Rmt.OpenFlags
import DumpRestore.Rmt.Server
import DumpRestore.Rmt.Client
import DumpRestore.Rmt.InStep
import DumpRestore.Restore.Blind
import DumpRestore.Restore.Search
import DumpRestore.Restore.MountedVolume
import DumpRestore.Restore.RecordCounter
import DumpRestore.Restore.TapePositions
import DumpRestore.Restore.CreateLeaves
import DumpRestore.Restore.RecordStream
import DumpRestore.Restore.ExtAttributes
import DumpRestore.Restore.Xattr
import DumpRestore.Dump.VolumeInodes
import DumpRestore.RoundTrip.GoodVolume
import DumpRestore.Restore.Canon
import DumpRestore.Dump.ExcludedInodes
import DumpRestore.Restore.Acl
import DumpRestore.Restore.Names
import DumpRestore.Foundations.Cuts
import DumpRestore.Dump.VolumeLimits
import DumpRestore.Dump.LimitedVolumes
import DumpRestore.Restore.TreeScan
import DumpRestore.Restore.StoredTree
import DumpRestore.Foundations.Linked
import DumpRestore.Restore.SymtabOps
import DumpRestore.Restore.SymtabRep
import DumpRestore.Restore.SymtabInodes
import DumpRestore.Restore.SymtabTree
import DumpRestore.Restore.SymtabStore
import DumpRestore.Restore.SymtabRuns
import DumpRestore.Restore.SymtabNames
import DumpRestore.Restore.Incremental
import DumpRestore.Restore.IncrementalSound
import DumpRestore.Restore.IncrementalPasses
import DumpRestore.Restore.Unreferenced
import DumpRestore.Restore.IncrementalRuns
