import TLevelDB.Lib.PersistentMemory
import TLevelDB.Lib.LinkedList
import TLevelDB.Lib.Cursor
import TLevelDB.Lib.Versions
import TLevelDB.Group.Program
import TLevelDB.Group.List
import TLevelDB.Group.Crash
import TLevelDB.Db.Format
import TLevelDB.Db.Iter
import TLevelDB.Db.Version
import TLevelDB.Db.Compaction
import TLevelDB.Db.Files
import TLevelDB.Db.Inputs
import TLevelDB.Db.Work
import TLevelDB.Db.Install
import TLevelDB.Db.Impl
import TLevelDB.Db.Reachable
import TLevelDB.Db.Reads
import TLevelDB.Lib.Formats
import TLevelDB.Lib.Storage
import TLevelDB.Db.Manifest
import TLevelDB.Db.Recovery
import TLevelDB.Db.System
import TLevelDB.Log.Format
import TLevelDB.Log.Writer
import TLevelDB.Log.Reader
import TLevelDB.Log.RoundTrip
import TLevelDB.Log.Faults
import TLevelDB.Log.Reuse
import TLevelDB.Db.GroupCommit
import TLevelDB.Db.ForcedSwitch
import TLevelDB.Db.InputErrors
import TLevelDB.Log.Intact
import TLevelDB.Db.LogAndApply
import TLevelDB.Db.BackgroundError
import TLevelDB.Db.Garbage
import TLevelDB.Group.Append
import TLevelDB.Group.Mirror
import TLevelDB.Db.Selection
import TLevelDB.Log.Sessions
import TLevelDB.Cache.Shard
import TLevelDB.Log.Corruption
import TLevelDB.Cache.References
import TLevelDB.Cache.Runs
import TLevelDB.Db.Merger
import TLevelDB.Db.Visible
import TLevelDB.Db.Snapshot
import TLevelDB.Util.Coding
import TLevelDB.Util.Comparator
import TLevelDB.Table.Block
import TLevelDB.Table.BlockCursor
import TLevelDB.Table.BlockRoundTrip
import TLevelDB.Lib.Sections
import TLevelDB.Table.TwoLevel
import TLevelDB.Table.Builder
import TLevelDB.Table.Written
import TLevelDB.Lib.UnionCursor
import TLevelDB.Table.Merger
import TLevelDB.Log.Offsets
import TLevelDB.Db.SkipList
import TLevelDB.Db.KeyBytes
import TLevelDB.Db.MemTable
import TLevelDB.Db.Grandparents
import TLevelDB.Db.Numbers
import TLevelDB.Log.Unchecked
import TLevelDB.Db.WriteBatch
import TLevelDB.Db.Repair
import TLevelDB.Db.Manual
import TLevelDB.Util.Bloom
import TLevelDB.Table.BlockIterator
import TLevelDB.Table.BlockBounds
import TLevelDB.Db.BatchRecords
import TLevelDB.Db.VersionEdit
import TLevelDB.Table.TableFile
import TLevelDB.Table.Reader
import TLevelDB.Db.ApproximateSizes
import TLevelDB.Table.Get
import TLevelDB.Db.TableGet
import TLevelDB.Db.FileNames
import TLevelDB.Db.SanitizeOptions
import TLevelDB.Util.CodingStream
import TLevelDB.Util.Crc32c
import TLevelDB.Util.PosixWritableFile
import TLevelDB.Db.SeekStats
import TLevelDB.Db.LookupKey
import TLevelDB.Db.ReadSampling
import TLevelDB.Db.Restart
import TLevelDB.Util.PosixLock
