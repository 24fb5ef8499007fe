import TinyKv.Lib.Bytes
import TinyKv.Lib.Bits
import TinyKv.Lib.Words
import TinyKv.Lib.Parse
import TinyKv.Lib.Lines
import TinyKv.Lib.SortedMap
import TinyKv.Lib.Search
import TinyKv.Lib.Run
import TinyKv.Lib.Cursor
import TinyKv.Lib.Fair
import TinyKv.Lib.Spaced
import TinyKv.Types
import TinyKv.FileSystem
import TinyKv.Iterator
import TinyKv.Wal.Wal
import TinyKv.Wal.Proof.Decode
import TinyKv.Wal.Proof.TornAppend
import TinyKv.Wal.Proof.TornTail
import TinyKv.Wal.Proof.ReadBack
import TinyKv.Wal.Proof.Grammar
import TinyKv.Table.SSTable
import TinyKv.Table.SSTableBuffer
import TinyKv.Table.BlockBased.Format
import TinyKv.Table.BlockBased.Reader
import TinyKv.Table.BlockBased.Proof.Layout
import TinyKv.Table.BlockBased.Proof.Lookup
import TinyKv.Table.BlockBased.Proof.Cutting
import TinyKv.Table.BlockBased.Proof.Accept
import TinyKv.Table.BlockBased.Proof.Filter
import TinyKv.Table.BlockBased.Proof.Probes
import TinyKv.Table.BlockBased.Proof.Inside
import TinyKv.Table.BlockBased.Proof.HalfWritten
import TinyKv.Table.Format
import TinyKv.Table.Proof.SSTable
import TinyKv.Table.Proof.InBounds
import TinyKv.Table.Proof.Format
import TinyKv.Table.Proof.Reopen
import TinyKv.Table.Proof.Seek
import TinyKv.Table.Proof.Truncated
import TinyKv.Core.LevelManager
import TinyKv.Core.StorageManager
import TinyKv.Core.SkipList
import TinyKv.Core.MemTable
import TinyKv.Core.DbImpl
import TinyKv.Abstract.Lsm
import TinyKv.Core.Proof.Iterators
import TinyKv.Core.Proof.Level
import TinyKv.Core.Proof.Levels
import TinyKv.Core.Proof.Storage
import TinyKv.Core.Proof.LevelLoading
import TinyKv.Core.Proof.History
import TinyKv.Core.Proof.MemTable
import TinyKv.Core.Proof.Refine
import TinyKv.Core.Proof.KeyValue
import TinyKv.Core.Proof.Delete
import TinyKv.Api.Codec
import TinyKv.Api.Proof.Request
import TinyKv.Api.Proof.Grammar
import TinyKv.Api.Proof.Response
import TinyKv.Api.CommandHandler
import TinyKv.Api.Proof.Server
import TinyKv.Core.Proof.FailedFlush
import TinyKv.Core.Proof.Reload
import TinyKv.Core.Proof.NewestFirst
import TinyKv.Core.Proof.StoredValues
import TinyKv.Core.Proof.LevelOrder
import TinyKv.Core.Disk
import TinyKv.Core.Proof.Disk
import TinyKv.Core.Proof.Crash
import TinyKv.Core.Proof.LogMirror
import TinyKv.Core.Proof.Replay
import TinyKv.Core.Proof.CorruptLog
import TinyKv.Core.Proof.Capacity
import TinyKv.Core.Proof.Restart
import TinyKv.Core.Proof.TableNames
import TinyKv.Core.Proof.FailedWrite
import TinyKv.Core.Proof.Lifetimes
import TinyKv.Core.Proof.FileNumbers
import TinyKv.Core.Proof.Recovery
import TinyKv.Core.Proof.Interrupted
import TinyKv.Core.Proof.Durable
import TinyKv.Core.Proof.Unreadable
import TinyKv.Core.Proof.TableFiles
import TinyKv.Core.Proof.Independence
import TinyKv.Net.Port
import TinyKv.Net.Proof.Port
import TinyKv.Net.FdConnection
import TinyKv.Net.Session
import TinyKv.Net.Proof.FdConnection
import TinyKv.Net.Proof.LineFree
import TinyKv.Net.Proof.Session
import TinyKv.Cli.Repl
import TinyKv.Cli.System
import TinyKv.Abstract.Console
import TinyKv.Cli.Proof.System
import TinyKv.Cli.Proof.Progress
import TinyKv.Cli.Proof.LastWrite
import TinyKv.Cli.Proof.Acknowledged
import TinyKv.Cli.Proof.AnyServer
