import TinyKv.Table.SSTableBuffer
import TinyKv.Table.BlockBased.Reader

/-!
# The two table formats

`TableFormat` and `TableReader` with their two implementations: `in_memory_table_format.cpp` keeps
the entries in memory, `block_based_table_format.cpp` keeps only the index and reads the file again
at every `get`.

A call that may throw gives an `Except` and the state it leaves, also when it throws.
-/

namespace TinyKv

open Bytes

/-- `TableReader`: `InMemoryTableReader` or `BlockBasedTableReader`. -/
inductive TableReader where
  | inMemory (table : SSTable)
  | blockBased (reader : BlockBasedTableReader)
  deriving DecidableEq

namespace TableReader

def withinRange (key : Bytes) : TableReader → Except Fault Bool
  | inMemory table => table.withinRange key
  | blockBased reader => .ok (reader.withinRange key)

/-- `TableReader::get`; a block-based reader opens its file. -/
def get (fs : FileSystem) (key : Bytes) : TableReader → Except Fault (Option Entry)
  | inMemory table => table.get key
  | blockBased reader =>
    reader.get (fs.file? reader.m_fullPath.level reader.m_fullPath.name) key

/-- `TableReader::meta`. -/
def metadata : TableReader → SSTableMetadata
  | inMemory table => table.m_meta
  | blockBased reader => reader.m_meta

/-- `TableReader::getSize`; not implemented by the block-based reader. -/
def getSize : TableReader → Nat
  | inMemory table => table.getSize
  | blockBased _ => 0

/-- `TableReader::NewIterator`; not implemented by the block-based reader. -/
def newIterator : TableReader → Except Fault SSTable.Iter
  | inMemory table => .ok table.newIterator
  | blockBased _ => .error (.runtimeError
      "BlockBasedTableReader::NewIterator(): data blocks are not implemented yet")

end TableReader

/-- `create_directories` of the parent of a table file. -/
def createParent (env : Env) (path : TablePath) (fs : FileSystem) : Except Fault FileSystem :=
  let parent := path.base ++ ("/" : Bytes) ++ path.level
  match env.mkdirFault parent with
  | some _ => .error (.filesystemError parent)
  | none =>
    match fs.createDirectory path.level with
    | none => .error (.filesystemError parent)
    | some fs => .ok fs

namespace InMemoryTableFormat

/-- `InMemoryTableFormat::openTable`. -/
def openTable (fs : FileSystem) (path : TablePath) : Except Fault TableReader :=
  match fs.file? path.level path.name with
  | none => .error (.runtimeError "SSTableReader::read(): Failed to read binary from file")
  | some content => (SSTableReader.readBuffer content).map .inMemory

/-- `InMemoryTableFormat::writeTable`. The check for an empty table comes before the file. -/
def writeTable (env : Env) (path : TablePath) (entries : List Entry) (timestamp : TimestampType)
    (fileNum : FileNumber) (fs : FileSystem) : Except Fault TableReader × FileSystem :=
  match SSTableWriter.write entries timestamp fileNum with
  | .error f => (.error f, fs)
  | .ok (metadata, entries, content) =>
    match createParent env path fs with
    | .error f => (.error f, fs)
    | .ok fs =>
      match fs.writeFile path.level path.name content with
      | none =>
        (.error (.runtimeError "SSTableWriter::write(): Failed to write SSTable"), fs)
      | some fs =>
        (.ok (.inMemory (SSTable.ofEntries metadata entries)),
          fs.record (.tableCreated path content))

end InMemoryTableFormat

namespace BlockBasedTableFormat

/-- `BlockBasedTableFormat::openTable`. -/
def openTable (fs : FileSystem) (path : TablePath)
    (memory : BlockBasedTableReader.Memory := .all) : Except Fault TableReader :=
  match fs.file? path.level path.name with
  | none => .error (.runtimeError (BlockBasedTableReader.about "failed to open table" path))
  | some content => (BlockBasedTableReader.construct content path memory).map .blockBased

/-- `BlockBasedTableFormat::writeTable`. The file is there before the first check: what the stream
holds at a `throw` stays in it. -/
def writeTable (env : Env) (path : TablePath) (entries : List Entry) (timestamp : TimestampType)
    (fileNum : FileNumber) (fs : FileSystem) : Except Fault TableReader × FileSystem :=
  match createParent env path fs with
  | .error f => (.error f, fs)
  | .ok fs =>
    match writeBlocks entries timestamp fileNum [] with
    | .error f output =>
      match fs.writeFile path.level path.name output with
      | none => (.error (failedToCreate path), fs)
      | some fs => (.error f, fs)
    | .ok () output =>
      match fs.writeFile path.level path.name output with
      | none => (.error (failedToCreate path), fs)
      | some fs =>
        ((BlockBasedTableReader.construct output path).map .blockBased,
          fs.record (.tableCreated path output))
where
  failedToCreate (path : TablePath) : Fault :=
    .runtimeError (("BlockBasedTableFormat: failed to create table: " : Bytes) ++ path.string)

end BlockBasedTableFormat

namespace TableFormatKind

/-- `TableFormat::openTable`. -/
def openTable (fmt : TableFormatKind) (fs : FileSystem) (path : TablePath)
    (memory : BlockBasedTableReader.Memory := .all) : Except Fault TableReader :=
  match fmt with
  | InMemory => InMemoryTableFormat.openTable fs path
  | BlockBased => BlockBasedTableFormat.openTable fs path memory

/-- `TableFormat::writeTable`. -/
def writeTable : TableFormatKind → Env → TablePath → List Entry → TimestampType → FileNumber →
    FileSystem → Except Fault TableReader × FileSystem
  | InMemory => InMemoryTableFormat.writeTable
  | BlockBased => BlockBasedTableFormat.writeTable

end TableFormatKind

end TinyKv
