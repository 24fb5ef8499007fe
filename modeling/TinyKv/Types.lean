import TinyKv.Lib.Bytes
import TinyKv.Lib.SortedMap

/-!
# Data types of the store

`types/*.h`, `contexts/system_context.h`, `sstable_metadata.h` and `api/message.h`. A `std::string`
is a byte string, `FileNumber` and `TimestampType` are 64-bit words.

A member function that may throw ends in a `Fault` when it does not return; `outOfBounds` (an access
outside a vector or a buffer) and `signedOverflow` stand for what the language leaves undefined.
-/

namespace TinyKv

/-- `Entry` of `types/entry.h`. -/
structure Entry where
  key : Bytes
  val : Bytes
  tombstone : Bool := false
  deriving DecidableEq, Repr

/-- What the log and the block-based format keep of an entry: a tombstone loses its value. -/
def Entry.persisted (e : Entry) : Entry := { e with val := if e.tombstone then [] else e.val }

@[simp] theorem Entry.persisted_key (e : Entry) : e.persisted.key = e.key := rfl

@[simp] theorem Entry.persisted_tombstone (e : Entry) : e.persisted.tombstone = e.tombstone := rfl

theorem Entry.persisted_persisted (e : Entry) : e.persisted.persisted = e.persisted := by
  unfold Entry.persisted
  dsimp only
  cases h : e.tombstone <;> simp

theorem Entry.length_persisted_val_le (e : Entry) : e.persisted.val.length ≤ e.val.length := by
  unfold Entry.persisted
  dsimp only
  split
  · exact Nat.zero_le _
  · exact le_refl _

theorem Entry.persisted_of_live {e : Entry} (h : e.tombstone = false) : e.persisted = e := by
  cases e
  simp_all [Entry.persisted]

/-- `Error` of `types/error.h`. -/
structure Error where
  error : Bytes
  deriving DecidableEq, Repr

/-- How a call ends when it does not return. -/
inductive Fault where
  | runtimeError (what : Bytes)
  | outOfRange (what : Bytes)
  | filesystemError (path : Bytes)
  | outOfBounds
  | lengthError (what : Bytes)
  | signedOverflow
  | badOptionalAccess
  | badAlloc
  deriving DecidableEq, Repr

/-- A `std::runtime_error`. -/
def Fault.IsThrown (f : Fault) : Prop := ∃ what, f = .runtimeError what

/-- An exception of any class, and not undefined behaviour. -/
def Fault.IsException (f : Fault) : Prop := f ≠ .outOfBounds ∧ f ≠ .signedOverflow

theorem Fault.IsThrown.isException {f : Fault} (h : f.IsThrown) : f.IsException := by
  obtain ⟨what, rfl⟩ := h
  exact ⟨by simp, by simp⟩

abbrev FileNumber := UInt64
abbrev TimestampType := UInt64

/-- `FileNumberAllocator` of `contexts/system_context.h`. -/
structure FileNumberAllocator where
  counter : UInt64 := 0
  deriving DecidableEq, Repr

/-- `FileNumberAllocator::next`: `fetch_add(1)`, wrapping at `2 ^ 64`. -/
def FileNumberAllocator.next (a : FileNumberAllocator) : FileNumber × FileNumberAllocator :=
  (a.counter, { counter := a.counter + 1 })

/-- `FileNumberAllocator::restore`, which nothing calls. -/
def FileNumberAllocator.restore (_ : FileNumberAllocator) (max_fil_num_on_disk : FileNumber) :
    FileNumberAllocator :=
  { counter := max_fil_num_on_disk }

/-- `SSTableMetadata` of `sstable_metadata.h`. -/
structure SSTableMetadata where
  m_file_number : FileNumber
  m_timestamp : TimestampType
  m_min_key : Bytes
  m_max_key : Bytes
  deriving DecidableEq, Repr

/-- `SSTableMetadata::operator<`. -/
def SSTableMetadata.lt (m other : SSTableMetadata) : Bool :=
  decide (m.m_file_number < other.m_file_number)

/-- `TableFormatKind` of `db_factory.h`. -/
inductive TableFormatKind where
  | InMemory
  | BlockBased
  deriving DecidableEq, Repr

/-- `protocol::Response` of `api/message.h`. -/
structure Response where
  ok : Bool
  message : Bytes
  data : Option Bytes
  deriving DecidableEq, Repr

/-- `DbFactoryConfig` of `db_factory.h`. -/
structure DbFactoryConfig where
  memtableCapacity : Int32 := 3
  walId : UInt64 := 0
  walDirectory : Bytes := "./wal"
  sstableDirectory : Bytes := "./sstables"
  maxLevels : Int32 := 3
  tableFormat : TableFormatKind := .InMemory
  deriving DecidableEq, Repr

/-! ## Tables as lists of entries -/

/-- Strictly increasing keys. -/
abbrev SortedEntries (es : List Entry) : Prop := Keyed.Sorted Entry.key es

/-- The entry for `k` in a list of entries. -/
abbrev lookup (es : List Entry) (k : Bytes) : Option Entry := Keyed.lookup Entry.key es k

/-- An entry that is there and not deleted. -/
def live (e : Option Entry) : Option Entry := e.filter fun e => !e.tombstone

@[simp] theorem live_none : live none = none := rfl

theorem live_some (e : Entry) : live (some e) = if e.tombstone then none else some e := by
  cases h : e.tombstone <;> simp [live, Option.filter, h]

/-- The entry for `k` in the first table that has one. -/
def firstEntry (tables : List (List Entry)) (k : Bytes) : Option Entry :=
  tables.findSome? (lookup · k)

@[simp] theorem firstEntry_nil (k : Bytes) : firstEntry [] k = none := rfl

theorem firstEntry_cons (es : List Entry) (tables : List (List Entry)) (k : Bytes) :
    firstEntry (es :: tables) k = (lookup es k).or (firstEntry tables k) := by
  simp only [firstEntry, List.findSome?_cons]
  cases lookup es k <;> rfl

/-- The keys of the first and the last entry, for a list that is not empty. -/
def firstKey (es : List Entry) : Bytes := (es.head?.map Entry.key).getD []
def lastKey (es : List Entry) : Bytes := (es.getLast?.map Entry.key).getD []

/-- `std::sort` by `Entry::operator<`, on distinct keys. -/
def sortEntries (es : List Entry) : List Entry := es.insertionSort fun a b => a.key ≤ b.key

/-- Key and value have a length that fits 32 bits. -/
def Entry.Small (e : Entry) : Prop := e.key.length < 2 ^ 32 ∧ e.val.length < 2 ^ 32

instance (e : Entry) : Decidable e.Small := inferInstanceAs (Decidable (_ ∧ _))

theorem Entry.Small.persisted {e : Entry} (h : e.Small) : e.persisted.Small :=
  ⟨h.1, e.length_persisted_val_le.trans_lt h.2⟩

theorem lookup_map_persisted (es : List Entry) (k : Bytes) :
    lookup (es.map Entry.persisted) k = (lookup es k).map Entry.persisted := by
  simp only [lookup, Keyed.lookup, List.find?_map]
  rfl

theorem sortEntries_eq {es : List Entry} (h : SortedEntries es) : sortEntries es = es :=
  List.Pairwise.insertionSort_eq (h.imp fun hab => hab.le)

theorem sortEntries_perm (es : List Entry) : (sortEntries es).Perm es :=
  List.perm_insertionSort _ es

theorem lastKey_append_singleton (es : List Entry) (e : Entry) : lastKey (es ++ [e]) = e.key := by
  simp [lastKey]

theorem le_lastKey {es : List Entry} (h : SortedEntries es) {e : Entry} (he : e ∈ es) :
    e.key ≤ lastKey es := by
  obtain ⟨es', x, rfl⟩ := List.eq_nil_or_concat' es |>.resolve_left (List.ne_nil_of_mem he)
  rw [lastKey_append_singleton]
  rcases List.mem_append.1 he with he | he
  · exact ((List.pairwise_append.1 h).2.2 e he x (by simp)).le
  · rw [List.mem_singleton.1 he]

theorem firstKey_le {es : List Entry} (h : SortedEntries es) {e : Entry} (he : e ∈ es) :
    firstKey es ≤ e.key := by
  cases es with
  | nil => cases he
  | cons x es =>
    simp only [firstKey, List.head?_cons, Option.map_some, Option.getD_some]
    rcases List.mem_cons.1 he with rfl | he
    · exact le_refl _
    · exact (h.head_lt he).le

end TinyKv
