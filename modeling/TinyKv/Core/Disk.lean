import TinyKv.Table.Format
import TinyKv.Wal.Wal

/-!
# What a crash leaves

A crash stops an operation between two of its effects, or in the middle of an append to the log
(`CrashPoint`). The disk is then what the effects so far made of empty directories (`Disk.after`).

`Disk.read` reads a key back from it: the last record of the log for the key, as `WAL::getEntries`
decodes the log, or else the newest table that has the key, as its own reader reads it.
-/

namespace TinyKv

open Bytes

/-- The contents of the table files, newest first, and the log. A new table takes the place of no other
one: the names drawn are taken to be distinct. -/
structure Disk where
  tables : List Bytes := []
  wal : Option Bytes := none
  deriving DecidableEq

namespace Disk

def apply (d : Disk) : Effect → Disk
  | .nameDrawn _ => d
  | .tableCreated _ content => { d with tables := content :: d.tables }
  | .walRemoved => { d with wal := none }
  | .walAppended bytes => { d with wal := some (d.wal.getD [] ++ bytes) }

/-- The disk after these effects on empty directories. -/
def after (effects : List Effect) : Disk := effects.foldl apply {}

theorem after_snoc (effects : List Effect) (e : Effect) :
    after (effects ++ [e]) = (after effects).apply e := by
  simp [after]

/-! ## Reading it back -/

/-- The path of a table on a disk of its own. -/
def tablePath : TablePath := ⟨"", "level-0", "table"⟩

/-- A disk with nothing but this table. -/
def onlyTable (content : Bytes) : FileSystem :=
  FileSystem.empty.setDir tablePath.level (SortedMap.empty.insert (tablePath.name, .regular content))

/-- What a new reader of a table file finds for `k`. -/
def readTable (fmt : TableFormatKind) (content k : Bytes) : Except Fault (Option Entry) :=
  match fmt.openTable (onlyTable content) tablePath with
  | .error f => .error f
  | .ok tableReader => tableReader.get (onlyTable content) k

/-- The first table that has `k`. -/
def readTables (fmt : TableFormatKind) (k : Bytes) : List Bytes → Except Fault (Option Entry)
  | [] => .ok none
  | content :: tables =>
    match readTable fmt content k with
    | .error f => .error f
    | .ok none => readTables fmt k tables
    | .ok (some e) => .ok (some e)

/-- The entry for `k` on the disk, `none` when the disk cannot be read. -/
def find (fmt : TableFormatKind) (d : Disk) (k : Bytes) : Option (Option Entry) :=
  match WAL.getEntries { FileSystem.empty with wal := d.wal } with
  | none => none
  | some entries =>
    match lookup entries.reverse k with
    | some e => some (some e)
    | none => (readTables fmt k d.tables).toOption

/-- The value of `k` on the disk: a tombstone is no value. -/
def read (fmt : TableFormatKind) (d : Disk) (k : Bytes) : Option (Option Bytes) :=
  (d.find fmt k).map fun e => (live e).map Entry.val

end Disk

/-! ## Crashes -/

/-- The effects that have reached the disk when an operation with the effects from `before` to
`after` crashes. -/
inductive CrashPoint (before after : List Effect) : List Effect → Prop
  | between {p : List Effect} (h : before <+: p) (h' : p <+: after) : CrashPoint before after p
  | torn {p : List Effect} {bytes : Bytes} {n : Nat} (h : before <+: p)
      (h' : p ++ [.walAppended bytes] <+: after) (hn : n < bytes.length) :
      CrashPoint before after (p ++ [.walAppended (bytes.take n)])

/-- `G` holds of whatever a crash between `before` and `after` leaves. -/
def Safe (G : Disk → Prop) (before after : List Effect) : Prop :=
  before <+: after ∧ ∀ p, CrashPoint before after p → G (Disk.after p)

namespace Safe

variable {G : Disk → Prop} {a b c : List Effect}

theorem refl (h : G (Disk.after a)) : Safe G a a := by
  refine ⟨List.prefix_refl a, fun p hp => ?_⟩
  cases hp with
  | between h1 h2 =>
    obtain rfl := h1.eq_of_length_le h2.length_le
    exact h
  | torn h1 h2 _ =>
    have := h1.length_le
    have := h2.length_le
    simp only [List.length_append, List.length_singleton] at this
    omega

/-- An operation in two parts crashes in one of them. -/
theorem trans (h : Safe G a b) (h' : Safe G b c) : Safe G a c := by
  refine ⟨h.1.trans h'.1, fun p hp => ?_⟩
  cases hp with
  | between h1 h2 =>
    rcases List.prefix_or_prefix_of_prefix h2 h'.1 with hpb | hbp
    · exact h.2 p (.between h1 hpb)
    · exact h'.2 p (.between hbp h2)
  | @torn p bytes n h1 h2 hn =>
    rcases List.prefix_or_prefix_of_prefix h2 h'.1 with hpb | hbp
    · exact h.2 _ (.torn h1 hpb hn)
    · rcases List.prefix_concat_iff.1 hbp with rfl | hbp
      · exact h.2 _ (.torn h1 (List.prefix_refl _) hn)
      · exact h'.2 _ (.torn hbp h2 hn)

/-- One effect, which only an append can leave half done. -/
theorem snoc {e : Effect} (h : G (Disk.after a)) (h' : G ((Disk.after a).apply e))
    (ht : ∀ bytes n, e = .walAppended bytes → n < bytes.length →
      G ((Disk.after a).apply (.walAppended (bytes.take n)))) : Safe G a (a ++ [e]) := by
  refine ⟨List.prefix_append a [e], fun p hp => ?_⟩
  cases hp with
  | between h1 h2 =>
    rcases List.prefix_concat_iff.1 h2 with rfl | h2
    · rwa [Disk.after_snoc]
    · obtain rfl := h1.eq_of_length_le h2.length_le
      exact h
  | @torn p bytes n h1 h2 hn =>
    -- nothing of the operation is before its only effect
    have hp : a = p := by
      have := h2.length_le
      simp only [List.length_append, List.length_singleton] at this
      exact h1.eq_of_length_le (by omega)
    subst hp
    have he : Effect.walAppended bytes = e := by
      simpa using List.append_cancel_left (h2.eq_of_length (by simp))
    rw [Disk.after_snoc]
    exact ht bytes n he.symm hn

theorem mono {G' : Disk → Prop} (h : Safe G a b) (hG : ∀ d, G d → G' d) : Safe G' a b :=
  ⟨h.1, fun p hp => hG _ (h.2 p hp)⟩

end Safe

end TinyKv
