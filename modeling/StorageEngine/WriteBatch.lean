import Mathlib.Data.List.Induction
import StorageEngine.Common

/-! Write batches: the entries that one `Put`, `Delete`, or `Write` applies together.  The public
operations never give a delete entry a value, and the batch carries that fact. -/

namespace StorageEngine

inductive EntryType where
  | kPut
  | kDelete
  deriving DecidableEq, Repr

/-- `static_cast<uint8_t>` of the enumerators, `kPut = 1` and `kDelete = 2`. -/
def EntryType.toByte : EntryType → Byte
  | .kPut => 1#8
  | .kDelete => 2#8

structure Entry where
  type : EntryType
  key : Bytes
  value : Bytes
  deriving DecidableEq, Repr

@[ext]
structure WriteBatch where
  entries : List Entry
  deleteEmpty : ∀ entry ∈ entries, entry.type = .kDelete → entry.value = []
  deriving DecidableEq

namespace WriteBatch

def new : WriteBatch := ⟨[], by simp⟩

def empty (batch : WriteBatch) : Bool := batch.entries.isEmpty

def appendEntry (batch : WriteBatch) (entry : Entry)
    (hentry : entry.type = .kDelete → entry.value = []) : WriteBatch where
  entries := batch.entries ++ [⟨entry.type, entry.key, entry.value⟩]
  deleteEmpty := by
    intro e he
    rcases List.mem_append.mp he with h | h
    · exact batch.deleteEmpty e h
    · obtain rfl := List.mem_singleton.mp h
      exact hentry

def put (batch : WriteBatch) (key value : Bytes) : WriteBatch :=
  batch.appendEntry ⟨.kPut, key, value⟩ (by simp)

def delete (batch : WriteBatch) (key : Bytes) : WriteBatch :=
  batch.appendEntry ⟨.kDelete, key, []⟩ (by simp)

/-- The copy constructor and the copy assignment, which append the entries of `other` one by
one to an empty batch. -/
def copy (other : WriteBatch) : WriteBatch :=
  other.entries.attach.foldl (fun batch entry =>
    batch.appendEntry entry.1 (other.deleteEmpty entry.1 entry.2)) new

@[simp] theorem entries_new : new.entries = [] := rfl

@[simp] theorem entries_appendEntry (batch : WriteBatch) (entry : Entry)
    (hentry : entry.type = .kDelete → entry.value = []) :
    (batch.appendEntry entry hentry).entries = batch.entries ++ [entry] := rfl

theorem entries_foldl_appendEntry {ι : Type} (f : ι → Entry)
    (hf : ∀ i, (f i).type = .kDelete → (f i).value = []) (is : List ι) (batch : WriteBatch) :
    (is.foldl (fun batch i => batch.appendEntry (f i) (hf i)) batch).entries =
      batch.entries ++ is.map f := by
  induction is generalizing batch with
  | nil => simp
  | cons i is ih => simp [ih]

@[simp] theorem copy_eq (other : WriteBatch) : other.copy = other := by
  apply WriteBatch.ext
  rw [copy, entries_foldl_appendEntry (fun e : {e // e ∈ other.entries} => e.1)]
  simp

inductive Built : WriteBatch → Prop
  | new : Built new
  | put {batch : WriteBatch} (key value : Bytes) : Built batch → Built (batch.put key value)
  | delete {batch : WriteBatch} (key : Bytes) : Built batch → Built (batch.delete key)
  | copy {batch : WriteBatch} : Built batch → Built batch.copy

/-- Every batch whose delete entries have no value is built by some sequence of operations. -/
theorem built (batch : WriteBatch) : Built batch := by
  obtain ⟨entries, h⟩ := batch
  induction entries using List.reverseRecOn with
  | nil => exact Built.new
  | append_singleton entries entry ih =>
    have hinit := ih fun e he => h e (List.mem_append_left _ he)
    have hlast := h entry (by simp)
    obtain ⟨type, key, value⟩ := entry
    cases type with
    | kPut => exact Built.put key value hinit
    | kDelete =>
      obtain rfl : value = [] := hlast rfl
      exact Built.delete key hinit

end WriteBatch

end StorageEngine
