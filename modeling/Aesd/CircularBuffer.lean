/-
**The circular buffer of commands: `aesd-circular-buffer.c`.**

The ring has ten slots, an index where the next command goes, an index where reading starts, and a
flag that says that all slots are taken.  The flag is inferred from the write index coming back to
zero, and the reader never looks at it: `findEntryOffsetForFpos` walks all ten slots from the read
index on and relies on the unused ones having size zero.

Main definitions:

* `AesdBufferEntry`, `AesdCircularBuffer` — an entry, and the ring with its indices;
* `AesdCircularBuffer.init`, `AesdCircularBuffer.addEntry`,
  `AesdCircularBuffer.findEntryOffsetForFpos` — the operations of the source;
* `AesdCircularBuffer.entries` — the entries in the ring, oldest first;
* `AesdCircularBuffer.Inv` — what links the indices, the flag and the unused slots.

Main results:

* `AesdCircularBuffer.Inv.addEntry`, `AesdCircularBuffer.Inv.entries_addEntry` — **adding an entry
  is pushing it on a list of at most ten**, in every ring that satisfies the invariant.
-/

import Aesd.KernelMemory
import Aesd.RingWindow
import Aesd.TermLog

set_option relaxedAutoImplicit false
set_option autoImplicit false

namespace Aesd

open RingWindow

/-! ### The data -/

/-- `struct aesd_buffer_entry`: a pointer to the bytes of a command, and their number. -/
structure AesdBufferEntry where
  buffptr : KPtr
  size : ℕ
  deriving DecidableEq, Repr

/-- The entry that `memset` leaves behind. -/
def AesdBufferEntry.zero : AesdBufferEntry := ⟨.null, 0⟩

/-- `AESDCHAR_MAX_WRITE_OPERATIONS_SUPPORTED`. -/
abbrev maxWriteOperationsSupported : ℕ := 10

instance : NeZero maxWriteOperationsSupported := ⟨by decide⟩

/-- `struct aesd_circular_buffer`.  Both indices are indices of slots. -/
structure AesdCircularBuffer where
  /-- The slots. -/
  entry : Fin maxWriteOperationsSupported → AesdBufferEntry
  /-- Where the next command is stored. -/
  inOffs : ℕ
  /-- Where reading starts. -/
  outOffs : ℕ
  /-- All slots are taken. -/
  full : Bool
  in_lt : inOffs < maxWriteOperationsSupported
  out_lt : outOffs < maxWriteOperationsSupported

namespace AesdCircularBuffer

/-! ### The operations -/

/-- `aesd_circular_buffer_init`. -/
def init : AesdCircularBuffer :=
  ⟨fun _ => .zero, 0, 0, false, by decide, by decide⟩

/-- `aesd_circular_buffer_add_entry`: the ring with the entry added, and the pointer of the entry
that it overwrites.  Both pointer arguments of the source are valid in every call, so its guard
against `NULL` is not taken. -/
def addEntry (b : AesdCircularBuffer) (e : AesdBufferEntry) : AesdCircularBuffer × KPtr :=
  let oldPtr := if b.full then (b.entry ⟨b.inOffs, b.in_lt⟩).buffptr else .null
  ({ entry := Function.update b.entry ⟨b.inOffs, b.in_lt⟩ e
     inOffs := (b.inOffs + 1) % maxWriteOperationsSupported
     outOffs := if b.full then (b.outOffs + 1) % maxWriteOperationsSupported else b.outOffs
     full := if (b.inOffs + 1) % maxWriteOperationsSupported = 0 then true else b.full
     in_lt := Nat.mod_lt _ (by decide)
     out_lt := by
       split
       · exact Nat.mod_lt _ (by decide)
       · exact b.out_lt }, oldPtr)

/-- The loop of `aesd_circular_buffer_find_entry_offset_for_fpos`, with `k` iterations to go.  The
running sum is an `int`, the sizes and the position are of type `size_t`. -/
def findLoop (b : AesdCircularBuffer) (charOffset : ℕ) :
    ℕ → ℕ → ℤ → Option (Fin maxWriteOperationsSupported × ℕ)
  | 0, _, _ => none
  | k + 1, i, composedLength =>
      let buffIdx := Fin.ofNat maxWriteOperationsSupported (b.outOffs + i)
      let size := (b.entry buffIdx).size
      let composedLength := int32 (sizeT composedLength + size)
      if charOffset < sizeT composedLength then
        some (buffIdx, sizeT ((charOffset : ℤ) - (sizeT composedLength - size)))
      else findLoop b charOffset k (i + 1) composedLength

/-- `aesd_circular_buffer_find_entry_offset_for_fpos`: the slot of the entry that holds the byte at
a position, and the offset of the byte in it. -/
def findEntryOffsetForFpos (b : AesdCircularBuffer) (charOffset : ℕ) :
    Option (Fin maxWriteOperationsSupported × ℕ) :=
  b.findLoop charOffset maxWriteOperationsSupported 0 0

/-! ### The entries in the ring -/

/-- The number of entries, as `aesd_ioctl` computes it. -/
def availableEntries (b : AesdCircularBuffer) : ℤ :=
  if b.full then maxWriteOperationsSupported else (b.inOffs : ℤ) - b.outOffs

/-- The slots in use. -/
def stored (b : AesdCircularBuffer) : ℕ := b.availableEntries.toNat

/-- The entries in the ring, oldest first. -/
def entries (b : AesdCircularBuffer) : List AesdBufferEntry := window b.entry b.outOffs b.stored

/-- **The invariant of the ring.**  A full ring is read from where it is written; a ring that has
never been full is read from slot zero, and the slots from the write index on are unused. -/
structure Inv (b : AesdCircularBuffer) : Prop where
  /-- The oldest entry of a full ring is the one to be overwritten. -/
  full_eq : b.full = true → b.inOffs = b.outOffs
  /-- Reading starts at slot zero until the ring is full. -/
  out_eq : b.full = false → b.outOffs = 0
  /-- The slots that have not been written are zero. -/
  unused : b.full = false → ∀ i : Fin maxWriteOperationsSupported, b.inOffs ≤ i.val →
    b.entry i = .zero

theorem Inv.init : init.Inv where
  full_eq h := by simp [AesdCircularBuffer.init] at h
  out_eq _ := rfl
  unused _ _ _ := rfl

theorem stored_of_full {b : AesdCircularBuffer} (hf : b.full = true) : b.stored = 10 := by
  simp [stored, availableEntries, hf]

theorem Inv.stored_of_not_full {b : AesdCircularBuffer} (h : b.Inv) (hf : b.full = false) :
    b.stored = b.inOffs := by
  simp [stored, availableEntries, hf, h.out_eq hf]

theorem Inv.stored_le {b : AesdCircularBuffer} (h : b.Inv) : b.stored ≤ 10 := by
  cases hf : b.full with
  | true => rw [stored_of_full hf]
  | false => rw [h.stored_of_not_full hf]; exact b.in_lt.le

/-- The count that `aesd_ioctl` computes is not negative. -/
theorem Inv.availableEntries_eq {b : AesdCircularBuffer} (h : b.Inv) :
    b.availableEntries = b.stored := by
  cases hf : b.full with
  | true => simp [stored, availableEntries, hf]
  | false => simp [stored, availableEntries, hf, h.out_eq hf]

@[simp] theorem length_entries (b : AesdCircularBuffer) : b.entries.length = b.stored :=
  window_length ..

/-- The slots a reader sees behind the entries are zero: walking all ten slots from the read index
on shows the entries and then only unused slots. -/
theorem Inv.window_eq {b : AesdCircularBuffer} (h : b.Inv) :
    window b.entry b.outOffs maxWriteOperationsSupported
      = b.entries ++ List.replicate (10 - b.stored) .zero := by
  cases hf : b.full with
  | true => simp [entries, stored_of_full hf]
  | false =>
      have hst := h.stored_of_not_full hf
      have hle : b.stored ≤ 10 := h.stored_le
      have hrest : window b.entry (b.outOffs + b.stored) (10 - b.stored)
          = List.replicate (10 - b.stored) .zero := by
        refine List.eq_replicate_iff.2 ⟨window_length .., ?_⟩
        intro e he
        obtain ⟨j, hj, rfl⟩ := List.mem_map.1 he
        have hj' : j < 10 - b.stored := List.mem_range.1 hj
        refine h.unused hf _ ?_
        rw [h.out_eq hf, Fin.val_ofNat, Nat.mod_eq_of_lt (show 0 + b.stored + j < 10 by omega)]
        omega
      rw [entries, ← hrest, ← window_add, show b.stored + (10 - b.stored) = 10 by omega]

/-! ### Adding an entry -/

/-- Adding to a ring with a free slot. -/
theorem Inv.stored_addEntry {b : AesdCircularBuffer} (h : b.Inv) (e : AesdBufferEntry)
    (hf : b.full = false) : (b.addEntry e).1.stored = b.stored + 1 := by
  have hin : b.inOffs < 10 := b.in_lt
  rw [h.stored_of_not_full hf]
  by_cases hwrap : (b.inOffs + 1) % 10 = 0
  · have hfull : (b.addEntry e).1.full = true := by simp [addEntry, hwrap]
    rw [stored_of_full hfull]
    omega
  · have hmod : (b.inOffs + 1) % 10 = b.inOffs + 1 := Nat.mod_eq_of_lt (by omega)
    simp only [stored, availableEntries, addEntry, hf, hmod, h.out_eq hf, if_false,
      Bool.false_eq_true]
    simp

/-- **Adding an entry keeps the invariant.** -/
theorem Inv.addEntry {b : AesdCircularBuffer} (h : b.Inv) (e : AesdBufferEntry) :
    (b.addEntry e).1.Inv := by
  have hin : b.inOffs < 10 := b.in_lt
  cases hf : b.full with
  | true =>
      have heq := h.full_eq hf
      refine ⟨?_, ?_, ?_⟩
      · intro _
        simp [AesdCircularBuffer.addEntry, hf, heq]
      · intro hc
        simp [AesdCircularBuffer.addEntry, hf] at hc
      · intro hc
        simp [AesdCircularBuffer.addEntry, hf] at hc
  | false =>
      have hout := h.out_eq hf
      refine ⟨?_, ?_, ?_⟩
      · intro hc
        simp only [AesdCircularBuffer.addEntry, hf, Bool.false_eq_true, if_false] at hc ⊢
        by_cases hwrap : (b.inOffs + 1) % 10 = 0
        · rw [hwrap, hout]
        · simp [hwrap] at hc
      · intro _
        simp [AesdCircularBuffer.addEntry, hf, hout]
      · intro hc i hi
        have hwrap : (b.inOffs + 1) % 10 ≠ 0 := by
          intro hw
          simp [AesdCircularBuffer.addEntry, hw] at hc
        have hi' : b.inOffs + 1 ≤ i.val := by
          have hi₁ : (b.inOffs + 1) % 10 ≤ i.val := hi
          omega
        have hne : i ≠ ⟨b.inOffs, hin⟩ := by
          rintro rfl
          simp at hi'
        exact (Function.update_of_ne hne ..).trans (h.unused hf i (by omega))

/-- **Adding an entry is pushing it on the list of the last ten.** -/
theorem Inv.entries_addEntry {b : AesdCircularBuffer} (h : b.Inv) (e : AesdBufferEntry) :
    (b.addEntry e).1.entries = TermLog.push 10 b.entries e := by
  have hin : b.inOffs < 10 := b.in_lt
  cases hf : b.full with
  | true =>
      have hslot : (⟨b.inOffs, hin⟩ : Fin 10) = Fin.ofNat 10 b.outOffs :=
        Fin.ext (by rw [Fin.val_ofNat, ← h.full_eq hf, Nat.mod_eq_of_lt hin])
      have hfull : (b.addEntry e).1.full = true := by simp [AesdCircularBuffer.addEntry, hf]
      rw [TermLog.push_of_eq e (by decide) (by rw [length_entries, stored_of_full hf]), entries,
        stored_of_full hfull]
      simp only [AesdCircularBuffer.addEntry, hf, if_true, hslot, window_mod, entries,
        stored_of_full hf]
      exact window_slide ..
  | false =>
      have hst := h.stored_of_not_full hf
      have hslot : (⟨b.inOffs, hin⟩ : Fin 10) = Fin.ofNat 10 (b.outOffs + b.stored) :=
        Fin.ext (by rw [Fin.val_ofNat, h.out_eq hf, hst, Nat.zero_add, Nat.mod_eq_of_lt hin])
      rw [TermLog.push_of_lt e (by rw [length_entries, hst]; exact hin), entries,
        h.stored_addEntry e hf]
      simp only [AesdCircularBuffer.addEntry, hf, Bool.false_eq_true, if_false, hslot]
      exact window_push _ _ (show b.stored < 10 by omega)

/-- The pointer returned is the one of the oldest entry, if that one is overwritten. -/
theorem Inv.addEntry_snd {b : AesdCircularBuffer} (h : b.Inv) (e : AesdBufferEntry) :
    (b.full = false ∧ (b.addEntry e).2 = .null) ∨
    (b.stored = 10 ∧ ∃ o es, b.entries = o :: es ∧ (b.addEntry e).2 = o.buffptr) := by
  have hin : b.inOffs < 10 := b.in_lt
  cases hf : b.full with
  | false => exact Or.inl ⟨rfl, by simp [AesdCircularBuffer.addEntry, hf]⟩
  | true =>
      have hslot : (⟨b.inOffs, hin⟩ : Fin 10) = Fin.ofNat 10 b.outOffs :=
        Fin.ext (by rw [Fin.val_ofNat, ← h.full_eq hf, Nat.mod_eq_of_lt hin])
      refine Or.inr ⟨stored_of_full hf, b.entry (Fin.ofNat 10 b.outOffs),
        window b.entry (b.outOffs + 1) 9, ?_, ?_⟩
      · rw [entries, stored_of_full hf, window_cons]
      · simp [AesdCircularBuffer.addEntry, hf, hslot]

/-! ### Slots and entries -/

/-- Every slot holds an entry or has never been written. -/
theorem Inv.entry_mem {b : AesdCircularBuffer} (h : b.Inv) (i : Fin maxWriteOperationsSupported) :
    b.entry i ∈ b.entries ∨ b.entry i = .zero := by
  have hmem := mem_window_full b.entry b.outOffs i
  rw [h.window_eq, List.mem_append] at hmem
  exact hmem.imp_right List.eq_of_mem_replicate

/-- The slot of the `j`-th oldest entry. -/
theorem entry_ofNat (b : AesdCircularBuffer) {j : ℕ} {e : AesdBufferEntry}
    (hj : b.entries[j]? = some e) : b.entry (Fin.ofNat 10 (b.outOffs + j)) = e := by
  obtain ⟨hlt, hget⟩ := List.getElem?_eq_some_iff.1 hj
  rw [← hget]
  exact (window_getElem ..).symm

end AesdCircularBuffer

end Aesd
