/-
**The ring against its history.**

`aesd_circular_buffer_add_entry` has no bound on how often it is called: the ring wraps around every
ten additions, and the two indices and the flag only say where in the current revolution it stands.
What it holds is nevertheless a function of the whole sequence of additions, namely its last ten
elements, and the pointers that the calls return are the same sequence, delayed by ten.

* `AesdCircularBuffer.addAll` — a sequence of additions, with the pointers returned;
* `AesdCircularBuffer.History` — the ring is one that a given sequence of additions leaves behind;
* `AesdCircularBuffer.History.addEntry` — one more addition;
* `AesdCircularBuffer.addAll_history`, `AesdCircularBuffer.addAll_returned` — a whole sequence;
* `AesdCircularBuffer.last_ten` — **the ring is a queue of the last ten entries**.
-/

import Aesd.CircularBuffer

set_option relaxedAutoImplicit false
set_option autoImplicit false

namespace Aesd

open RingWindow

namespace AesdCircularBuffer

/-! ### Slots outside the window -/

/-- A slot that no step of the window shows has never been written. -/
theorem Inv.entry_outside {b : AesdCircularBuffer} (h : b.Inv) {i : Fin maxWriteOperationsSupported}
    (hi : ∀ j < b.stored, Fin.ofNat 10 (b.outOffs + j) ≠ i) : b.entry i = .zero := by
  have hout : b.outOffs < 10 := b.out_lt
  have hilt : i.val < 10 := i.isLt
  cases hf : b.full with
  | true =>
      -- the window of a full ring shows every slot
      have hj : (i.val + 10 - b.outOffs) % 10 < b.stored := by
        rw [stored_of_full hf]
        exact Nat.mod_lt _ (by decide)
      refine absurd (Fin.ext ?_) (hi _ hj)
      rw [Fin.val_ofNat]
      omega
  | false =>
      refine h.unused hf i (Nat.le_of_not_lt ?_)
      intro hlt
      refine hi i.val (by rw [h.stored_of_not_full hf]; exact hlt) (Fin.ext ?_)
      rw [Fin.val_ofNat, h.out_eq hf, Nat.zero_add, Nat.mod_eq_of_lt hilt]

/-! ### Sequences of additions -/

/-- A sequence of additions: the ring after it, and what the calls returned. -/
def addAll (b : AesdCircularBuffer) : List AesdBufferEntry → AesdCircularBuffer × List KPtr
  | [] => (b, [])
  | e :: es =>
      let (b', oldPtr) := b.addEntry e
      let (b'', oldPtrs) := addAll b' es
      (b'', oldPtr :: oldPtrs)

theorem addAll_append (b : AesdCircularBuffer) (es fs : List AesdBufferEntry) :
    b.addAll (es ++ fs) = (((b.addAll es).1.addAll fs).1,
      (b.addAll es).2 ++ ((b.addAll es).1.addAll fs).2) := by
  induction es generalizing b with
  | nil => rfl
  | cons e es ih => simp only [List.cons_append, addAll, ih]

/-- The ring satisfies its invariant and holds the last ten of the entries added. -/
structure History (b : AesdCircularBuffer) (es : List AesdBufferEntry) : Prop where
  inv : b.Inv
  entries : b.entries = es.rtake 10

theorem History.init : History init [] := ⟨Inv.init, rfl⟩

/-- **One more addition.** -/
theorem History.addEntry {b : AesdCircularBuffer} {es : List AesdBufferEntry} (h : b.History es)
    (e : AesdBufferEntry) : (b.addEntry e).1.History (es ++ [e]) where
  inv := h.inv.addEntry e
  entries := by rw [h.inv.entries_addEntry, h.entries, TermLog.push_rtake _ _ (by decide)]

theorem History.stored {b : AesdCircularBuffer} {es : List AesdBufferEntry} (h : b.History es) :
    b.stored = min es.length 10 := by
  rw [← length_entries, h.entries, List.rtake, List.length_drop]
  omega

/-- The flag says that ten entries have been added. -/
theorem History.full_iff {b : AesdCircularBuffer} {es : List AesdBufferEntry} (h : b.History es) :
    b.full = true ↔ 10 ≤ es.length := by
  have hstored := h.stored
  constructor
  · intro hf
    rw [stored_of_full hf] at hstored
    omega
  · intro hle
    by_contra hf
    have hin : b.inOffs < 10 := b.in_lt
    rw [h.inv.stored_of_not_full (by simpa using hf)] at hstored
    omega

/-- The next addition returns the pointer of the entry ten places back. -/
theorem History.returned {b : AesdCircularBuffer} {es : List AesdBufferEntry} (h : b.History es)
    (e : AesdBufferEntry) :
    (List.replicate 10 KPtr.null ++ (es ++ [e]).map AesdBufferEntry.buffptr)[es.length]?
      = some (b.addEntry e).2 := by
  rcases h.inv.addEntry_snd e with ⟨hf, hnull⟩ | ⟨hst, o, es', hoes, hptr⟩
  · have hlt : es.length < 10 := by
      by_contra hge
      rw [h.full_iff.2 (Nat.le_of_not_lt hge)] at hf
      cases hf
    rw [hnull, List.getElem?_append_left (by simpa using hlt), List.getElem?_replicate,
      if_pos hlt]
  · have hle : 10 ≤ es.length := by
      have := h.stored
      omega
    -- the oldest of the last ten is the entry ten places back
    have ho : es[es.length - 10]? = some o := by
      rw [h.entries, List.rtake] at hoes
      rw [← List.head?_drop, hoes, List.head?_cons]
    rw [hptr, List.getElem?_append_right (by simpa using hle), List.getElem?_map,
      List.length_replicate, List.getElem?_append_left (by omega), ho]
    rfl

/-- **A whole sequence of additions.** -/
theorem addAll_history (es : List AesdBufferEntry) : (init.addAll es).1.History es := by
  induction es using List.reverseRecOn with
  | nil => exact History.init
  | append_singleton es e ih =>
      rw [addAll_append]
      exact ih.addEntry e

/-- **The pointers returned** are `NULL` ten times, and then those of the entries added, in
order. -/
theorem addAll_returned (es : List AesdBufferEntry) :
    (init.addAll es).2
      = (List.replicate 10 KPtr.null ++ es.map AesdBufferEntry.buffptr).take es.length := by
  induction es using List.reverseRecOn with
  | nil => rfl
  | append_singleton es e ih =>
      have hlen : (es ++ [e]).length = es.length + 1 := by simp
      have hprefix : (List.replicate 10 KPtr.null ++ (es ++ [e]).map AesdBufferEntry.buffptr).take
          es.length = (init.addAll es).2 := by
        rw [ih, List.map_append, ← List.append_assoc]
        exact List.take_append_of_le_length (by simp; omega)
      rw [addAll_append, hlen, List.take_add_one, hprefix, (addAll_history es).returned e]
      rfl

/-- **The ring is a queue of the last ten entries added.**  After any sequence of additions to the
ring that `aesd_circular_buffer_init` leaves, both indices are those of slots, the flag says that
there were at least ten, the window shows the last ten in order, the other slots are untouched, and
the calls have returned the pointers of exactly the entries that left. -/
theorem last_ten (es : List AesdBufferEntry) :
    (init.addAll es).1.inOffs < 10 ∧ (init.addAll es).1.outOffs < 10 ∧
    ((init.addAll es).1.full = true ↔ 10 ≤ es.length) ∧
    window (init.addAll es).1.entry (init.addAll es).1.outOffs
        (if (init.addAll es).1.full then (10 : ℤ)
          else (init.addAll es).1.inOffs - (init.addAll es).1.outOffs).toNat
      = es.drop (es.length - 10) ∧
    (∀ i, (∀ j < min es.length 10, Fin.ofNat 10 ((init.addAll es).1.outOffs + j) ≠ i) →
      (init.addAll es).1.entry i = .zero) ∧
    (init.addAll es).2
      = (List.replicate 10 KPtr.null ++ es.map AesdBufferEntry.buffptr).take es.length := by
  have h := addAll_history es
  refine ⟨(init.addAll es).1.in_lt, (init.addAll es).1.out_lt, h.full_iff, h.entries,
    fun i hi => h.inv.entry_outside ?_, addAll_returned es⟩
  rwa [h.stored]

/-- The eleventh addition returns the pointer of the first entry. -/
example : (init.addAll ((List.range 11).map fun a => ⟨.block a, a⟩)).2[10]? = some (.block 0) := by
  decide

end AesdCircularBuffer

end Aesd
