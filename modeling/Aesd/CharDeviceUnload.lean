/-
**Who owns the blocks, and what unloading the module gives back.**

A block passes from `krealloc` to the pending command, from there to a slot of the ring, and from
the slot to `kfree`; `aesd_cleanup_module` frees what the slots hold at the end.  Each hand-over is
one assignment in one of three functions, and whether it leaves a second pointer behind — or none —
is seen by no return value.

The pointers the driver keeps are never dangling and never equal, in any state that calls reach, so
that nothing is freed twice.  The other half is not true: a refused `krealloc` overwrites the only
pointer to the pending block, and unloading frees the slots but not the pending block.

* `aesdCleanupModule` — unloading the module;
* `Kernel.Inv.slot_unique` — the pointers of the slots are live and different;
* `Kernel.Inv.writeLocked_heap` — everything a write does to the blocks;
* `Kernel.Inv.aesdCleanupModule_eq` — what unloading gives back;
* `reachable_no_dangling` — **no pointer dangles, nothing is freed twice**;
* `no_leak` — **in which runs every block is owned, and given back at the end**;
* `unload_leaks_pending` — a run in which one is not.
-/

import Aesd.CharDeviceBounds

set_option relaxedAutoImplicit false
set_option autoImplicit false

namespace Aesd

/-! ### Unloading -/

/-- The loop of `aesd_cleanup_module`, `AESD_CIRCULAR_BUFFER_FOREACH` with `n` slots to go: a
pointer that is not `NULL` is freed and set to `NULL`. -/
def cleanupLoop : ℕ → ℕ → Kernel → Except Fault Kernel
  | 0, _, k => .ok k
  | n + 1, index, k =>
      let i := Fin.ofNat maxWriteOperationsSupported index
      let entry := k.dev.circularBuf.entry i
      if entry.buffptr ≠ .null then
        match kfree k.heap entry.buffptr with
        | .error f => .error f
        | .ok heap =>
            cleanupLoop n (index + 1) ⟨heap, { k.dev with
              circularBuf := { k.dev.circularBuf with
                entry := Function.update k.dev.circularBuf.entry i
                  { entry with buffptr := .null } } }⟩
      else cleanupLoop n (index + 1) k

/-- `aesd_cleanup_module`, without the character device itself. -/
def aesdCleanupModule (k : Kernel) : Except Fault Kernel :=
  cleanupLoop maxWriteOperationsSupported 0 k

/-! ### The pointers of the slots -/

/-- A slot whose pointer is not `NULL` holds an entry. -/
theorem AesdCircularBuffer.Inv.exists_entry {b : AesdCircularBuffer} (h : b.Inv)
    {i : Fin maxWriteOperationsSupported} (hi : (b.entry i).buffptr ≠ .null) :
    ∃ j, b.entries[j]? = some (b.entry i) ∧ Fin.ofNat 10 (b.outOffs + j) = i := by
  obtain ⟨j, hj, hslot⟩ : ∃ j < b.stored, Fin.ofNat 10 (b.outOffs + j) = i := by
    by_contra hno
    refine hi ?_
    rw [h.entry_outside fun j hj hslot => hno ⟨j, hj, hslot⟩]
    rfl
  refine ⟨j, ?_, hslot⟩
  rw [List.getElem?_eq_getElem (by rw [AesdCircularBuffer.length_entries]; exact hj), ← hslot]
  exact congrArg some (RingWindow.window_getElem ..)

/-- The block of a slot whose pointer is not `NULL` is live. -/
theorem Kernel.Inv.slot_live {M : ℕ} {k : Kernel} (h : k.Inv M)
    {i : Fin maxWriteOperationsSupported} (hi : (k.dev.circularBuf.entry i).buffptr ≠ .null) :
    ∃ a bs, (k.dev.circularBuf.entry i).buffptr = .block a ∧ k.heap.block a = some bs := by
  obtain ⟨j, hj, -⟩ := h.ring.exists_entry hi
  exact (h.commands _ (List.mem_of_getElem? hj)).live

/-- **Different slots do not share a block**, and none shares one with the pending command. -/
theorem Kernel.Inv.slot_unique {M : ℕ} {k : Kernel} (h : k.Inv M)
    {i : Fin maxWriteOperationsSupported} (hi : (k.dev.circularBuf.entry i).buffptr ≠ .null) :
    (∀ i', (k.dev.circularBuf.entry i').buffptr = (k.dev.circularBuf.entry i).buffptr → i' = i) ∧
      k.dev.bufEntry.buffptr ≠ (k.dev.circularBuf.entry i).buffptr := by
  obtain ⟨j, hj, hslot⟩ := h.ring.exists_entry hi
  refine ⟨?_, fun heq => h.apart ?_⟩
  · intro i' heq
    obtain ⟨j', hj', hslot'⟩ := h.ring.exists_entry (heq ▸ hi)
    have hget : (k.dev.circularBuf.entries.map AesdBufferEntry.buffptr)[j']?
        = (k.dev.circularBuf.entries.map AesdBufferEntry.buffptr)[j]? := by
      rw [List.getElem?_map, List.getElem?_map, hj, hj', Option.map_some, Option.map_some, heq]
    have hlt : j' < (k.dev.circularBuf.entries.map AesdBufferEntry.buffptr).length := by
      rw [List.length_map]
      exact (List.getElem?_eq_some_iff.1 hj').1
    obtain rfl := (List.getElem?_inj hlt h.distinct).1 hget
    rw [← hslot, ← hslot']
  · rw [heq]
    exact List.mem_map.2 ⟨_, List.mem_of_getElem? hj, rfl⟩

/-- A block that is not live is not referenced. -/
theorem Kernel.Inv.unreferenced {M : ℕ} {k : Kernel} (h : k.Inv M) {a : ℕ}
    (ha : k.heap.block a = none) :
    (∀ i, (k.dev.circularBuf.entry i).buffptr ≠ .block a) ∧ k.dev.bufEntry.buffptr ≠ .block a := by
  refine ⟨?_, ?_⟩
  · intro i hi
    obtain ⟨b, bs, hb, hlive⟩ := h.slot_live (i := i) (by rw [hi]; rintro ⟨⟩)
    obtain rfl := KPtr.block.inj (hi.symm.trans hb)
    rw [ha] at hlive
    cases hlive
  · intro hpend
    have hvalid := h.valid
    rw [hpend] at hvalid
    simp [Heap.Valid, ha] at hvalid

/-! ### What a write does to the blocks -/

/-- **What a call frees**: nothing, and then no command leaves the ring; or the block of the oldest
command, which leaves the ring, and to which no pointer is left.  Apart from that, only the block of
the pending command is given back, in exchange for another one. -/
structure Kernel.Frees (k k' : Kernel) (freed : KPtr) : Prop where
  oldest : (freed = .null ∧ ∀ e ∈ k.dev.circularBuf.entries, e ∈ k'.dev.circularBuf.entries) ∨
    ∃ o es e, k.dev.circularBuf.entries = o :: es ∧ k'.dev.circularBuf.entries = es ++ [e] ∧
      freed = o.buffptr
  gone : freed ≠ .null → ∃ a bs, freed = .block a ∧ k.heap.block a = some bs ∧
    k'.heap.block a = none ∧ (∀ i, (k'.dev.circularBuf.entry i).buffptr ≠ freed) ∧
    k'.dev.bufEntry.buffptr ≠ freed
  only : ∀ a, (k.heap.block a).isSome → k'.heap.block a = none →
    .block a = freed ∨ .block a = k.dev.bufEntry.buffptr

/-- A call that leaves the ring alone frees nothing. -/
theorem Kernel.Frees.of_ring {k k' : Kernel} (hring : k'.dev.circularBuf = k.dev.circularBuf)
    (honly : ∀ a, (k.heap.block a).isSome → k'.heap.block a = none →
      .block a = k.dev.bufEntry.buffptr) : k.Frees k' .null where
  oldest := Or.inl ⟨rfl, fun e he => by rw [hring]; exact he⟩
  gone hne := absurd rfl hne
  only a ha ha' := Or.inr (honly a ha ha')

/-- The only block that giving back a pointer makes disappear is its own. -/
theorem Heap.block_release_eq_none {h : Heap} {p : KPtr} {b : ℕ} (hb : (h.block b).isSome)
    (hb' : (h.release p).block b = none) : .block b = p := by
  by_contra hne
  rw [Heap.release_block_of_ne h fun hp => hne hp.symm] at hb'
  rw [hb'] at hb
  cases hb

/-- The blocks that a reallocation makes disappear. -/
theorem Kernel.block_realloc_eq_none {k : Kernel} {a b size : ℕ} {bs : List UInt8}
    (hb : (k.heap.block b).isSome) (hb' : (k.realloc a bs size).heap.block b = none) :
    .block b = k.dev.bufEntry.buffptr := by
  have hne : b ≠ a := by
    rintro rfl
    rw [Kernel.realloc, Heap.store_block_self] at hb'
    cases hb'
  rw [Kernel.realloc, Heap.store_block_of_ne _ _ hne] at hb'
  exact Heap.block_release_eq_none hb hb'

/-- Giving back the pending block keeps every block owned. -/
theorem Kernel.Owned.release {k : Kernel} (h : k.Owned) (p : KPtr) (size : ℕ) :
    Kernel.Owned ⟨k.heap.release k.dev.bufEntry.buffptr, { k.dev with bufEntry := ⟨p, size⟩ }⟩ := by
  intro b hb
  obtain ⟨cs, hcs⟩ := Option.isSome_iff_exists.1 hb
  obtain ⟨hlive, hptr⟩ := Heap.release_block_eq_some hcs
  rcases h b (by rw [hlive]; rfl) with hpend | hring
  · exact absurd hpend hptr
  · exact Or.inr hring

/-- What the second half of a write does: nothing, or it hands the pending entry over and frees what
the ring evicts. -/
theorem commitEntry_cases {k k' : Kernel} (h : commitEntry k = .ok k') :
    k' = k ∨ (k'.dev.circularBuf = (k.dev.circularBuf.addEntry k.dev.bufEntry).1 ∧
      k'.heap = k.heap.release (k.dev.circularBuf.addEntry k.dev.bufEntry).2) := by
  rw [commitEntry] at h
  split at h
  · cases h
  · split at h
    · refine Or.inr ?_
      dsimp only at h
      split at h
      · rw [kfree] at h
        split at h
        · cases h
        · next heap hfree =>
            split at hfree
            · obtain rfl := Except.ok.inj hfree
              obtain rfl := Except.ok.inj h
              exact ⟨rfl, rfl⟩
            · cases hfree
      · next hnull =>
          obtain rfl := Except.ok.inj h
          exact ⟨rfl, by rw [not_not.1 hnull]; rfl⟩
    · exact Or.inl (Except.ok.inj h).symm

/-- What is freed when the command in the reallocated block is handed over. -/
theorem Kernel.Inv.commitEntry_frees {M : ℕ} {k k' : Kernel} (h : k.Inv M) {a size : ℕ}
    {bs : List UInt8} (h' : k'.Inv M)
    (hcommit : Aesd.commitEntry (k.realloc a bs size) = .ok k') :
    ∃ freed, k.Frees k' freed := by
  have hrealloc : ∀ b, (k.heap.block b).isSome → (k.realloc a bs size).heap.block b = none →
      .block b = k.dev.bufEntry.buffptr := fun b => Kernel.block_realloc_eq_none
  rcases commitEntry_cases hcommit with rfl | ⟨hring, hheap⟩
  · exact ⟨.null, Kernel.Frees.of_ring rfl hrealloc⟩
  · set e := (k.realloc a bs size).dev.bufEntry
    have hentries : k'.dev.circularBuf.entries
        = TermLog.push 10 k.dev.circularBuf.entries e := by
      rw [hring]
      exact h.ring.entries_addEntry e
    rcases h.ring.addEntry_snd e with ⟨hfull, hnull⟩ | ⟨hst, o, es, hoes, hptr⟩
    · -- a free slot
      have hlt : k.dev.circularBuf.entries.length < 10 := by
        rw [AesdCircularBuffer.length_entries, h.ring.stored_of_not_full hfull]
        exact k.dev.circularBuf.in_lt
      refine ⟨.null, Or.inl ⟨rfl, ?_⟩, fun hne => absurd rfl hne, ?_⟩
      · intro d hd
        rw [hentries, TermLog.push_of_lt e hlt]
        exact List.mem_append_left _ hd
      · intro b hb hb'
        rw [hheap, show (k.realloc a bs size).dev.circularBuf = k.dev.circularBuf from rfl,
          hnull] at hb'
        exact Or.inr (hrealloc b hb hb')
    · -- the oldest command is evicted
      have hpush : k'.dev.circularBuf.entries = es ++ [e] := by
        rw [hentries, TermLog.push_of_eq e (by decide)
          (by rw [AesdCircularBuffer.length_entries, hst]), hoes]
        rfl
      rw [show (k.realloc a bs size).dev.circularBuf = k.dev.circularBuf from rfl, hptr] at hheap
      obtain ⟨b, cs, hb, hlive⟩ := (h.commands o (by rw [hoes]; simp)).live
      have hdead : k'.heap.block b = none := by rw [hheap, hb, Heap.release_block_self]
      have hunref := h'.unreferenced hdead
      refine ⟨o.buffptr, Or.inr ⟨o, es, e, hoes, hpush, rfl⟩, ?_, ?_⟩
      · intro _
        rw [hb]
        exact ⟨b, cs, rfl, hlive, hdead, hunref⟩
      · intro c hc hc'
        by_cases hco : KPtr.block c = o.buffptr
        · exact Or.inl hco
        · rw [hheap, Heap.release_block_of_ne _ fun hoc => hco hoc.symm] at hc'
          exact Or.inr (hrealloc c hc hc')

/-- **Everything a write does to the blocks**: it is refused, and the pending pointer is gone; or
every block stays owned. -/
theorem Kernel.Inv.writeLocked_heap {M : ℕ} {env : WriteEnv} {k k' : Kernel} {data : List UInt8}
    {r : ℤ} (h : k.Inv M) (hw : writeLocked M env k data = .ok (k', r)) :
    (∃ freed, k.Frees k' freed) ∧
    ((¬ k.WriteGranted M env data ∧
        k' = ⟨k.heap, { k.dev with bufEntry := ⟨.null, k.dev.bufEntry.size⟩ }⟩) ∨
      (k.WriteGranted M env data ∧ (k.Owned → k'.Owned))) := by
  have hinv' := (h.writeLocked_cases hw).1
  rw [writeLocked] at hw
  cases hgrow : growEntry M env k data with
  | error f => simp [hgrow] at hw
  | ok p =>
      obtain ⟨k₁, o⟩ := p
      simp only [hgrow] at hw
      rcases growEntry_cases h.valid h.size_lt hgrow with
        ⟨rfl, hg, rfl⟩ | ⟨hg, hn, rfl, ⟨rfl, hu⟩ | ⟨rfl, hsize⟩⟩ |
        ⟨a, bs, haddr, hg, hpos, hM, hfree, hlen, htake, ⟨rfl, hu, rfl⟩ |
          ⟨rfl, hu, hsum, happ, rfl⟩⟩
      · -- the allocator refuses: every block stays where it is
        cases hw
        refine ⟨⟨.null, Kernel.Frees.of_ring rfl ?_⟩, Or.inl ⟨hg, rfl⟩⟩
        intro b hb hb'
        rw [show k.heap.block b = none from hb'] at hb
        cases hb
      · -- a request for no byte, of more than that
        cases hw
        exact ⟨⟨.null, Kernel.Frees.of_ring rfl fun b => Heap.block_release_eq_none⟩,
          Or.inr ⟨hg, fun ho => ho.release _ _⟩⟩
      · -- nothing asked for and nothing there: the byte before the first is read
        simp [Aesd.commitEntry, Heap.load] at hw
      · -- the copy fails
        cases hw
        exact ⟨⟨.null, Kernel.Frees.of_ring rfl fun b => Kernel.block_realloc_eq_none⟩,
          Or.inr ⟨hg, fun ho => ho.realloc a bs _⟩⟩
      · -- the bytes arrive
        have hlt : k.newEntrySize data < 2 ^ 64 := sizeT_lt _
        obtain ⟨k₂, hcommit, -, -, howned, -⟩ :=
          (h.realloc bs hfree hM hlt).1.commitEntry (k.realloc_exact a hlen).1 hpos
        simp only [hcommit] at hw
        cases hw
        exact ⟨h.commitEntry_frees hinv' hcommit,
          Or.inr ⟨hg, fun ho => howned (ho.realloc a bs _)⟩⟩

/-! ### What a call never does -/

theorem Heap.write_error {h : Heap} {p : KPtr} {off : ℕ} {bs : List UInt8} {f : Fault}
    (hw : h.write p off bs = .error f) : f = .badAccess := by
  rw [Heap.write.eq_def] at hw
  split at hw
  · cases hw
  · split at hw
    · split at hw
      · split at hw
        · cases hw
        · exact (Except.error.inj hw).symm
      · exact (Except.error.inj hw).symm
    · exact (Except.error.inj hw).symm

theorem copyFromUser_error {left : ℕ} {h : Heap} {p : KPtr} {off : ℕ} {src : List UInt8} {f : Fault}
    (hc : copyFromUser left h p off src = .error f) : f = .badAccess := by
  simp only [copyFromUser] at hc
  split at hc
  · cases hc
  · split at hc
    · next hw =>
        obtain rfl := Except.error.inj hc
        exact Heap.write_error hw
    · cases hc

/-- The first half of a write reallocates a pointer that may be given back. -/
theorem growEntry_error {M : ℕ} {env : WriteEnv} {k : Kernel} {data : List UInt8} {f : Fault}
    (hp : k.heap.Valid k.dev.bufEntry.buffptr) (h : growEntry M env k data = .error f) :
    f = .badAccess := by
  have hnew : sizeT ((k.dev.bufEntry.size : ℤ) + data.length) = k.newEntrySize data := rfl
  simp only [growEntry, hnew] at h
  rcases krealloc_cases M env.alloc (k.newEntrySize data) hp with
    ⟨-, -, hk⟩ | ⟨-, hk⟩ | ⟨a, -, -, -, -, hk⟩
  · simp [hk] at h
  · simp only [hk] at h
    split at h
    · next hc =>
        obtain rfl := Except.error.inj h
        exact copyFromUser_error hc
    · split at h <;> cases h
  · simp only [hk] at h
    split at h
    · next hc =>
        obtain rfl := Except.error.inj h
        exact copyFromUser_error hc
    · split at h <;> cases h

/-- The second half frees the block of a command. -/
theorem Kernel.Inv.commitEntry_error {M : ℕ} {k : Kernel} (h : k.Inv M) {f : Fault}
    (hc : Aesd.commitEntry k = .error f) : f = .badAccess := by
  rw [Aesd.commitEntry] at hc
  split at hc
  · next hload =>
      obtain rfl := Except.error.inj hc
      rw [Heap.load] at hload
      split at hload
      · cases hload
      · exact (Except.error.inj hload).symm
  · split at hc
    · dsimp only at hc
      split at hc
      · next hne =>
          rcases h.ring.addEntry_snd k.dev.bufEntry with ⟨-, hnull⟩ | ⟨-, o, es, hoes, hptr⟩
          · exact absurd hnull hne
          · obtain ⟨b, cs, hb, hlive⟩ := (h.commands o (by rw [hoes]; simp)).live
            rw [hptr, hb, kfree_ok (by simp [Heap.Valid, hlive])] at hc
            cases hc
      · cases hc
    · cases hc

theorem Kernel.Inv.writeLocked_error {M : ℕ} {env : WriteEnv} {k : Kernel} {data : List UInt8}
    {f : Fault} (h : k.Inv M) (hw : writeLocked M env k data = .error f) : f = .badAccess := by
  rw [writeLocked] at hw
  cases hgrow : growEntry M env k data with
  | error f' =>
      simp only [hgrow] at hw
      obtain rfl := Except.error.inj hw
      exact growEntry_error h.valid hgrow
  | ok p =>
      obtain ⟨k₁, o⟩ := p
      simp only [hgrow] at hw
      cases o with
      | some err => cases hw
      | none =>
          have h₁ : k₁.Inv M := by
            rcases growEntry_cases h.valid h.size_lt hgrow with
              ⟨ho, -⟩ | ⟨-, -, rfl, -⟩ |
                ⟨a, bs, -, -, -, hM, hfree, -, -, ⟨ho, -⟩ | ⟨-, -, -, -, rfl⟩⟩
            · cases ho
            · exact (h.dropEntry (Or.inr rfl) (Or.inr rfl) rfl).1
            · cases ho
            · exact (h.realloc bs hfree hM (sizeT_lt _)).1
          cases hcommit : Aesd.commitEntry k₁ with
          | error f' =>
              simp only [hcommit] at hw
              obtain rfl := Except.error.inj hw
              exact h₁.commitEntry_error hcommit
          | ok k₂ => simp [hcommit] at hw

theorem copyToUser_error {left : ℕ} {h : Heap} {p : KPtr} {off n : ℕ} {f : Fault}
    (hc : copyToUser left h p off n = .error f) : f = .badAccess := by
  simp only [copyToUser] at hc
  split at hc
  · cases hc
  · split at hc
    · next hread =>
        obtain rfl := Except.error.inj hc
        rw [Heap.read] at hread
        split at hread
        · cases hread
        · split at hread
          · cases hread
          · exact (Except.error.inj hread).symm
    · cases hc

theorem readLocked_error {left : ℕ} {k : Kernel} {count : ℕ} {fPos : ℤ} {f : Fault}
    (h : readLocked left k count fPos = .error f) : f = .badAccess := by
  rw [readLocked_range] at h
  split at h
  · cases h
  · dsimp only at h
    split at h
    · next hcopy =>
        obtain rfl := Except.error.inj h
        exact copyToUser_error hcopy
    · split at h <;> cases h

theorem llseekLoop_error {n fuel : ℕ} {size : ℤ} {f : Fault}
    (h : llseekLoop n fuel size = .error f) : f = .stuck := by
  induction fuel generalizing size with
  | zero =>
      rw [llseekLoop] at h
      split at h
      · exact (Except.error.inj h).symm
      · cases h
  | succ fuel ih =>
      rw [llseekLoop] at h
      split at h
      · exact ih h
      · cases h

/-- **No call frees or reallocates a pointer that is not live.** -/
theorem Kernel.Inv.call_no_badFree {M : ℕ} {s : Sys} (h : s.kern.Inv M) (c : Call) :
    s.call M c ≠ .error .badFree := by
  intro hc
  cases c with
  | openFile f => cases hc
  | releaseFile f => cases hc
  | read f buf count env =>
      simp only [Sys.call] at hc
      split at hc
      · next hr =>
          obtain rfl := Except.error.inj hc
          rw [aesdRead.eq_def] at hr
          split at hr
          · split at hr
            · cases hr
            · split at hr
              · cases hr
              · cases readLocked_error hr
          · cases hr
      · cases f <;> cases hc
  | write f buf env =>
      simp only [Sys.call] at hc
      split at hc
      · next hw =>
          obtain rfl := Except.error.inj hc
          rw [aesdWrite.eq_def] at hw
          split at hw
          · split at hw
            · cases hw
            · split at hw
              · cases hw
              · cases h.writeLocked_error hw
          · cases hw
      · cases hc
  | llseek f off whence =>
      simp only [Sys.call] at hc
      split at hc
      · next hl =>
          obtain rfl := Except.error.inj hc
          simp only [aesdLlseek] at hl
          split at hl
          · cases hl
          · split at hl
            · next hloop =>
                obtain rfl := Except.error.inj hl
                cases llseekLoop_error hloop
            · cases hl
      · cases hc
  | ioctl f cmd env =>
      obtain ⟨filp, r, hi⟩ := h.aesdIoctl_returns env (s.file f) cmd
      simp only [Sys.call, hi] at hc
      cases hc

/-! ### What unloading gives back -/

/-- Some slot of the ring holds the block. -/
def Kernel.InSlot (k : Kernel) (a : ℕ) : Prop :=
  ∃ i, (k.dev.circularBuf.entry i).buffptr = .block a

/-- **The loop of `aesd_cleanup_module`**: from slot `index` on every block is freed, and no other
one. -/
theorem cleanupLoop_eq (n index : ℕ) (hn : index + n = 10) (k : Kernel)
    (hlive : ∀ i, index ≤ i.val → (k.dev.circularBuf.entry i).buffptr ≠ .null →
      ∃ a bs, (k.dev.circularBuf.entry i).buffptr = .block a ∧ k.heap.block a = some bs)
    (hdist : ∀ i i', (k.dev.circularBuf.entry i).buffptr ≠ .null →
      (k.dev.circularBuf.entry i').buffptr = (k.dev.circularBuf.entry i).buffptr → i' = i) :
    ∃ k', cleanupLoop n index k = .ok k' ∧ k'.dev.bufEntry = k.dev.bufEntry ∧
      (∀ i a, index ≤ i.val → (k.dev.circularBuf.entry i).buffptr = .block a →
        k'.heap.block a = none) ∧
      (∀ a, (∀ i, index ≤ i.val → (k.dev.circularBuf.entry i).buffptr ≠ .block a) →
        k'.heap.block a = k.heap.block a) := by
  induction n generalizing index k with
  | zero =>
      have hlt : ∀ i : Fin maxWriteOperationsSupported, ¬ index ≤ i.val := by
        intro i
        have : i.val < 10 := i.isLt
        omega
      exact ⟨k, rfl, rfl, fun i _ hi => absurd hi (hlt i), fun _ _ => rfl⟩
  | succ n ih =>
      set i₀ : Fin maxWriteOperationsSupported :=
        Fin.ofNat maxWriteOperationsSupported index with hi₀
      have hval : i₀.val = index := by
        rw [hi₀, Fin.val_ofNat]
        exact Nat.mod_eq_of_lt (show index < 10 by omega)
      -- the slots from `index` on are this one and those behind it
      have hsplit : ∀ i : Fin maxWriteOperationsSupported, index ≤ i.val →
          i = i₀ ∨ (index + 1 ≤ i.val ∧ i ≠ i₀) := by
        intro i hi
        by_cases heq : i = i₀
        · exact Or.inl heq
        · refine Or.inr ⟨?_, heq⟩
          have hne : i.val ≠ i₀.val := fun hv => heq (Fin.ext hv)
          omega
      rw [cleanupLoop, ← hi₀]
      by_cases hnull : (k.dev.circularBuf.entry i₀).buffptr = .null
      · -- nothing to free in this slot
        obtain ⟨k', hk', hpend, hdead, hkeep⟩ := ih (index + 1) (by omega) k
          (fun i hi => hlive i (by omega)) hdist
        simp only [hnull, ne_eq, not_true_eq_false, if_false]
        refine ⟨k', hk', hpend, ?_, fun a ha => hkeep a fun i hi =>
          ha i (by omega)⟩
        intro i a hi ha
        rcases hsplit i hi with rfl | ⟨hi', -⟩
        · rw [hnull] at ha
          cases ha
        · exact hdead i a hi' ha
      · -- the block of this slot is freed, and no slot behind it has the same
        obtain ⟨a, bs, ha, hblock⟩ := hlive i₀ hval.ge hnull
        set k₁ : Kernel := ⟨k.heap.release (.block a), { k.dev with
          circularBuf := { k.dev.circularBuf with
            entry := Function.update k.dev.circularBuf.entry i₀
              { k.dev.circularBuf.entry i₀ with buffptr := .null } } }⟩ with hk₁
        have hcleared : (k₁.dev.circularBuf.entry i₀).buffptr = .null := by
          rw [hk₁]
          simp
        have hother : ∀ i, i ≠ i₀ → k₁.dev.circularBuf.entry i = k.dev.circularBuf.entry i :=
          fun i hi => Function.update_of_ne hi ..
        have hapart : ∀ i, i ≠ i₀ → (k.dev.circularBuf.entry i).buffptr ≠ .block a :=
          fun i hi heq => hi (hdist i₀ i hnull (heq.trans ha.symm))
        obtain ⟨k', hk', hpend, hdead, hkeep⟩ := ih (index + 1) (by omega) k₁
          (fun i hi hne => by
            have hi₁ : i ≠ i₀ := by rintro rfl; omega
            rw [hother i hi₁] at hne ⊢
            obtain ⟨b, cs, hb, hlive'⟩ := hlive i (by omega) hne
            refine ⟨b, cs, hb, ?_⟩
            rw [show k₁.heap = k.heap.release (.block a) from rfl, Heap.release_block_of_ne, hlive']
            rw [← hb]
            exact (hapart i hi₁).symm)
          (fun i i' hne heq => by
            have hi₁ : i ≠ i₀ := by rintro rfl; exact hne hcleared
            have hi₂ : i' ≠ i₀ := by
              rintro rfl
              exact hne (heq.symm.trans hcleared)
            rw [hother i hi₁] at hne heq
            rw [hother i' hi₂] at heq
            exact hdist i i' hne heq)
        have hfree : kfree k.heap (k.dev.circularBuf.entry i₀).buffptr
            = .ok (k.heap.release (.block a)) := by
          rw [ha]
          exact kfree_ok (by simp [Heap.Valid, hblock])
        simp only [ne_eq, hnull, not_false_eq_true, if_true, hfree]
        refine ⟨k', hk', hpend, ?_, ?_⟩
        · intro i b hi hb
          rcases hsplit i hi with rfl | ⟨hi', hne⟩
          · obtain rfl := KPtr.block.inj (ha.symm.trans hb)
            rw [hkeep a fun i hi => ?_]
            · exact Heap.release_block_self ..
            · have hi₁ : i ≠ i₀ := by rintro rfl; omega
              rw [hother i hi₁]
              exact hapart i hi₁
          · exact hdead i b hi' (by rw [hother i hne]; exact hb)
        · intro b hb
          have hab : KPtr.block a ≠ .block b := fun hab => hb i₀ hval.ge (ha.trans hab)
          rw [hkeep b fun i hi => ?_]
          · exact Heap.release_block_of_ne _ hab
          · have hi₁ : i ≠ i₀ := by rintro rfl; omega
            rw [hother i hi₁]
            exact hb i (by omega)

/-- **Unloading gives back the blocks of the slots**, each of them once, and leaves the others. -/
theorem Kernel.Inv.aesdCleanupModule_eq {M : ℕ} {k : Kernel} (h : k.Inv M) :
    ∃ k', aesdCleanupModule k = .ok k' ∧ (∀ a, k.InSlot a → k'.heap.block a = none) ∧
      ∀ a, ¬ k.InSlot a → k'.heap.block a = k.heap.block a := by
  obtain ⟨k', hk', -, hdead, hkeep⟩ := cleanupLoop_eq 10 0 rfl k (fun i _ hi => h.slot_live hi)
    (fun i i' hi heq => (h.slot_unique hi).1 i' heq)
  refine ⟨k', hk', fun a ⟨i, hi⟩ => hdead i a (Nat.zero_le _) hi, fun a ha => hkeep a fun i _ hi =>
    ha ⟨i, hi⟩⟩

/-! ### Runs -/

/-- **No pointer dangles and nothing is freed twice**, in any reachable state.  The pointers of the
slots and of the pending command, where they are not `NULL`, are live and different; no call frees
or reallocates a pointer that is not live; what a write frees is the block of the oldest command,
which leaves the ring, and nothing refers to it any more; and unloading frees the block of every
slot once. -/
theorem reachable_no_dangling {M : ℕ} {s : Sys} (hs : Reachable M s) :
    (s.kern.heap.Valid s.kern.dev.bufEntry.buffptr ∧
      ∀ i, (s.kern.dev.circularBuf.entry i).buffptr ≠ .null →
        (∃ a bs, (s.kern.dev.circularBuf.entry i).buffptr = .block a ∧
          s.kern.heap.block a = some bs) ∧
        (∀ i', (s.kern.dev.circularBuf.entry i').buffptr
            = (s.kern.dev.circularBuf.entry i).buffptr → i' = i) ∧
        s.kern.dev.bufEntry.buffptr ≠ (s.kern.dev.circularBuf.entry i).buffptr) ∧
    (∀ c, s.call M c ≠ .error .badFree) ∧
    (∀ c s' r, s.call M c = .ok (s', r) → ∃ freed, s.kern.Frees s'.kern freed) ∧
    (∃ k', aesdCleanupModule s.kern = .ok k' ∧ (∀ a, s.kern.InSlot a → k'.heap.block a = none) ∧
      ∀ a, ¬ s.kern.InSlot a → k'.heap.block a = s.kern.heap.block a) := by
  have h := hs.inv
  refine ⟨⟨h.valid, fun i hi => ⟨h.slot_live hi, h.slot_unique hi⟩⟩, h.call_no_badFree,
    ?_, h.aesdCleanupModule_eq⟩
  intro c s' r hc
  rcases Sys.call_kern hc with ⟨heq, -⟩ | ⟨f, data, env, -, -, -, -, -, hw⟩
  · refine ⟨.null, Kernel.Frees.of_ring (by rw [heq]) ?_⟩
    intro a ha ha'
    rw [heq] at ha'
    rw [ha'] at ha
    cases ha
  · exact (h.writeLocked_heap hw).1

/-- One line is stored, and the module unloaded. -/
theorem reachable_no_dangling_one_line :
    ∃ s k', Reachable 64 s ∧ s.kern.commands = [[97, 10]] ∧ aesdCleanupModule s.kern = .ok k' ∧
      ∀ a, s.kern.InSlot a → k'.heap.block a = none := by
  have hcmds : ((charDev 64).run Sys.init
      [.openFile 0, .write (some 0) (some [97, 10]) ⟨false, ⟨some 0, fun _ => 7⟩, 0⟩]).map
        (fun p => p.1.kern.commands) = some [[97, 10]] := by decide
  obtain ⟨⟨s, rs⟩, hrun, hcmds⟩ := Option.map_eq_some_iff.1 hcmds
  have hs := reachable_of_run hrun
  obtain ⟨-, -, -, k', hk', hdead, -⟩ := reachable_no_dangling hs
  exact ⟨s, k', hs, hcmds, hk', hdead⟩

/-! ### Leaks -/

/-- The pointer is one to a block. -/
def KPtr.isBlock : KPtr → Bool
  | .block _ => true
  | _ => false

theorem KPtr.isBlock_iff {p : KPtr} : p.isBlock = true ↔ ∃ a, p = .block a := by
  cases p with
  | null => simp [isBlock]
  | zeroSize => simp [isBlock]
  | block a => simp [isBlock]

/-- The call is a write whose request for memory is refused while there is a pending block. -/
def Sys.Drops (M : ℕ) (s : Sys) : Call → Prop
  | .write (some f) (some data) env =>
      (s.file f).privateData = true ∧ env.interrupted = false ∧
        ¬ s.kern.WriteGranted M env data ∧ s.kern.dev.bufEntry.buffptr.isBlock = true
  | _ => False

instance (M : ℕ) (s : Sys) : (c : Call) → Decidable (s.Drops M c)
  | .write (some _) (some _) _ => inferInstanceAs (Decidable (_ ∧ _))
  | .write none _ _ | .write (some _) none _ | .openFile _ | .releaseFile _ | .read .. | .llseek ..
  | .ioctl .. => isFalse id

/-- Such a write is one with the mutex held. -/
theorem Sys.Drops.writeLocked {M : ℕ} {s s' : Sys} {c : Call} {r : Reply} (hd : s.Drops M c)
    (h : s.call M c = .ok (s', r)) :
    ∃ data env, ¬ s.kern.WriteGranted M env data ∧ s.kern.dev.bufEntry.buffptr.isBlock = true ∧
      Aesd.writeLocked M env s.kern data = .ok (s'.kern, r.retval) := by
  cases c with
  | write f buf env =>
      cases f with
      | none => exact absurd hd id
      | some f =>
          cases buf with
          | none => exact absurd hd id
          | some data =>
              obtain ⟨hopen, hwait, hg, hblock⟩ := hd
              refine ⟨data, env, hg, hblock, ?_⟩
              simp only [Sys.call, Option.map_some, aesdWrite, hopen, hwait, Bool.true_eq_false,
                Bool.false_eq_true, if_false] at h
              split at h
              · cases h
              · next k r₁ hw =>
                  cases h
                  exact hw
  | openFile f => exact absurd hd id
  | releaseFile f => exact absurd hd id
  | read f buf count env => exact absurd hd id
  | llseek f off whence => exact absurd hd id
  | ioctl f cmd env => exact absurd hd id

/-- **One call**: every block stays owned unless the call drops one. -/
theorem Kernel.Owned.call_iff {M : ℕ} {s s' : Sys} {c : Call} {r : Reply} (h : s.kern.Inv M)
    (howned : s.kern.Owned) (hc : s.call M c = .ok (s', r)) : s'.kern.Owned ↔ ¬ s.Drops M c := by
  constructor
  · -- the block that is dropped is still live, and neither pending nor in the ring
    intro howned' hd
    obtain ⟨data, env, hg, hblock, hw⟩ := hd.writeLocked hc
    obtain ⟨a, ha⟩ := KPtr.isBlock_iff.1 hblock
    obtain ⟨-, ⟨-, hk'⟩ | ⟨hg', -⟩⟩ := h.writeLocked_heap hw
    · rw [hk'] at howned'
      have hlive : (s.kern.heap.block a).isSome := by
        have hvalid := h.valid
        rwa [ha] at hvalid
      rcases howned' a hlive with hnull | hring
      · cases hnull
      · exact h.apart (ha ▸ hring)
    · exact hg hg'
  · intro hd
    rcases Sys.call_kern hc with ⟨heq, -⟩ | ⟨f, data, env, rfl, hopen, hwait, -, -, hw⟩
    · rw [heq]
      exact howned
    · obtain ⟨-, ⟨hg, hk'⟩ | ⟨-, hkeep⟩⟩ := h.writeLocked_heap hw
      · have hblock : ¬ s.kern.dev.bufEntry.buffptr.isBlock = true := fun hblock =>
          hd ⟨hopen, hwait, hg, hblock⟩
        rw [hk']
        intro a ha
        rcases howned a ha with hpend | hring
        · exact absurd (KPtr.isBlock_iff.2 ⟨a, hpend⟩) hblock
        · exact Or.inr hring
      · exact hkeep howned

/-- An entry of the ring is in a slot. -/
theorem AesdCircularBuffer.exists_slot {b : AesdCircularBuffer} {e : AesdBufferEntry}
    (he : e ∈ b.entries) : ∃ i, b.entry i = e := by
  obtain ⟨j, hj⟩ := List.mem_iff_getElem?.1 he
  exact ⟨_, b.entry_ofNat hj⟩

/-- **Unloading gives back every block** exactly if there is no pending one. -/
theorem Kernel.Inv.aesdCleanupModule_empty {M : ℕ} {k : Kernel} (h : k.Inv M) (howned : k.Owned) :
    ∃ k', aesdCleanupModule k = .ok k' ∧
      ((∀ a, k'.heap.block a = none) ↔ k.dev.bufEntry.buffptr.isBlock = false) := by
  obtain ⟨k', hk', hdead, hkeep⟩ := h.aesdCleanupModule_eq
  refine ⟨k', hk', ?_⟩
  constructor
  · intro hempty
    by_contra hblock
    obtain ⟨a, ha⟩ := KPtr.isBlock_iff.1 (by simpa using hblock)
    have hslot : ¬ k.InSlot a := by
      rintro ⟨i, hi⟩
      exact (h.slot_unique (by rw [hi]; rintro ⟨⟩)).2 (ha.trans hi.symm)
    have hvalid := h.valid
    rw [ha] at hvalid
    rw [Heap.Valid, ← hkeep a hslot, hempty a] at hvalid
    cases hvalid
  · intro hblock a
    by_cases hslot : k.InSlot a
    · exact hdead a hslot
    · rw [hkeep a hslot]
      by_contra hlive
      rcases howned a (by rwa [← Option.ne_none_iff_isSome]) with hpend | hring
      · rw [hpend] at hblock
        cases hblock
      · obtain ⟨e, he, hea⟩ := List.mem_map.1 hring
        obtain ⟨i, rfl⟩ := AesdCircularBuffer.exists_slot he
        exact hslot ⟨i, hea⟩

/-- **In which runs no block leaks.**  In every run without a refused request for a pending block,
each block is that of the pending command or of an entry of the ring, in every state; a further call
leaves it so exactly if it is no such request; and unloading gives back every block exactly if there
is no pending one. -/
theorem no_leak {M : ℕ} {s : Sys}
    (hs : (charDev M).Reach (fun s c => ¬ s.Drops M c) Sys.init s) :
    s.kern.Owned ∧
    (∀ c s' r, s.call M c = .ok (s', r) → (s'.kern.Owned ↔ ¬ s.Drops M c)) ∧
    ∃ k', aesdCleanupModule s.kern = .ok k' ∧
      ((∀ a, k'.heap.block a = none) ↔ s.kern.dev.bufEntry.buffptr.isBlock = false) := by
  have hinv : s.kern.Inv M ∧ s.kern.Owned :=
    hs.invariant (I := fun s => s.kern.Inv M ∧ s.kern.Owned) ⟨.init M, .init⟩
      fun s c s' r hI hok hstep => by
        have hc := charDev_step.1 hstep
        exact ⟨hI.1.call hc, (Kernel.Owned.call_iff hI.1 hI.2 hc).2 hok⟩
  obtain ⟨h, howned⟩ := hinv
  exact ⟨howned, fun c s' r hc => Kernel.Owned.call_iff h howned hc,
    h.aesdCleanupModule_empty howned⟩

/-- One line is written, and the module unloaded. -/
theorem no_leak_one_line :
    ∃ s k', (charDev 64).Reach (fun s c => ¬ s.Drops 64 c) Sys.init s ∧
      s.kern.commands = [[97, 10]] ∧ aesdCleanupModule s.kern = .ok k' ∧
      ∀ a, k'.heap.block a = none := by
  have hrun : ∃ p, (charDev 64).run Sys.init
      [.openFile 0, .write (some 0) (some [97, 10]) ⟨false, ⟨some 0, fun _ => 7⟩, 0⟩] = some p ∧
      p.1.kern.commands = [[97, 10]] ∧ p.1.kern.dev.bufEntry.buffptr.isBlock = false :=
    ⟨_, rfl, by decide, by decide⟩
  obtain ⟨⟨s, rs⟩, hrun, hcmds, hblock⟩ := hrun
  have hs : (charDev 64).Reach (fun s c => ¬ s.Drops 64 c) Sys.init s :=
    ⟨_, Machine.trace_of_run hrun (by decide)⟩
  obtain ⟨-, -, k', hk', hempty⟩ := no_leak hs
  exact ⟨s, k', hs, hcmds, hk', hempty.2 hblock⟩

/-- **Unloading leaks the pending command.**  After a write of `"a"`, which is not a line yet, the
block of the pending command is still live when the module is gone. -/
theorem unload_leaks_pending :
    ¬ ∀ (M : ℕ) (s : Sys), Reachable M s → s.kern.Owned ∧
      ∃ k', aesdCleanupModule s.kern = .ok k' ∧ ∀ a, k'.heap.block a = none := by
  intro h
  have hrun : ∃ p, (charDev 64).run Sys.init
      [.openFile 0, .write (some 0) (some [97]) ⟨false, ⟨some 0, fun _ => 7⟩, 0⟩] = some p ∧
      p.1.kern.dev.bufEntry.buffptr.isBlock = true := ⟨_, rfl, by decide⟩
  obtain ⟨⟨s, rs⟩, hrun, hblock⟩ := hrun
  have hs := reachable_of_run hrun
  obtain ⟨howned, k', hk', hempty⟩ := h 64 s hs
  obtain ⟨k'', hk'', hiff⟩ := hs.inv.aesdCleanupModule_empty howned
  obtain rfl := Except.ok.inj (hk'.symm.trans hk'')
  rw [hiff.1 hempty] at hblock
  cases hblock

end Aesd
