/-
**The invariant of the char device, and what each call does to the stored bytes.**

The ring refers to blocks of the heap, and a write reallocates and frees blocks, so that the stored
commands survive a write is a matter of separation: the entries of the ring own live blocks, all
different, and the block of the pending command is none of them.  `Kernel.Inv` says this, together
with what makes an entry a command.  It holds in every state that calls reach, whatever the
allocator and the user copies do.

That the *pending* bytes are what the users wrote is not part of the invariant, because it is not
true after a failed reallocation; `Kernel.Intact` is the condition under which it is.

* `Kernel.Inv`, `Kernel.Intact` — the invariant, and that no pending byte is lost;
* `growEntry_cases` — everything the first half of a write can do;
* `Kernel.Inv.commitEntry` — what the second half does;
* `Kernel.Inv.writeLocked_cases` — **everything a write can do to the stored bytes**;
* `Kernel.Inv.writeLocked_ok` — a write of at least one byte ends without a fault;
* `Reachable.inv` — the invariant holds in every reachable state.
-/

import Aesd.CharDevice
import Aesd.RingSearch
import Mathlib.Algebra.Order.BigOperators.Group.List

set_option relaxedAutoImplicit false
set_option autoImplicit false

namespace Aesd

/-! ### The invariant -/

/-- The entry is a command: its block is live and holds its bytes and no others, the last of which
is a newline.  Its size was granted by the allocator. -/
structure Heap.HoldsCommand (M : ℕ) (h : Heap) (e : AesdBufferEntry) : Prop where
  live : ∃ a bs, e.buffptr = .block a ∧ h.block a = some bs
  length : (h.contents e.buffptr).length = e.size
  size_le : e.size ≤ M
  last : (h.bytesOf e).getLast? = some newline

/-- **The invariant of the device.** -/
structure Kernel.Inv (M : ℕ) (k : Kernel) : Prop where
  ring : k.dev.circularBuf.Inv
  commands : ∀ e ∈ k.dev.circularBuf.entries, k.heap.HoldsCommand M e
  /-- Different entries own different blocks. -/
  distinct : (k.dev.circularBuf.entries.map AesdBufferEntry.buffptr).Nodup
  /-- The block of the pending command is not in the ring. -/
  apart : k.dev.bufEntry.buffptr ∉ k.dev.circularBuf.entries.map AesdBufferEntry.buffptr
  /-- The pending pointer is not dangling. -/
  valid : k.heap.Valid k.dev.bufEntry.buffptr
  size_le : k.dev.bufEntry.size ≤ M
  size_lt : k.dev.bufEntry.size < 2 ^ 64

/-- All pending bytes are there. -/
def Kernel.Intact (k : Kernel) : Prop := k.pending.length = k.dev.bufEntry.size

/-- The pending block holds the pending bytes and no others. -/
def Kernel.Exact (k : Kernel) : Prop :=
  (k.heap.contents k.dev.bufEntry.buffptr).length = k.dev.bufEntry.size

/-- Every block the driver has obtained is that of the pending command or of an entry. -/
def Kernel.Owned (k : Kernel) : Prop :=
  ∀ a, (k.heap.block a).isSome → k.dev.bufEntry.buffptr = .block a ∨
    .block a ∈ k.dev.circularBuf.entries.map AesdBufferEntry.buffptr

theorem Kernel.Inv.init (M : ℕ) : Kernel.init.Inv M where
  ring := AesdCircularBuffer.Inv.init
  commands e he := absurd he (List.not_mem_nil)
  distinct := List.nodup_nil
  apart := List.not_mem_nil
  valid := trivial
  size_le := Nat.zero_le _
  size_lt := by decide

theorem Kernel.Intact.init : Kernel.init.Intact := rfl

theorem Kernel.Owned.init : Kernel.init.Owned := fun a ha => by cases ha

theorem Heap.bytesOf_of_length {h : Heap} {e : AesdBufferEntry}
    (he : (h.contents e.buffptr).length = e.size) : h.bytesOf e = h.contents e.buffptr := by
  rw [Heap.bytesOf, List.take_of_length_le he.le]

theorem Kernel.Exact.intact {k : Kernel} (h : k.Exact) : k.Intact := by
  rw [Kernel.Intact, Kernel.pending, Heap.bytesOf_of_length h]
  exact h

theorem Heap.HoldsCommand.length_bytesOf {M : ℕ} {h : Heap} {e : AesdBufferEntry}
    (he : h.HoldsCommand M e) : (h.bytesOf e).length = e.size := by
  rw [Heap.bytesOf_of_length he.length, he.length]

/-- The sizes in the ring are the lengths of the commands. -/
theorem Kernel.Inv.sizes {M : ℕ} {k : Kernel} (h : k.Inv M) :
    k.dev.circularBuf.entries.map AesdBufferEntry.size = k.commands.map List.length := by
  rw [Kernel.commands, List.map_map]
  exact List.map_congr_left fun e he => ((h.commands e he).length_bytesOf).symm

theorem Kernel.Inv.length_commands_le {M : ℕ} {k : Kernel} (h : k.Inv M) :
    k.commands.length ≤ 10 := by
  rw [Kernel.commands, List.length_map, AesdCircularBuffer.length_entries]
  exact h.ring.stored_le

/-- The slot of a command: the entry in it has the length of the command as its size, and its block
starts with the bytes of the command. -/
theorem Kernel.Inv.slot {M : ℕ} {k : Kernel} (h : k.Inv M) {j : ℕ} {c : List UInt8}
    (hj : k.commands[j]? = some c) :
    (k.dev.circularBuf.entry (Fin.ofNat 10 (k.dev.circularBuf.outOffs + j))).size = c.length ∧
      k.heap.bytesOf (k.dev.circularBuf.entry (Fin.ofNat 10 (k.dev.circularBuf.outOffs + j)))
        = c := by
  rw [Kernel.commands, List.getElem?_map, Option.map_eq_some_iff] at hj
  obtain ⟨e, he, rfl⟩ := hj
  rw [AesdCircularBuffer.entry_ofNat _ he]
  exact ⟨((h.commands e (List.mem_of_getElem? he)).length_bytesOf).symm, rfl⟩

/-- A bound on the commands bounds what is stored. -/
theorem Kernel.Inv.flat_le {M : ℕ} {k : Kernel} (h : k.Inv M) : k.flat.length ≤ 10 * M := by
  have hle : ∀ n ∈ k.dev.circularBuf.entries.map AesdBufferEntry.size, n ≤ M := by
    intro n hn
    obtain ⟨e, he, rfl⟩ := List.mem_map.1 hn
    exact (h.commands e he).size_le
  have hsum := List.sum_le_card_nsmul _ _ hle
  have hst : k.dev.circularBuf.stored ≤ 10 := h.ring.stored_le
  rw [List.length_map, AesdCircularBuffer.length_entries, Nat.nsmul_eq_mul, h.sizes,
    ← List.length_flatten] at hsum
  exact hsum.trans (Nat.mul_le_mul_right M hst)

/-- **The search of the driver locates a position among the commands.** -/
theorem Kernel.Inv.find_eq {M : ℕ} {k : Kernel} (h : k.Inv M) (hflat : k.flat.length < 2 ^ 31)
    (p : ℕ) :
    k.dev.circularBuf.findEntryOffsetForFpos p
      = (Segments.locate (k.commands.map List.length) p).map
          fun q => (Fin.ofNat 10 (k.dev.circularBuf.outOffs + q.1), q.2) := by
  have hsum : (k.dev.circularBuf.entries.map AesdBufferEntry.size).sum < 2 ^ 31 := by
    rw [h.sizes, ← List.length_flatten]
    exact hflat
  rw [h.ring.findEntryOffsetForFpos_eq hsum, h.sizes]

/-! ### Separation -/

/-- Storing a block and storing it again is storing it once. -/
theorem Heap.store_store (h : Heap) (a : ℕ) (bs cs : List UInt8) :
    (h.store a bs).store a cs = h.store a cs := by
  simp only [Heap.store, Function.update_idem, Nat.max_assoc, Nat.max_self]

/-- The bytes behind a pointer that is not the one reallocated. -/
theorem Heap.contents_realloc {h : Heap} {p q : KPtr} {a b : ℕ} {cs : List UInt8} (bs : List UInt8)
    (hq : q = .block b) (hb : h.block b = some cs) (hp : q ≠ p)
    (ha : (h.release p).block a = none) :
    q ≠ .block a ∧ ((h.release p).store a bs).block b = some cs ∧
      ((h.release p).store a bs).contents q = h.contents q := by
  have hrel : (h.release p).block b = some cs := by
    rw [Heap.release_block_of_ne h fun hpb => hp (by rw [hq, hpb]), hb]
  have hne : b ≠ a := by rintro rfl; rw [ha] at hrel; cases hrel
  have hptr : q ≠ .block a := by rw [hq]; rintro ⟨⟩; exact hne rfl
  refine ⟨hptr, by rw [Heap.store_block_of_ne _ _ hne, hrel], ?_⟩
  rw [Heap.contents_store_of_ne _ _ hptr, Heap.contents_release_of_ne _ fun hpe => hp hpe.symm]

/-- A command is one of another heap with the same bytes behind its pointer. -/
theorem Heap.HoldsCommand.of_contents {M : ℕ} {h h' : Heap} {e : AesdBufferEntry}
    (he : h.HoldsCommand M e) (hlive : ∃ a bs, e.buffptr = .block a ∧ h'.block a = some bs)
    (hcont : h'.contents e.buffptr = h.contents e.buffptr) :
    h'.HoldsCommand M e ∧ h'.bytesOf e = h.bytesOf e := by
  have hbytes : h'.bytesOf e = h.bytesOf e := by rw [Heap.bytesOf, Heap.bytesOf, hcont]
  exact ⟨⟨hlive, by rw [hcont, he.length], he.size_le, by rw [hbytes, he.last]⟩, hbytes⟩

/-- **A command survives a reallocation of another block.** -/
theorem Heap.HoldsCommand.realloc {M : ℕ} {h : Heap} {p : KPtr} {a : ℕ} {e : AesdBufferEntry}
    (he : h.HoldsCommand M e) (bs : List UInt8) (hp : e.buffptr ≠ p)
    (ha : (h.release p).block a = none) :
    ((h.release p).store a bs).HoldsCommand M e ∧
      ((h.release p).store a bs).bytesOf e = h.bytesOf e := by
  obtain ⟨b, cs, hptr, hb⟩ := he.live
  obtain ⟨-, hlive, hcont⟩ := Heap.contents_realloc bs hptr hb hp ha
  exact he.of_contents ⟨b, cs, hptr, hlive⟩ hcont

/-- **A command survives the release of another block.** -/
theorem Heap.HoldsCommand.release {M : ℕ} {h : Heap} {p : KPtr} {e : AesdBufferEntry}
    (he : h.HoldsCommand M e) (hp : e.buffptr ≠ p) :
    (h.release p).HoldsCommand M e ∧ (h.release p).bytesOf e = h.bytesOf e := by
  obtain ⟨b, cs, hptr, hb⟩ := he.live
  refine he.of_contents ⟨b, cs, hptr, ?_⟩ (Heap.contents_release_of_ne _ fun hpe => hp hpe.symm)
  rw [Heap.release_block_of_ne h fun hpb => hp (by rw [hptr, hpb]), hb]

/-! ### The first half of a write -/

/-- The size a write asks for. -/
def Kernel.newEntrySize (k : Kernel) (data : List UInt8) : ℕ :=
  sizeT ((k.dev.bufEntry.size : ℤ) + data.length)

/-- The allocator grants the request of a write. -/
def Kernel.WriteGranted (M : ℕ) (env : WriteEnv) (k : Kernel) (data : List UInt8) : Prop :=
  Granted M env.alloc k.heap k.dev.bufEntry.buffptr (k.newEntrySize data)

instance (M : ℕ) (env : WriteEnv) (k : Kernel) (data : List UInt8) :
    Decidable (k.WriteGranted M env data) := inferInstanceAs (Decidable (Granted ..))

/-- The kernel after a reallocation of the pending block to the block `bs` at `a`. -/
def Kernel.realloc (k : Kernel) (a : ℕ) (bs : List UInt8) (size : ℕ) : Kernel :=
  ⟨(k.heap.release k.dev.bufEntry.buffptr).store a bs,
    { k.dev with bufEntry := ⟨.block a, size⟩ }⟩

/-- A block of the length that the size says is the pending command. -/
theorem Kernel.realloc_exact (k : Kernel) (a : ℕ) {bs : List UInt8} {size : ℕ}
    (h : bs.length = size) : (k.realloc a bs size).Exact ∧ (k.realloc a bs size).pending = bs := by
  subst h
  have hcont : (k.realloc a bs bs.length).heap.contents (.block a) = bs :=
    Heap.contents_store_self ..
  exact ⟨congrArg List.length hcont, by
    rw [Kernel.pending, Heap.bytesOf, show (k.realloc a bs bs.length).dev.bufEntry
      = ⟨.block a, bs.length⟩ from rfl, hcont, List.take_length]⟩

/-- The size asked for, unless the sum wraps around. -/
theorem newEntrySize_of_lt {k : Kernel} {data : List UInt8}
    (h : k.dev.bufEntry.size + data.length < 2 ^ 64) :
    k.newEntrySize data = k.dev.bufEntry.size + data.length := by
  rw [Kernel.newEntrySize, ← Int.natCast_add, sizeT_of_lt h]

theorem newEntrySize_le (k : Kernel) (data : List UInt8) :
    k.newEntrySize data ≤ k.dev.bufEntry.size + data.length := by
  have hcast : ((k.newEntrySize data : ℕ) : ℤ)
      = ((k.dev.bufEntry.size : ℤ) + data.length) % 2 ^ 64 := sizeT_cast _
  omega

/-- **Everything the first half of a write can do**: the allocator refuses, and the pending pointer
is gone; the request is for no byte at all; or the pending block moves to some `a`, with its bytes,
and then the copy fails or appends the user's bytes. -/
theorem growEntry_cases {M : ℕ} {env : WriteEnv} {k k' : Kernel} {data : List UInt8}
    {o : Option ℤ} (hp : k.heap.Valid k.dev.bufEntry.buffptr) (hlt : k.dev.bufEntry.size < 2 ^ 64)
    (h : growEntry M env k data = .ok (k', o)) :
    (o = some (-ENOMEM) ∧ ¬ k.WriteGranted M env data ∧
      k' = ⟨k.heap, { k.dev with bufEntry := ⟨.null, k.dev.bufEntry.size⟩ }⟩) ∨
    (k.WriteGranted M env data ∧ k.newEntrySize data = 0 ∧
      k' = ⟨k.heap.release k.dev.bufEntry.buffptr,
        { k.dev with bufEntry := ⟨.zeroSize, k.dev.bufEntry.size⟩ }⟩ ∧
      ((o = some (-EFAULT) ∧ uncopied env.left data.length ≠ 0) ∨
        (o = none ∧ k.dev.bufEntry.size = 0))) ∨
    (∃ a bs, env.alloc.addr = some a ∧ k.WriteGranted M env data ∧ 0 < k.newEntrySize data ∧
      k.newEntrySize data ≤ M ∧ (k.heap.release k.dev.bufEntry.buffptr).block a = none ∧
      bs.length = k.newEntrySize data ∧
      (k.dev.bufEntry.size ≤ k.newEntrySize data → k.Intact →
        bs.take k.dev.bufEntry.size = k.pending) ∧
      ((o = some (-EFAULT) ∧ uncopied env.left data.length ≠ 0 ∧
          k' = k.realloc a bs k.dev.bufEntry.size) ∨
        (o = none ∧ uncopied env.left data.length = 0 ∧
          k.newEntrySize data = k.dev.bufEntry.size + data.length ∧
          bs = bs.take k.dev.bufEntry.size ++ data ∧
          k' = k.realloc a bs (k.newEntrySize data)))) := by
  have hnew : sizeT ((k.dev.bufEntry.size : ℤ) + data.length) = k.newEntrySize data := rfl
  simp only [growEntry, hnew] at h
  rcases krealloc_cases M env.alloc (k.newEntrySize data) hp with
    ⟨hg, -, hk⟩ | ⟨hn, hk⟩ | ⟨a, haddr, hn, hM, hfree, hk⟩
  · simp only [hk, Except.ok.injEq, Prod.mk.injEq] at h
    exact Or.inl ⟨h.2.symm, hg, h.1.symm⟩
  · simp only [hk] at h
    refine Or.inr (Or.inl ⟨Or.inl hn, hn, ?_⟩)
    cases hc : copyFromUser env.left (k.heap.release k.dev.bufEntry.buffptr) .zeroSize
        k.dev.bufEntry.size data with
    | error f => simp [hc] at h
    | ok q =>
        obtain ⟨h₁, u⟩ := q
        obtain ⟨rfl, rfl, hnil⟩ := copyFromUser_zeroSize hc
        simp only [hc] at h
        split at h
        · next hu =>
            cases h
            exact ⟨rfl, Or.inl ⟨rfl, hu⟩⟩
        · next hu =>
            obtain rfl := hnil (not_not.1 hu)
            have hsize : k.dev.bufEntry.size = 0 := by
              rw [← hn, newEntrySize_of_lt (by simpa using hlt)]
              simp
            cases h
            exact ⟨by rw [hn, hsize], Or.inr ⟨rfl, hsize⟩⟩
  · simp only [hk] at h
    set R := resize (k.heap.contents k.dev.bufEntry.buffptr) (k.newEntrySize data)
      env.alloc.fill with hR
    have hRlen : R.length = k.newEntrySize data := resize_length ..
    have hRtake : k.dev.bufEntry.size ≤ k.newEntrySize data → k.Intact →
        R.take k.dev.bufEntry.size = k.pending := by
      intro hle hint
      refine take_resize _ _ ?_ hle
      have hmin : min k.dev.bufEntry.size (k.heap.contents k.dev.bufEntry.buffptr).length
          = k.dev.bufEntry.size := by
        rw [← List.length_take]; exact hint
      omega
    have hgr : k.WriteGranted M env data := by
      by_contra hg
      rw [krealloc_null hp hg] at hk
      simp at hk
    cases hc : copyFromUser env.left ((k.heap.release k.dev.bufEntry.buffptr).store a R) (.block a)
        k.dev.bufEntry.size data with
    | error f => simp [hc] at h
    | ok q =>
        obtain ⟨h₁, u⟩ := q
        simp only [hc] at h
        refine Or.inr (Or.inr ⟨a, ?_⟩)
        obtain ⟨rfl, bs, hh, hlen, htake, hroom, happ⟩ :=
          copyFromUser_cases (Heap.store_block_self ..) hc
        have hheap : h₁ = (k.heap.release k.dev.bufEntry.buffptr).store a bs := by
          rcases hh with ⟨rfl, rfl⟩ | rfl
          · rfl
          · rw [Heap.store_store]
        subst hheap
        rw [hRlen] at hlen hroom happ
        refine ⟨bs, haddr, hgr, hn, hM, hfree, hlen,
          fun hle hint => by rw [htake, hRtake hle hint], ?_⟩
        split at h
        · next hu =>
            cases h
            exact Or.inl ⟨rfl, hu, rfl⟩
        · next hu =>
            have hu' := not_not.1 hu
            have hsum : k.newEntrySize data = k.dev.bufEntry.size + data.length := by
              rcases eq_or_ne data [] with rfl | hne
              · exact newEntrySize_of_lt (by simpa using hlt)
              · exact le_antisymm (newEntrySize_le k data) (hroom hu' hne)
            cases h
            refine Or.inr ⟨rfl, hu', hsum, ?_, rfl⟩
            rw [htake]
            exact happ hu' hsum.symm

/-- The first half of a write ends without a fault if it asks for some byte and the size does not
wrap around. -/
theorem growEntry_ok (M : ℕ) (env : WriteEnv) {k : Kernel} {data : List UInt8}
    (hp : k.heap.Valid k.dev.bufEntry.buffptr) (hpos : 0 < k.dev.bufEntry.size + data.length)
    (hlt : k.dev.bufEntry.size + data.length < 2 ^ 64) :
    ∃ k' o, growEntry M env k data = .ok (k', o) := by
  have hn := newEntrySize_of_lt hlt
  have hnew : sizeT ((k.dev.bufEntry.size : ℤ) + data.length) = k.newEntrySize data := rfl
  simp only [growEntry, hnew]
  rcases krealloc_cases M env.alloc (k.newEntrySize data) hp with
    ⟨-, -, hk⟩ | ⟨hn0, -⟩ | ⟨a, -, -, -, -, hk⟩
  · rw [hk]
    exact ⟨_, _, rfl⟩
  · omega
  · obtain ⟨h₁, u, hc⟩ := copyFromUser_ok env.left k.dev.bufEntry.size data
      (Heap.store_block_self (k.heap.release k.dev.bufEntry.buffptr) a
        (resize (k.heap.contents k.dev.bufEntry.buffptr) (k.newEntrySize data) env.alloc.fill))
      (by rw [resize_length, hn])
    simp only [hk, hc]
    split <;> exact ⟨_, _, rfl⟩

/-- Reallocating the pending block keeps the invariant and the commands. -/
theorem Kernel.Inv.realloc {M : ℕ} {k : Kernel} (h : k.Inv M) {a size : ℕ} (bs : List UInt8)
    (hfree : (k.heap.release k.dev.bufEntry.buffptr).block a = none) (hM : size ≤ M)
    (hlt : size < 2 ^ 64) :
    (k.realloc a bs size).Inv M ∧ (k.realloc a bs size).commands = k.commands := by
  have hptr : ∀ e ∈ k.dev.circularBuf.entries, e.buffptr ≠ k.dev.bufEntry.buffptr :=
    fun e he hc => h.apart (List.mem_map.2 ⟨e, he, hc⟩)
  have hkeep := fun e he => (h.commands e he).realloc bs (hptr e he) hfree
  refine ⟨⟨h.ring, fun e he => (hkeep e he).1, h.distinct, ?_, ?_, hM, hlt⟩,
    List.map_congr_left fun e he => (hkeep e he).2⟩
  · intro hmem
    obtain ⟨e, he, hea⟩ := List.mem_map.1 hmem
    obtain ⟨b, cs, hb, hlive⟩ := (h.commands e he).live
    exact (Heap.contents_realloc bs hb hlive (hptr e he) hfree).1 hea
  · simp [Kernel.realloc, Heap.Valid]

/-- Reallocating the pending block retires the old one. -/
theorem Kernel.Owned.realloc {k : Kernel} (h : k.Owned) (a : ℕ) (bs : List UInt8) (size : ℕ) :
    (k.realloc a bs size).Owned := by
  intro b hb
  rcases eq_or_ne b a with rfl | hne
  · exact Or.inl rfl
  · obtain ⟨cs, hcs⟩ := Option.isSome_iff_exists.1 hb
    rw [Kernel.realloc, Heap.store_block_of_ne _ _ hne] at hcs
    obtain ⟨hlive, hptr⟩ := Heap.release_block_eq_some hcs
    rcases h b (by rw [hlive]; rfl) with hpend | hring
    · exact absurd hpend hptr
    · exact Or.inr hring

/-- Giving up the pending block keeps the invariant and the commands. -/
theorem Kernel.Inv.dropEntry {M : ℕ} {k : Kernel} (h : k.Inv M) {heap : Heap} {p : KPtr}
    (hheap : heap = k.heap ∨ heap = k.heap.release k.dev.bufEntry.buffptr)
    (hp : p = .null ∨ p = .zeroSize) {k' : Kernel}
    (hk' : k' = ⟨heap, { k.dev with bufEntry := ⟨p, k.dev.bufEntry.size⟩ }⟩) :
    k'.Inv M ∧ k'.commands = k.commands := by
  subst hk'
  have hptr : ∀ e ∈ k.dev.circularBuf.entries, e.buffptr ≠ k.dev.bufEntry.buffptr :=
    fun e he hc => h.apart (List.mem_map.2 ⟨e, he, hc⟩)
  have hkeep : ∀ e ∈ k.dev.circularBuf.entries,
      heap.HoldsCommand M e ∧ heap.bytesOf e = k.heap.bytesOf e := by
    intro e he
    rcases hheap with rfl | rfl
    · exact ⟨h.commands e he, rfl⟩
    · exact (h.commands e he).release (hptr e he)
  refine ⟨⟨h.ring, fun e he => (hkeep e he).1, h.distinct, ?_, ?_, h.size_le, h.size_lt⟩,
    List.map_congr_left fun e he => (hkeep e he).2⟩
  · intro hmem
    obtain ⟨e, he, hep⟩ := List.mem_map.1 hmem
    obtain ⟨b, cs, hb, -⟩ := (h.commands e he).live
    rcases hp with rfl | rfl
    · exact KPtr.noConfusion (hb.symm.trans hep)
    · exact KPtr.noConfusion (hb.symm.trans hep)
  · rcases hp with rfl | rfl <;> trivial

/-! ### The second half of a write -/

/-- The pending command of a device that has all its bytes can be loaded from. -/
theorem Kernel.Intact.load {k : Kernel} (hint : k.Intact) (hpos : 0 < k.dev.bufEntry.size)
    (hlt : k.dev.bufEntry.size < 2 ^ 64) :
    ∃ last, k.heap.load k.dev.bufEntry.buffptr (sizeT ((k.dev.bufEntry.size : ℤ) - 1)) = .ok last ∧
      k.pending.getLast? = some last := by
  have hidx : sizeT ((k.dev.bufEntry.size : ℤ) - 1) = k.dev.bufEntry.size - 1 := by
    rw [show (k.dev.bufEntry.size : ℤ) - 1 = ((k.dev.bufEntry.size - 1 : ℕ) : ℤ) by omega,
      sizeT_of_lt (by omega)]
  have hlt' : k.dev.bufEntry.size - 1 < k.pending.length := by rw [hint]; omega
  refine ⟨k.pending[k.dev.bufEntry.size - 1], ?_, ?_⟩
  · have hget : (k.heap.contents k.dev.bufEntry.buffptr)[k.dev.bufEntry.size - 1]?
        = some k.pending[k.dev.bufEntry.size - 1] := by
      rw [← List.getElem?_eq_getElem hlt', Kernel.pending, Heap.bytesOf,
        List.getElem?_take_of_lt (by omega)]
    rw [Heap.load, hidx, hget]
  · rw [List.getLast?_eq_getElem?, hint, List.getElem?_eq_getElem hlt']

/-- The pending entry is a command as soon as its block is filled and ends with a newline. -/
theorem Kernel.Inv.holdsPending {M : ℕ} {k : Kernel} (h : k.Inv M) (hex : k.Exact)
    (hlast : k.pending.getLast? = some newline) : k.heap.HoldsCommand M k.dev.bufEntry := by
  refine ⟨?_, hex, h.size_le, hlast⟩
  have hvalid := h.valid
  cases hp : k.dev.bufEntry.buffptr with
  | null => simp [Kernel.pending, Heap.bytesOf, hp] at hlast
  | zeroSize => simp [Kernel.pending, Heap.bytesOf, hp] at hlast
  | block a =>
      rw [hp] at hvalid
      obtain ⟨bs, hbs⟩ := Option.isSome_iff_exists.1 hvalid
      exact ⟨a, bs, rfl, hbs⟩

/-- The new command has a block of its own. -/
theorem Kernel.Inv.nodup_append_pending {M : ℕ} {k : Kernel} (h : k.Inv M)
    {es : List AesdBufferEntry} (hes : es.Sublist k.dev.circularBuf.entries) :
    ((es ++ [k.dev.bufEntry]).map AesdBufferEntry.buffptr).Nodup := by
  have hsub := hes.map AesdBufferEntry.buffptr
  rw [List.map_append, List.map_singleton, List.nodup_append]
  refine ⟨h.distinct.sublist hsub, List.nodup_singleton _, ?_⟩
  intro p hp q hq
  rw [List.mem_singleton] at hq
  rintro rfl
  exact h.apart (hq ▸ hsub.subset hp)

/-- The pending command becomes a command of the ring; `heap` is the heap after the eviction. -/
theorem Kernel.Inv.addPending {M : ℕ} {k : Kernel} (h : k.Inv M) {heap : Heap}
    {ring : AesdCircularBuffer} (hring : ring = (k.dev.circularBuf.addEntry k.dev.bufEntry).1)
    (hkeep : ∀ d ∈ ring.entries, heap.HoldsCommand M d ∧ heap.bytesOf d = k.heap.bytesOf d)
    (hnodup : (ring.entries.map AesdBufferEntry.buffptr).Nodup) :
    Kernel.Inv M ⟨heap, ⟨.zero, ring⟩⟩ ∧ Kernel.Intact ⟨heap, ⟨.zero, ring⟩⟩ ∧
      Kernel.log ⟨heap, ⟨.zero, ring⟩⟩ = ⟨[], TermLog.push 10 k.commands k.pending⟩ := by
  refine ⟨⟨hring ▸ h.ring.addEntry _, fun d hd => (hkeep d hd).1, hnodup, ?_, trivial,
    Nat.zero_le _, by simp [AesdBufferEntry.zero]⟩, rfl, ?_⟩
  · intro hmem
    obtain ⟨d, hd, hdp⟩ := List.mem_map.1 hmem
    obtain ⟨b, cs, hb, -⟩ := (hkeep d hd).1.live
    exact KPtr.noConfusion (hb.symm.trans hdp)
  · have hentries : ring.entries
        = TermLog.push 10 k.dev.circularBuf.entries k.dev.bufEntry := by
      rw [hring, h.ring.entries_addEntry]
    have hcommands : ring.entries.map heap.bytesOf = TermLog.push 10 k.commands k.pending := by
      rw [List.map_congr_left fun d hd => (hkeep d hd).2, hentries, ← TermLog.push_map]
      rfl
    rw [Kernel.log, Kernel.commands, hcommands]
    rfl

/-- **The second half of a write**: a pending command that ends with a newline is pushed on the
ring, and the block it evicts is freed; nothing else happens otherwise. -/
theorem Kernel.Inv.commitEntry {M : ℕ} {k : Kernel} (h : k.Inv M) (hex : k.Exact)
    (hpos : 0 < k.dev.bufEntry.size) :
    ∃ k', Aesd.commitEntry k = .ok k' ∧ k'.Inv M ∧ k'.Intact ∧ (k.Owned → k'.Owned) ∧
      (k'.dev = if k.pending.getLast? = some newline
        then ⟨.zero, (k.dev.circularBuf.addEntry k.dev.bufEntry).1⟩ else k.dev) ∧
      k'.log = if k.pending.getLast? = some newline
        then ⟨[], TermLog.push 10 k.commands k.pending⟩ else k.log := by
  have hint := hex.intact
  obtain ⟨last, hload, hlast⟩ := hint.load hpos h.size_lt
  by_cases hnl : last = newline
  swap
  · have hne : k.pending.getLast? ≠ some newline := by rw [hlast]; simpa using hnl
    exact ⟨k, by simp only [Aesd.commitEntry, hload, if_neg hnl], h, hint, id, by rw [if_neg hne],
      by rw [if_neg hne]⟩
  subst hnl
  have hcmd := h.holdsPending hex hlast
  set e := k.dev.bufEntry with he
  set ring := (k.dev.circularBuf.addEntry e).1 with hring
  have hentries : ring.entries = TermLog.push 10 k.dev.circularBuf.entries e :=
    h.ring.entries_addEntry e
  rw [if_pos hlast, if_pos hlast]
  rcases h.ring.addEntry_snd e with ⟨hfull, hold⟩ | ⟨hst, o, es, hoes, hold⟩
  · -- a free slot: nothing is evicted
    have hpush : ring.entries = k.dev.circularBuf.entries ++ [e] := by
      rw [hentries, TermLog.push_of_lt]
      rw [AesdCircularBuffer.length_entries, h.ring.stored_of_not_full hfull]
      exact k.dev.circularBuf.in_lt
    have hkeep : ∀ d ∈ ring.entries, k.heap.HoldsCommand M d := by
      intro d hd
      rw [hpush, List.mem_append, List.mem_singleton] at hd
      rcases hd with hd | rfl
      · exact h.commands d hd
      · exact hcmd
    obtain ⟨hinv, hint', hlog⟩ := h.addPending hring (fun d hd => ⟨hkeep d hd, rfl⟩)
      (hpush ▸ h.nodup_append_pending (List.Sublist.refl _))
    refine ⟨⟨k.heap, ⟨.zero, ring⟩⟩, ?_, hinv, hint', ?_, rfl, hlog⟩
    · simp only [Aesd.commitEntry, hload, ← he, hold, ne_eq, not_true_eq_false, if_false, if_true,
        ← hring]
    · intro howned a ha
      rw [hpush, List.map_append, List.map_singleton, List.mem_append, List.mem_singleton]
      rcases howned a ha with hpend | hmem
      · exact Or.inr (Or.inr hpend.symm)
      · exact Or.inr (Or.inl hmem)
  · -- a full ring: the oldest command is evicted and its block freed
    have hpush : ring.entries = es ++ [e] := by
      rw [hentries, TermLog.push_of_eq e (by decide)
        (by rw [AesdCircularBuffer.length_entries, hst]), hoes]
      rfl
    have hdistinct := h.distinct
    have hapart := h.apart
    rw [hoes, List.map_cons] at hdistinct hapart
    obtain ⟨hoes', -⟩ := List.nodup_cons.1 hdistinct
    simp only [List.mem_cons, not_or] at hapart
    have hkeep : ∀ d ∈ ring.entries, k.heap.HoldsCommand M d ∧ d.buffptr ≠ o.buffptr := by
      intro d hd
      rw [hpush, List.mem_append, List.mem_singleton] at hd
      rcases hd with hd | rfl
      · exact ⟨h.commands d (by rw [hoes]; exact List.mem_cons_of_mem _ hd),
          fun hdo => hoes' (List.mem_map.2 ⟨d, hd, hdo⟩)⟩
      · exact ⟨hcmd, hapart.1⟩
    obtain ⟨b, cs, hb, hlive⟩ := (h.commands o (by rw [hoes]; simp)).live
    obtain ⟨hinv, hint', hlog⟩ := h.addPending hring
      (fun d hd => (hkeep d hd).1.release (hkeep d hd).2)
      (hpush ▸ h.nodup_append_pending (hoes ▸ List.sublist_cons_self o es))
    refine ⟨⟨k.heap.release o.buffptr, ⟨.zero, ring⟩⟩, ?_, hinv, hint', ?_, rfl, hlog⟩
    · have hvalid : k.heap.Valid o.buffptr := by rw [hb]; simp [Heap.Valid, hlive]
      have hnull : o.buffptr ≠ .null := by rw [hb]; rintro ⟨⟩
      simp only [Aesd.commitEntry, hload, ← he, hold, ne_eq, hnull, not_false_eq_true, if_true,
        kfree_ok hvalid, ← hring]
    · intro howned a ha
      obtain ⟨as, has⟩ := Option.isSome_iff_exists.1 ha
      obtain ⟨hlive', hoa⟩ := Heap.release_block_eq_some has
      rw [hpush, List.map_append, List.map_singleton, List.mem_append, List.mem_singleton]
      rcases howned a (by rw [hlive']; rfl) with hpend | hmem
      · exact Or.inr (Or.inr hpend.symm)
      · rw [hoes, List.map_cons, List.mem_cons] at hmem
        exact Or.inr (Or.inl (hmem.resolve_left fun hao => hoa hao.symm))

/-! ### A whole write -/

/-- The device after a write that leaves `bytes` as the pending bytes in the block at `a`, or
commits them. -/
def Kernel.devAfter (k : Kernel) (a : ℕ) (bytes : List UInt8) : AesdDev :=
  if bytes.getLast? = some newline
  then ⟨.zero, (k.dev.circularBuf.addEntry ⟨.block a, bytes.length⟩).1⟩
  else ⟨⟨.block a, bytes.length⟩, k.dev.circularBuf⟩

/-- **Everything a write can do to what is stored**: the allocator refuses, and the pending pointer
is gone while the size is not; the copy fails, and the pending bytes are kept unless the size asked
for wrapped around; or the user's bytes are fed to the log, behind the pending bytes. -/
theorem Kernel.Inv.writeLocked_cases {M : ℕ} {env : WriteEnv} {k k' : Kernel} {data : List UInt8}
    {r : ℤ} (h : k.Inv M) (hw : writeLocked M env k data = .ok (k', r)) :
    k'.Inv M ∧
    ((r = -ENOMEM ∧ ¬ k.WriteGranted M env data ∧
        k' = ⟨k.heap, { k.dev with bufEntry := ⟨.null, k.dev.bufEntry.size⟩ }⟩) ∨
      (r = -EFAULT ∧ k.WriteGranted M env data ∧ uncopied env.left data.length ≠ 0 ∧
        k'.dev.circularBuf = k.dev.circularBuf ∧ k'.commands = k.commands ∧
        k'.dev.bufEntry.size = k.dev.bufEntry.size ∧
        k'.pending.length ≤ k.newEntrySize data ∧
        (k.dev.bufEntry.size ≤ k.newEntrySize data → k.Intact → k'.pending = k.pending)) ∨
      (r = int64 data.length ∧ k.WriteGranted M env data ∧ uncopied env.left data.length = 0 ∧
        k.newEntrySize data = k.dev.bufEntry.size + data.length ∧
        0 < k.newEntrySize data ∧ k.newEntrySize data ≤ M ∧ k'.Intact ∧ (k.Owned → k'.Owned) ∧
        ∃ T a, T.length = k.dev.bufEntry.size ∧ (k.Intact → T = k.pending) ∧
          k'.log = TermLog.feed 10 newline ⟨T, k.commands⟩ data ∧ env.alloc.addr = some a ∧
          k'.dev = k.devAfter a (T ++ data))) := by
  rw [writeLocked] at hw
  cases hgrow : growEntry M env k data with
  | error f => simp [hgrow] at hw
  | ok p =>
      obtain ⟨k₁, o⟩ := p
      simp only [hgrow] at hw
      rcases growEntry_cases h.valid h.size_lt hgrow with
        ⟨rfl, hg, rfl⟩ | ⟨hg, hn, rfl, ⟨rfl, hu⟩ | ⟨rfl, hsize⟩⟩ |
        ⟨a, bs, haddr, hg, hpos, hM, hfree, hlen, htake, ⟨rfl, hu, rfl⟩ |
          ⟨rfl, hu, hsum, happ, rfl⟩⟩
      · -- the allocator refuses
        cases hw
        exact ⟨(h.dropEntry (Or.inl rfl) (Or.inl rfl) rfl).1, Or.inl ⟨rfl, hg, rfl⟩⟩
      · -- a request for no byte, of more than that
        cases hw
        obtain ⟨hinv, hcmds⟩ := h.dropEntry (Or.inr rfl) (Or.inr rfl) rfl
        refine ⟨hinv, Or.inr (Or.inl ⟨rfl, hg, hu, rfl, hcmds, rfl, by
          simp [Kernel.pending, Heap.bytesOf], ?_⟩)⟩
        intro hle _
        have hsize : k.dev.bufEntry.size = 0 := by omega
        simp [Kernel.pending, Heap.bytesOf, hsize]
      · -- nothing asked for and nothing there: the byte before the first is read
        simp [Aesd.commitEntry, Heap.load] at hw
      · -- the copy fails
        cases hw
        obtain ⟨hinv, hcmds⟩ := h.realloc bs hfree h.size_le h.size_lt
        have hpend : (k.realloc a bs k.dev.bufEntry.size).pending
            = bs.take k.dev.bufEntry.size := by
          rw [Kernel.pending, Heap.bytesOf]
          simp [Kernel.realloc]
        refine ⟨hinv, Or.inr (Or.inl ⟨rfl, hg, hu, rfl, hcmds, rfl, ?_, ?_⟩)⟩
        · rw [hpend, ← hlen]
          exact List.length_take_le' _ _
        · intro hle hint
          rw [hpend, htake hle hint]
      · -- the bytes arrive
        have hlt : k.newEntrySize data < 2 ^ 64 := sizeT_lt _
        obtain ⟨hinv, hcmds⟩ := h.realloc bs hfree hM hlt
        obtain ⟨hex, hpend⟩ := k.realloc_exact a hlen
        obtain ⟨k₂, hcommit, hinv₂, hint₂, howned, hdev, hlog⟩ := hinv.commitEntry hex hpos
        simp only [hcommit] at hw
        cases hw
        refine ⟨hinv₂, Or.inr (Or.inr ⟨rfl, hg, hu, hsum, hpos, hM, hint₂,
          fun ho => howned (ho.realloc a bs _), bs.take k.dev.bufEntry.size, a, ?_,
          fun hint => htake (by omega) hint, ?_, haddr, ?_⟩)⟩
        · rw [List.length_take, hlen]
          omega
        · rw [hlog, TermLog.feed, Kernel.log, hcmds, hpend, ← happ]
        · rw [hdev, hpend, Kernel.devAfter, ← happ, hlen]
          rfl

/-- **A write that is let succeed feeds its bytes to the log** and returns their number. -/
theorem Kernel.Inv.writeLocked_log {M : ℕ} {env : WriteEnv} {k k' : Kernel} {data : List UInt8}
    {r : ℤ} (h : k.Inv M) (hint : k.Intact) (hg : k.WriteGranted M env data)
    (hu : uncopied env.left data.length = 0) (hw : writeLocked M env k data = .ok (k', r)) :
    r = int64 data.length ∧ k'.Inv M ∧ k'.Intact ∧
      k'.log = TermLog.feed 10 newline k.log data := by
  obtain ⟨hinv, ⟨-, hng, -⟩ | ⟨-, -, hu', -⟩ |
    ⟨hr, -, -, -, -, -, hint', -, T, -, -, hT, hlog, -⟩⟩ := h.writeLocked_cases hw
  · exact absurd hg hng
  · exact absurd hu hu'
  · exact ⟨hr, hinv, hint', by rw [hlog, hT hint]; rfl⟩

/-- **A write of at least one byte, or behind one, ends without a fault.** -/
theorem Kernel.Inv.writeLocked_ok {M : ℕ} {k : Kernel} (h : k.Inv M) (env : WriteEnv)
    (data : List UInt8) (hpos : 0 < k.dev.bufEntry.size + data.length)
    (hlt : k.dev.bufEntry.size + data.length < 2 ^ 64) :
    ∃ k' r, writeLocked M env k data = .ok (k', r) := by
  obtain ⟨k₁, o, hgrow⟩ := growEntry_ok M env h.valid hpos hlt
  rw [writeLocked, hgrow]
  cases o with
  | some err => exact ⟨k₁, err, rfl⟩
  | none =>
      have hn := newEntrySize_of_lt hlt
      rcases growEntry_cases h.valid h.size_lt hgrow with
        ⟨ho, -⟩ | ⟨-, hn0, -⟩ |
        ⟨a, bs, -, -, hp, hM, hfree, hlen, -, ⟨ho, -⟩ | ⟨-, -, -, -, rfl⟩⟩
      · cases ho
      · omega
      · cases ho
      · obtain ⟨k₂, hcommit, -⟩ := (h.realloc bs hfree hM (by omega)).1.commitEntry
          (k.realloc_exact a hlen).1 hp
        simp only [hcommit]
        exact ⟨_, _, rfl⟩

/-- A write either stops before it takes the mutex, or is the write with the mutex held. -/
theorem aesdWrite_cases {M : ℕ} {env : WriteEnv} {k k' : Kernel} {filp : Option File}
    {buf : Option (List UInt8)} {r : ℤ} (hw : aesdWrite M env k filp buf = .ok (k', r)) :
    (k' = k ∧ (r = -EINVAL ∨ r = -ENODEV ∨ r = -ERESTARTSYS)) ∨
    (∃ fp data, filp = some fp ∧ buf = some data ∧ fp.privateData = true ∧
      env.interrupted = false ∧ writeLocked M env k data = .ok (k', r)) := by
  rw [aesdWrite.eq_def] at hw
  split at hw
  · next fp data =>
      split at hw
      · cases hw
        exact Or.inl ⟨rfl, Or.inr (Or.inl rfl)⟩
      · next hopen =>
          split at hw
          · cases hw
            exact Or.inl ⟨rfl, Or.inr (Or.inr rfl)⟩
          · next hwait =>
              exact Or.inr ⟨fp, data, rfl, rfl, by simpa using hopen, by simpa using hwait, hw⟩
  · cases hw
    exact Or.inl ⟨rfl, Or.inl rfl⟩

/-! ### Calls -/

/-- The bytes a call offers to the device. -/
def Call.written : Call → List UInt8
  | .write _ (some data) _ => data
  | _ => []

/-- **Only a write changes what is stored.** -/
theorem Sys.call_kern {M : ℕ} {s s' : Sys} {c : Call} {r : Reply} (h : s.call M c = .ok (s', r)) :
    (s'.kern = s.kern ∧ (0 ≤ r.retval → c.written = [])) ∨
      ∃ f data env, c = .write (some f) (some data) env ∧ (s.file f).privateData = true ∧
        env.interrupted = false ∧ s'.file = s.file ∧ r.data = [] ∧
        writeLocked M env s.kern data = .ok (s'.kern, r.retval) := by
  cases c with
  | openFile f =>
      obtain ⟨rfl, -⟩ := Prod.mk.inj (Except.ok.inj h)
      exact Or.inl ⟨rfl, fun _ => rfl⟩
  | releaseFile f =>
      obtain ⟨rfl, -⟩ := Prod.mk.inj (Except.ok.inj h)
      exact Or.inl ⟨rfl, fun _ => rfl⟩
  | read f buf count env =>
      simp only [Sys.call] at h
      split at h
      · cases h
      · cases f with
        | none =>
            obtain ⟨rfl, -⟩ := Prod.mk.inj (Except.ok.inj h)
            exact Or.inl ⟨rfl, fun _ => rfl⟩
        | some f =>
            obtain ⟨rfl, -⟩ := Prod.mk.inj (Except.ok.inj h)
            exact Or.inl ⟨rfl, fun _ => rfl⟩
  | write f buf env =>
      simp only [Sys.call] at h
      split at h
      · cases h
      · next k r₁ hw =>
          cases h
          rcases aesdWrite_cases hw with ⟨rfl, hneg⟩ | ⟨fp, data, hf, rfl, hopen, hwait, hlocked⟩
          · refine Or.inl ⟨rfl, fun (hr : 0 ≤ r₁) => ?_⟩
            simp only [EINVAL, ENODEV, ERESTARTSYS] at hneg
            omega
          · obtain ⟨f, rfl, rfl⟩ := Option.map_eq_some_iff.1 hf
            exact Or.inr ⟨f, data, env, rfl, hopen, hwait, rfl, rfl, hlocked⟩
  | llseek f off whence =>
      simp only [Sys.call] at h
      split at h
      · cases h
      · obtain ⟨rfl, -⟩ := Prod.mk.inj (Except.ok.inj h)
        exact Or.inl ⟨rfl, fun _ => rfl⟩
  | ioctl f cmd env =>
      simp only [Sys.call] at h
      split at h
      · cases h
      · obtain ⟨rfl, -⟩ := Prod.mk.inj (Except.ok.inj h)
        exact Or.inl ⟨rfl, fun _ => rfl⟩

/-- A call keeps the invariant. -/
theorem Kernel.Inv.call {M : ℕ} {s s' : Sys} {c : Call} {r : Reply} (h : s.kern.Inv M)
    (hc : s.call M c = .ok (s', r)) : s'.kern.Inv M := by
  rcases Sys.call_kern hc with ⟨heq, -⟩ | ⟨f, data, env, -, -, -, -, -, hw⟩
  · rwa [heq]
  · exact (h.writeLocked_cases hw).1

/-- **The invariant holds in every reachable state.** -/
theorem Reachable.inv {M : ℕ} {s : Sys} (h : Reachable M s) : s.kern.Inv M :=
  h.invariant (I := fun s => s.kern.Inv M) (Kernel.Inv.init M) fun _ _ _ _ hI _ hstep =>
    hI.call (charDev_step.1 hstep)

/-- The last state of a computed run from the loaded module is reachable. -/
theorem reachable_of_run {M : ℕ} {cs : List Call} {s : Sys} {rs : List Reply}
    (h : (charDev M).run Sys.init cs = some (s, rs)) : Reachable M s :=
  ⟨_, Machine.trace_of_run h (Machine.passes_free _ _)⟩

end Aesd
