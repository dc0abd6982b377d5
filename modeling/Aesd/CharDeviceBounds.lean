/-
**Which accesses of the driver stay inside the blocks.**

The driver touches the bytes of its blocks at four places: a read copies a range of an entry to the
user, a write copies the user's bytes behind those already there and then looks at the last byte,
and the search, with `AESD_DEBUG` defined as it is, prints the entry it has found.  That the two
copies stay inside is the invariant's doing — the size of an entry is the length of its block, and
a granted request has room for the bytes it was made for.  The look at the last byte computes its
index by subtracting one from the size, and a write of no byte to an empty command makes that size
zero: the block it has just obtained has no byte, and the index is the largest `size_t`.  The print
is a `%s`: it reads on until it finds a zero byte, and the driver never puts one behind a command.

The search and the read of the model leave the print out, since nothing they return depends on it;
it is an access of its own here, and `Sys.debugCall` is the call that makes it.

* `readCount`, `Kernel.ReadInside`, `Kernel.WriteInside` — the ranges, as the code computes them;
* `Kernel.Inv.readInside` — reads stay inside;
* `Kernel.Inv.writeInside_iff` — **writes do, unless the size they arrive at is zero or wraps
  around**;
* `Heap.printString`, `Kernel.PrintInside`, `Sys.debugCall` — the print of the search;
* `Kernel.Inv.printInside_iff` — **it stays inside exactly if the command that is found contains a
  zero byte**;
* `Sys.Inside`, `Sys.Tame` — all accesses of a call, and the condition on the call;
* `Kernel.Inv.debugCall_ok` — calls that meet it end without a fault;
* `reachable_inside` — the same, in every reachable state;
* `empty_write_outside`, `line_read_outside` — a write of no byte, and a read of a line.
-/

import Aesd.CharDeviceLlseek
import Aesd.CharDeviceSeek

set_option relaxedAutoImplicit false
set_option autoImplicit false

namespace Aesd

/-! ### Reads -/

/-- The number of bytes that a read takes of an entry. -/
def readCount (size entryOffset count : ℕ) : ℤ :=
  let available := int64 (sizeT ((size : ℤ) - entryOffset))
  if count < sizeT available then int64 count else available

/-- The range that a read copies to the user lies inside the block of the entry. -/
def Kernel.ReadInside (k : Kernel) (count : ℕ) (fPos : ℤ) : Prop :=
  ∀ i entryOffset, k.dev.circularBuf.findEntryOffsetForFpos (sizeT fPos) = some (i, entryOffset) →
    entryOffset + sizeT (readCount (k.dev.circularBuf.entry i).size entryOffset count)
      ≤ (k.heap.contents (k.dev.circularBuf.entry i).buffptr).length

/-- The range is the one that `aesd_read` copies. -/
theorem readLocked_range (left : ℕ) (k : Kernel) (count : ℕ) (fPos : ℤ) :
    readLocked left k count fPos
      = match k.dev.circularBuf.findEntryOffsetForFpos (sizeT fPos) with
        | none => .ok ⟨0, fPos, []⟩
        | some (i, entryOffset) =>
            let n := readCount (k.dev.circularBuf.entry i).size entryOffset count
            match copyToUser left k.heap (k.dev.circularBuf.entry i).buffptr entryOffset
              (sizeT n) with
            | .error f => .error f
            | .ok (uncopied, data) =>
                if uncopied ≠ 0 then .ok ⟨-EFAULT, fPos, data⟩ else .ok ⟨n, fPos + n, data⟩ := rfl

/-- A read takes no more than what is left of the entry. -/
theorem sizeT_readCount_le (size : ℕ) {entryOffset : ℕ} (hsize : size < 2 ^ 63)
    (ho : entryOffset ≤ size) (count : ℕ) :
    sizeT (readCount size entryOffset count) ≤ size - entryOffset := by
  have havail : int64 (sizeT ((size : ℤ) - entryOffset)) = ((size - entryOffset : ℕ) : ℤ) := by
    rw [← Int.ofNat_sub ho, sizeT_of_lt (by omega)]
    exact int64_of_range (by omega) (by omega)
  have hback : sizeT ((size - entryOffset : ℕ) : ℤ) = size - entryOffset := sizeT_of_lt (by omega)
  simp only [readCount, havail, hback]
  split
  · rw [sizeT_int64_of_lt (by omega)]
    omega
  · exact hback.le

/-- **Reads stay inside**, at every position. -/
theorem Kernel.Inv.readInside {M : ℕ} {k : Kernel} (h : k.Inv M) (hflat : k.flat.length < 2 ^ 31)
    (count : ℕ) (fPos : ℤ) : k.ReadInside count fPos := by
  intro i entryOffset hfind
  rw [h.find_eq hflat, Option.map_eq_some_iff] at hfind
  obtain ⟨⟨j, o⟩, hloc, heq⟩ := hfind
  obtain ⟨rfl, rfl⟩ := Prod.mk.inj heq
  obtain ⟨c, hc, ho, -, -⟩ := Segments.drop_flatten hloc
  obtain ⟨hsize, hbytes⟩ := h.slot hc
  have hclt := Kernel.length_le_flat (List.mem_of_getElem? hc)
  have hcount := sizeT_readCount_le c.length (by omega) ho.le count
  have hroom : c.length ≤ (k.heap.contents (k.dev.circularBuf.entry
      (Fin.ofNat 10 (k.dev.circularBuf.outOffs + j))).buffptr).length := by
    rw [← hbytes, Heap.bytesOf, List.length_take]
    exact min_le_right _ _
  rw [hsize]
  exact (Nat.add_le_add_left hcount o).trans (le_trans (by omega) hroom)

/-- A copy of a range inside a block ends without a fault. -/
theorem copyToUser_ok (left : ℕ) {h : Heap} {p : KPtr} {off n : ℕ}
    (hle : off + n ≤ (h.contents p).length) : ∃ u bs, copyToUser left h p off n = .ok (u, bs) := by
  by_cases hn : INT_MAX < n
  · exact ⟨_, _, if_pos hn⟩
  · exact ⟨_, _, copyToUser_of_le left (by omega) hle⟩

theorem Kernel.ReadInside.readLocked_ok {k : Kernel} {count : ℕ} {fPos : ℤ}
    (h : k.ReadInside count fPos) (left : ℕ) : ∃ r, readLocked left k count fPos = .ok r := by
  rw [readLocked_range]
  cases hfind : k.dev.circularBuf.findEntryOffsetForFpos (sizeT fPos) with
  | none => exact ⟨_, rfl⟩
  | some q =>
      obtain ⟨i, entryOffset⟩ := q
      obtain ⟨u, bs, hcopy⟩ := copyToUser_ok left (h i entryOffset hfind)
      simp only [hcopy]
      split
      · exact ⟨_, rfl⟩
      · exact ⟨_, rfl⟩

/-! ### Writes -/

/-- If the write obtains a block, the range that it copies from the user lies inside it; and if the
copy is complete, so does the byte that it looks at. -/
def Kernel.WriteInside (M : ℕ) (env : WriteEnv) (k : Kernel) (data : List UInt8) : Prop :=
  ∀ heap buffptr,
    krealloc M env.alloc k.heap k.dev.bufEntry.buffptr (k.newEntrySize data) = .ok (heap, buffptr) →
    buffptr ≠ .null →
    k.dev.bufEntry.size + data.length ≤ (heap.contents buffptr).length ∧
    (uncopied env.left data.length = 0 →
      sizeT ((k.newEntrySize data : ℤ) - 1) < (heap.contents buffptr).length)

/-- The block that a write obtains has the length it asked for. -/
theorem Kernel.Inv.krealloc_length {M : ℕ} {k : Kernel} (h : k.Inv M) {env : WriteEnv}
    {data : List UInt8} (hg : k.WriteGranted M env data) :
    ∃ heap buffptr,
      krealloc M env.alloc k.heap k.dev.bufEntry.buffptr (k.newEntrySize data)
        = .ok (heap, buffptr) ∧ buffptr ≠ .null ∧
      (heap.contents buffptr).length = k.newEntrySize data := by
  rcases krealloc_cases M env.alloc (k.newEntrySize data) h.valid with
    ⟨hng, -, -⟩ | ⟨hn, hk⟩ | ⟨a, -, -, -, -, hk⟩
  · exact absurd hg hng
  · exact ⟨_, _, hk, by rintro ⟨⟩, by rw [hn, Heap.contents_zeroSize]; rfl⟩
  · exact ⟨_, _, hk, by rintro ⟨⟩, by rw [Heap.contents_store_self, resize_length]⟩

/-- **A write stays inside the block it obtains** exactly if the size it arrives at is positive and
does not wrap around. -/
theorem Kernel.Inv.writeInside_iff {M : ℕ} {k : Kernel} (h : k.Inv M) (env : WriteEnv)
    (data : List UInt8) :
    k.WriteInside M env data ↔ (k.WriteGranted M env data →
      0 < k.dev.bufEntry.size + data.length ∧ k.dev.bufEntry.size + data.length < 2 ^ 64) := by
  constructor
  · intro hin hg
    obtain ⟨heap, buffptr, hk, hnull, hlen⟩ := h.krealloc_length hg
    obtain ⟨hrange, hlast⟩ := hin heap buffptr hk hnull
    have hlt : k.newEntrySize data < 2 ^ 64 := sizeT_lt _
    rw [hlen] at hrange
    refine ⟨Nat.pos_of_ne_zero ?_, by omega⟩
    intro hzero
    -- no byte to copy, so the byte before the first one is looked at
    have hu : uncopied env.left data.length = 0 := by
      have := uncopied_le env.left data.length
      omega
    have hindex := hlast hu
    rw [hlen, newEntrySize_of_lt (by omega), hzero] at hindex
    exact absurd hindex (Nat.not_lt_zero _)
  · intro hcond heap buffptr hk hnull
    have hg : k.WriteGranted M env data := by
      by_contra hg
      rw [krealloc_null h.valid hg] at hk
      exact hnull (Prod.mk.inj (Except.ok.inj hk)).2.symm
    obtain ⟨hpos, hlt⟩ := hcond hg
    obtain ⟨heap', buffptr', hk', -, hlen⟩ := h.krealloc_length hg
    rw [hk] at hk'
    cases hk'
    have hn := newEntrySize_of_lt hlt
    refine ⟨by omega, ?_⟩
    intro _
    rw [hlen, show ((k.newEntrySize data : ℤ) - 1) = ((k.newEntrySize data - 1 : ℕ) : ℤ) by omega,
      sizeT_of_lt (by omega)]
    omega

/-! ### The print of the search -/

/-- What `printk` reads for a `%s`: the bytes up to the first zero byte, which is read too.  `NULL`
and the pointer of size zero are not followed; a word of `printk`'s own is printed for them. -/
def Heap.printString (h : Heap) : KPtr → Except Fault (List UInt8)
  | .block a =>
      if 0 ∈ h.contents (.block a) then .ok ((h.contents (.block a)).takeWhile (· ≠ 0))
      else .error .badAccess
  | _ => .ok []

/-- What the search prints of the entry it has found. -/
def Kernel.printEntry (k : Kernel) (fPos : ℤ) : Except Fault (List UInt8) :=
  match k.dev.circularBuf.findEntryOffsetForFpos (sizeT fPos) with
  | none => .ok []
  | some (i, _) => k.heap.printString (k.dev.circularBuf.entry i).buffptr

/-- The string that the search prints ends inside the block of the entry it has found. -/
def Kernel.PrintInside (k : Kernel) (fPos : ℤ) : Prop :=
  ∀ i entryOffset, k.dev.circularBuf.findEntryOffsetForFpos (sizeT fPos) = some (i, entryOffset) →
    0 ∈ k.heap.contents (k.dev.circularBuf.entry i).buffptr

/-- The command that holds the position, if there is one, contains a zero byte. -/
def Kernel.Terminated (k : Kernel) (fPos : ℤ) : Prop :=
  ∀ j o c, Segments.locate (k.commands.map List.length) (sizeT fPos) = some (j, o) →
    k.commands[j]? = some c → 0 ∈ c

/-- The block of a command holds its bytes and no others. -/
theorem Kernel.Inv.slot_contents {M : ℕ} {k : Kernel} (h : k.Inv M) {j : ℕ} {c : List UInt8}
    (hj : k.commands[j]? = some c) :
    k.heap.contents (k.dev.circularBuf.entry (Fin.ofNat 10 (k.dev.circularBuf.outOffs + j))).buffptr
      = c := by
  rw [Kernel.commands, List.getElem?_map, Option.map_eq_some_iff] at hj
  obtain ⟨e, he, rfl⟩ := hj
  rw [AesdCircularBuffer.entry_ofNat _ he]
  exact (Heap.bytesOf_of_length (h.commands e (List.mem_of_getElem? he)).length).symm

/-- **The print stays inside** exactly if the command that is found contains a zero byte. -/
theorem Kernel.Inv.printInside_iff {M : ℕ} {k : Kernel} (h : k.Inv M)
    (hflat : k.flat.length < 2 ^ 31) (fPos : ℤ) : k.PrintInside fPos ↔ k.Terminated fPos := by
  constructor
  · intro hin j o c hloc hc
    have hfind : k.dev.circularBuf.findEntryOffsetForFpos (sizeT fPos)
        = some (Fin.ofNat 10 (k.dev.circularBuf.outOffs + j), o) := by
      rw [h.find_eq hflat, hloc]
      rfl
    have hmem := hin _ _ hfind
    rwa [h.slot_contents hc] at hmem
  · intro hterm i entryOffset hfind
    rw [h.find_eq hflat, Option.map_eq_some_iff] at hfind
    obtain ⟨⟨j, o⟩, hloc, heq⟩ := hfind
    obtain ⟨rfl, rfl⟩ := Prod.mk.inj heq
    obtain ⟨c, hc, -⟩ := Segments.drop_flatten hloc
    rw [h.slot_contents hc]
    exact hterm j o c hloc hc

theorem Kernel.PrintInside.printEntry_ok {k : Kernel} {fPos : ℤ} (h : k.PrintInside fPos) :
    ∃ text, k.printEntry fPos = .ok text := by
  rw [Kernel.printEntry]
  cases hfind : k.dev.circularBuf.findEntryOffsetForFpos (sizeT fPos) with
  | none => exact ⟨_, rfl⟩
  | some q =>
      obtain ⟨i, entryOffset⟩ := q
      have hzero := h i entryOffset hfind
      change ∃ text, k.heap.printString (k.dev.circularBuf.entry i).buffptr = .ok text
      cases hptr : (k.dev.circularBuf.entry i).buffptr with
      | null => exact ⟨_, rfl⟩
      | zeroSize => exact ⟨_, rfl⟩
      | block a =>
          rw [hptr] at hzero
          exact ⟨_, if_pos hzero⟩

/-! ### Calls -/

/-- The count and the position of a read that gets to the search. -/
def Sys.searching (s : Sys) : Call → Option (ℕ × ℤ)
  | .read (some f) true count env =>
      if (s.file f).privateData = true ∧ env.interrupted = false then some (count, (s.file f).fPos)
      else none
  | _ => none

/-- The environment and the bytes of a write that gets to the allocator. -/
def Sys.growing (s : Sys) : Call → Option (WriteEnv × List UInt8)
  | .write (some f) (some data) env =>
      if (s.file f).privateData = true ∧ env.interrupted = false then some (env, data) else none
  | _ => none

/-- **Every access of the call lies inside the block it is made to.**  Calls other than reads and
writes touch no block. -/
def Sys.Inside (M : ℕ) (s : Sys) (c : Call) : Prop :=
  (∀ count fPos, s.searching c = some (count, fPos) →
    s.kern.ReadInside count fPos ∧ s.kern.PrintInside fPos) ∧
  (∀ env data, s.growing c = some (env, data) → s.kern.WriteInside M env data)

/-- What the calls that stay inside have in common: a read finds a command with a zero byte, or
none; a write obtains no block, or arrives at a size that is positive and does not wrap around. -/
def Sys.Tame (M : ℕ) (s : Sys) (c : Call) : Prop :=
  (∀ count fPos, s.searching c = some (count, fPos) → s.kern.Terminated fPos) ∧
  (∀ env data, s.growing c = some (env, data) → s.kern.WriteGranted M env data →
    0 < s.kern.dev.bufEntry.size + data.length ∧ s.kern.dev.bufEntry.size + data.length < 2 ^ 64)

/-- One system call, with the print of the search. -/
def Sys.debugCall (M : ℕ) (s : Sys) (c : Call) : Except Fault (Sys × Reply) :=
  match s.searching c with
  | none => s.call M c
  | some (_, fPos) =>
      match s.kern.printEntry fPos with
      | .error f => .error f
      | .ok _ => s.call M c

theorem Kernel.Inv.inside_iff {M : ℕ} {s : Sys} (h : s.kern.Inv M)
    (hflat : s.kern.flat.length < 2 ^ 31) (c : Call) : s.Inside M c ↔ s.Tame M c := by
  constructor
  · rintro ⟨hread, hwrite⟩
    refine ⟨?_, ?_⟩
    · intro count fPos hs
      exact (h.printInside_iff hflat fPos).1 (hread count fPos hs).2
    · intro env data hg
      exact (h.writeInside_iff env data).1 (hwrite env data hg)
  · rintro ⟨hread, hwrite⟩
    refine ⟨?_, ?_⟩
    · intro count fPos hs
      exact ⟨h.readInside hflat count fPos, (h.printInside_iff hflat fPos).2 (hread count fPos hs)⟩
    · intro env data hg
      exact (h.writeInside_iff env data).2 (hwrite env data hg)

/-- A write that obtains no block, or one for a size that is positive and does not wrap around, ends
without a fault. -/
theorem Kernel.Inv.writeLocked_tame {M : ℕ} {k : Kernel} (h : k.Inv M) (env : WriteEnv)
    (data : List UInt8) (hsize : k.WriteGranted M env data →
      0 < k.dev.bufEntry.size + data.length ∧ k.dev.bufEntry.size + data.length < 2 ^ 64) :
    ∃ k' r, writeLocked M env k data = .ok (k', r) := by
  by_cases hg : k.WriteGranted M env data
  · exact h.writeLocked_ok env data (hsize hg).1 (hsize hg).2
  · have hnull : krealloc M env.alloc k.heap k.dev.bufEntry.buffptr
        (sizeT (k.dev.bufEntry.size + data.length)) = .ok (k.heap, .null) :=
      krealloc_null h.valid hg
    rw [writeLocked, growEntry]
    simp only [hnull]
    exact ⟨_, _, rfl⟩

/-- **A call that meets the condition ends without a fault**: no byte outside the blocks is touched,
nothing is freed twice, and every loop comes to its end. -/
theorem Kernel.Inv.call_ok {M : ℕ} (hM : 10 * M < 2 ^ 31) {s : Sys} (h : s.kern.Inv M) (c : Call)
    (hc : s.Tame M c) : ∃ s' r, s.call M c = .ok (s', r) := by
  have hflat : s.kern.flat.length < 2 ^ 31 := h.flat_le.trans_lt hM
  cases c with
  | openFile f => exact ⟨_, _, rfl⟩
  | releaseFile f => exact ⟨_, _, rfl⟩
  | read f buf count env =>
      obtain ⟨r, hr⟩ : ∃ r, aesdRead env s.kern (f.map s.file) buf count
          (((f.map s.file).map File.fPos).getD 0) = .ok r := by
        rw [aesdRead.eq_def]
        split
        · split
          · exact ⟨_, rfl⟩
          · split
            · exact ⟨_, rfl⟩
            · exact (h.readInside hflat count _).readLocked_ok env.left
        · exact ⟨_, rfl⟩
      simp only [Sys.call, hr]
      cases f with
      | none => exact ⟨_, _, rfl⟩
      | some f => exact ⟨_, _, rfl⟩
  | write f buf env =>
      obtain ⟨k, r, hw⟩ : ∃ k r, aesdWrite M env s.kern (f.map s.file) buf = .ok (k, r) := by
        cases f with
        | none => exact ⟨_, _, rfl⟩
        | some f =>
            cases buf with
            | none => exact ⟨_, _, rfl⟩
            | some data =>
                rw [Option.map_some, aesdWrite]
                split
                · exact ⟨_, _, rfl⟩
                · next hopen =>
                    split
                    · exact ⟨_, _, rfl⟩
                    · next hwait =>
                        exact h.writeLocked_tame env data (hc.2 env data
                          (if_pos ⟨by simpa using hopen, by simpa using hwait⟩))
      simp only [Sys.call, hw]
      exact ⟨_, _, rfl⟩
  | llseek f off whence =>
      obtain ⟨filp, r, hl⟩ : ∃ filp r, aesdLlseek s.kern (s.file f) off whence = .ok (filp, r) := by
        cases hopen : (s.file f).privateData with
        | false => exact ⟨_, _, if_pos hopen⟩
        | true =>
            have hle := h.size_le
            exact ⟨_, _, aesdLlseek_eq (by omega) hopen off whence⟩
      simp only [Sys.call, hl]
      exact ⟨_, _, rfl⟩
  | ioctl f cmd env =>
      obtain ⟨filp, r, hi⟩ := h.aesdIoctl_returns env (s.file f) cmd
      simp only [Sys.call, hi]
      exact ⟨_, _, rfl⟩

/-- The same with the print, which changes nothing of what the call does. -/
theorem Kernel.Inv.debugCall_ok {M : ℕ} (hM : 10 * M < 2 ^ 31) {s : Sys} (h : s.kern.Inv M)
    (c : Call) (hc : s.Tame M c) :
    ∃ s' r, s.debugCall M c = .ok (s', r) ∧ s.call M c = .ok (s', r) := by
  have hflat : s.kern.flat.length < 2 ^ 31 := h.flat_le.trans_lt hM
  obtain ⟨s', r, hcall⟩ := h.call_ok hM c hc
  refine ⟨s', r, ?_, hcall⟩
  rw [Sys.debugCall]
  cases hs : s.searching c with
  | none => exact hcall
  | some q =>
      obtain ⟨count, fPos⟩ := q
      obtain ⟨text, htext⟩ :=
        ((h.printInside_iff hflat fPos).2 (hc.1 count fPos hs)).printEntry_ok
      simp only [htext]
      exact hcall

/-- **Which accesses of the driver stay inside the blocks**, in every reachable state: the size of
every slot is at most the length of its block; the ranges of reads are inside at every position;
those of a write are inside the block it obtains exactly if the size it arrives at is positive and
does not wrap around; the print of the search is inside exactly if the command that is found
contains a zero byte.  So all accesses of a call are inside exactly if the call meets the condition
made of the two, and a call that meets it ends without a fault, print included. -/
theorem reachable_inside {M : ℕ} (hM : 10 * M < 2 ^ 31) {s : Sys} (hs : Reachable M s) :
    (∀ i, (s.kern.dev.circularBuf.entry i).size
      ≤ (s.kern.heap.contents (s.kern.dev.circularBuf.entry i).buffptr).length) ∧
    (∀ (count : ℕ) (fPos : ℤ), s.kern.ReadInside count fPos) ∧
    (∀ (env : WriteEnv) (data : List UInt8),
      s.kern.WriteInside M env data ↔ (s.kern.WriteGranted M env data →
        0 < s.kern.dev.bufEntry.size + data.length ∧
          s.kern.dev.bufEntry.size + data.length < 2 ^ 64)) ∧
    (∀ fPos : ℤ, s.kern.PrintInside fPos ↔ s.kern.Terminated fPos) ∧
    (∀ c, s.Inside M c ↔ s.Tame M c) ∧
    (∀ c, s.Tame M c → ∃ s' r, s.debugCall M c = .ok (s', r) ∧ s.call M c = .ok (s', r)) := by
  have h := hs.inv
  have hflat : s.kern.flat.length < 2 ^ 31 := h.flat_le.trans_lt hM
  refine ⟨?_, h.readInside hflat, h.writeInside_iff, h.printInside_iff hflat, h.inside_iff hflat,
    h.debugCall_ok hM⟩
  intro i
  rcases h.ring.entry_mem i with hmem | hzero
  · exact (h.commands _ hmem).length.ge
  · rw [hzero]
    exact Nat.zero_le _

/-- The bytes `a`, zero, newline are stored and `b` is pending: a write of `c` behind the pending
byte stays inside, and so does a read of the command, which serves it. -/
theorem reachable_inside_zero_byte :
    ∃ s, Reachable 64 s ∧ s.kern.commands = [[97, 0, 10]] ∧ s.kern.pending = [98] ∧
      s.Inside 64 (.write (some 0) (some [99]) ⟨false, ⟨some 2, fun _ => 7⟩, 0⟩) ∧
      s.Inside 64 (.read (some 0) true 512 ⟨false, 0⟩) ∧
      ∃ s', s.debugCall 64 (.read (some 0) true 512 ⟨false, 0⟩) = .ok (s', ⟨3, [97, 0, 10]⟩) := by
  have hstate : ((charDev 64).run Sys.init
      [.openFile 0, .write (some 0) (some [97, 0, 10]) ⟨false, ⟨some 0, fun _ => 7⟩, 0⟩,
        .write (some 0) (some [98]) ⟨false, ⟨some 1, fun _ => 7⟩, 0⟩]).map
        (fun p => (p.1.kern.commands, p.1.kern.pending,
          (p.1.call 64 (.read (some 0) true 512 ⟨false, 0⟩)).toOption.map Prod.snd))
      = some ([[97, 0, 10]], [98], some ⟨3, [97, 0, 10]⟩) := by decide
  obtain ⟨⟨s, rs⟩, hrun, hstate⟩ := Option.map_eq_some_iff.1 hstate
  obtain ⟨hcmds, hrest⟩ := Prod.mk.inj hstate
  obtain ⟨hpending, hread⟩ := Prod.mk.inj hrest
  have hs := reachable_of_run hrun
  obtain ⟨-, -, -, -, hinside, hok⟩ := reachable_inside (by decide) hs
  have hcmds' : s.kern.commands = [[97, 0, 10]] := hcmds
  have htame : s.Tame 64 (.read (some 0) true 512 ⟨false, 0⟩) := by
    constructor
    · intro count fPos _ j o c _ hc
      have hmem := List.mem_of_getElem? hc
      rw [hcmds', List.mem_singleton] at hmem
      rw [hmem]
      decide
    · intro _ _ hno
      cases hno
  have hgrow : s.Tame 64 (.write (some 0) (some [99]) ⟨false, ⟨some 2, fun _ => 7⟩, 0⟩) := by
    constructor
    · intro _ _ hno
      cases hno
    · intro env data hg _
      have hsize := hs.inv.size_le
      rw [Sys.growing, Option.ite_none_right_eq_some] at hg
      obtain ⟨-, heq⟩ := hg
      obtain ⟨-, rfl⟩ := Prod.mk.inj (Option.some.inj heq)
      rw [List.length_singleton]
      omega
  obtain ⟨s', r, hdebug, hcall⟩ := hok _ htame
  have hr : some r = some ⟨3, [97, 0, 10]⟩ := by
    rw [← hread, hcall]
    rfl
  rw [Option.some.inj hr] at hdebug
  exact ⟨s, hs, hcmds', hpending, (hinside _).2 hgrow, (hinside _).2 htame, s', hdebug⟩

/-- **A write of no byte to the freshly loaded device** looks at the byte before the first one of a
block without bytes. -/
theorem empty_write_outside :
    ¬ ∀ M : ℕ, 10 * M < 2 ^ 31 → ∀ s : Sys, Reachable M s → ∀ c, s.Inside M c := by
  intro h
  have hstep : (charDev 64).step Sys.init (.openFile 0)
      = some (Sys.init.setFile 0 ⟨true, 0⟩, ⟨0, []⟩) := rfl
  have hin := h 64 (by decide) _ (Machine.Reach.refl.step trivial hstep)
    (.write (some 0) (some []) ⟨false, ⟨none, fun _ => 7⟩, 0⟩)
  have hwrite := hin.2 ⟨false, ⟨none, fun _ => 7⟩, 0⟩ [] rfl
  have hsize := ((Kernel.Inv.init 64).writeInside_iff _ _).1 hwrite (Or.inl rfl)
  exact absurd hsize.1 (by decide)

/-- **A read of the line `a`** prints past the end of the block: there is no zero byte in it. -/
theorem line_read_outside :
    ∃ s, Reachable 64 s ∧ s.kern.commands = [[97, 10]] ∧
      ¬ s.Inside 64 (.read (some 0) true 512 ⟨false, 0⟩) ∧
      s.debugCall 64 (.read (some 0) true 512 ⟨false, 0⟩) = .error .badAccess := by
  have hstate : ((charDev 64).run Sys.init
      [.openFile 0, .write (some 0) (some [97, 10]) ⟨false, ⟨some 0, fun _ => 7⟩, 0⟩]).map
        (fun p => (p.1.kern.commands, p.1.file 0, p.1.kern.printEntry 0))
      = some ([[97, 10]], ⟨true, 0⟩, .error .badAccess) := by decide
  obtain ⟨⟨s, rs⟩, hrun, hstate⟩ := Option.map_eq_some_iff.1 hstate
  obtain ⟨hcmds, hrest⟩ := Prod.mk.inj hstate
  obtain ⟨hfile, hprint⟩ := Prod.mk.inj hrest
  have hsearch : s.searching (.read (some 0) true 512 ⟨false, 0⟩) = some (512, 0) := by
    change s.file 0 = ⟨true, 0⟩ at hfile
    simp only [Sys.searching, hfile]
    rfl
  refine ⟨s, reachable_of_run hrun, hcmds, ?_, ?_⟩
  · intro hin
    obtain ⟨text, htext⟩ := (hin.1 512 0 hsearch).2.printEntry_ok
    exact absurd (htext.symm.trans hprint) (by rintro ⟨⟩)
  · rw [Sys.debugCall, hsearch]
    have hprint' : s.kern.printEntry 0 = .error .badAccess := hprint
    simp only [hprint']

end Aesd
