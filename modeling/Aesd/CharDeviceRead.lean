/-
**Reads serve the stored bytes, in order.**

A reader sees the commands of the ring, oldest first, as one stream of bytes; a read returns what is
left of the command that holds the file position, or as much of it as fits, and moves the position
behind it.  The driver finds the command by walking all ten slots, whatever the indices and the
`full` flag say, so that this works is due to the invariant of the ring: unused slots have size
zero.  Reading on from any position with any positive counts yields the stream from there to its
end, and then zero.

* `Kernel.Inv.readLocked_inside`, `Kernel.Inv.readLocked_end` — the result of a read;
* `Kernel.Serves`, `Kernel.Inv.readLocked_serves` — **the law of a single read**;
* `Kernel.Inv.reads_drain` — reading until zero yields exactly the rest of the stream.
-/

import Aesd.CharDeviceInv

set_option relaxedAutoImplicit false
set_option autoImplicit false

namespace Aesd

/-! ### The result of a read -/

theorem sizeT_int64_of_lt {n : ℕ} (h : n < 2 ^ 63) : sizeT (int64 n) = n := by
  rw [int64_of_range (by omega) (by omega), sizeT_of_lt (by omega)]

/-- A copy of bytes that are there. -/
theorem copyToUser_of_le (left : ℕ) {h : Heap} {p : KPtr} {off n : ℕ} (hn : n ≤ INT_MAX)
    (hle : off + n ≤ (h.contents p).length) :
    copyToUser left h p off n = .ok (uncopied left n,
      (((h.contents p).drop off).take n).take (n - uncopied left n)) := by
  rw [copyToUser, if_neg (by omega), Heap.read_of_le hle]

/-- The bytes of an entry, from an offset on, are in its block. -/
theorem Heap.drop_take_bytesOf (h : Heap) (e : AesdBufferEntry) {o n : ℕ} (hle : o + n ≤ e.size) :
    ((h.contents e.buffptr).drop o).take n = ((h.bytesOf e).drop o).take n := by
  rw [Heap.bytesOf, List.drop_take, List.take_take, min_eq_left (by omega)]

/-- A command is no longer than all that is stored. -/
theorem Kernel.length_le_flat {k : Kernel} {c : List UInt8} (hc : c ∈ k.commands) :
    c.length ≤ k.flat.length := by
  rw [Kernel.flat, List.length_flatten]
  exact List.single_le_sum (by simp) _ (List.mem_map.2 ⟨c, hc, rfl⟩)

/-- **A read inside command `j` at offset `o`** takes what is left of the command, or the count. -/
theorem Kernel.Inv.readLocked_inside {M : ℕ} {k : Kernel} (h : k.Inv M)
    (hflat : k.flat.length < 2 ^ 31) (left count : ℕ) {p j o n : ℕ} {c : List UInt8}
    (hp : p < 2 ^ 63) (hloc : Segments.locate (k.commands.map List.length) p = some (j, o))
    (hc : k.commands[j]? = some c) (hn : n = min count (c.length - o)) :
    readLocked left k count p = .ok (if uncopied left n = 0 then ⟨n, p + n, (c.drop o).take n⟩
      else ⟨-EFAULT, p, ((c.drop o).take n).take (n - uncopied left n)⟩) := by
  obtain ⟨hsize, hbytes⟩ := h.slot hc
  set e := k.dev.circularBuf.entry (Fin.ofNat 10 (k.dev.circularBuf.outOffs + j)) with he
  obtain ⟨c', hc', ho, -, -⟩ := Segments.drop_flatten hloc
  obtain rfl : c = c' := Option.some.inj (hc.symm.trans hc')
  have hclt : c.length < 2 ^ 31 :=
    (Kernel.length_le_flat (List.mem_of_getElem? hc)).trans_lt hflat
  have havail : int64 (sizeT ((e.size : ℤ) - o)) = ((c.length - o : ℕ) : ℤ) := by
    rw [hsize, ← Int.ofNat_sub ho.le, sizeT_of_lt (by omega)]
    exact int64_of_range (by omega) (by omega)
  have hread : (if count < sizeT ((c.length - o : ℕ) : ℤ) then int64 count
      else ((c.length - o : ℕ) : ℤ)) = (n : ℤ) := by
    rw [sizeT_of_lt (by omega), hn]
    split
    · next hlt => rw [min_eq_left hlt.le, int64_of_range (by omega) (by omega)]
    · next hge => rw [min_eq_right (by omega)]
  have hroom : o + n ≤ (k.heap.contents e.buffptr).length := by
    have hlen : (k.heap.bytesOf e).length ≤ (k.heap.contents e.buffptr).length := by
      rw [Heap.bytesOf, List.length_take]
      exact min_le_right _ _
    rw [hbytes] at hlen
    omega
  have hcopy := copyToUser_of_le left (show n ≤ INT_MAX by rw [INT_MAX]; omega) hroom
  rw [Heap.drop_take_bytesOf k.heap e (by omega), hbytes] at hcopy
  simp only [readLocked, sizeT_of_lt (show p < 2 ^ 64 by omega), h.find_eq hflat, hloc,
    Option.map_some, ← he, havail, hread, sizeT_of_lt (show n < 2 ^ 64 by omega), hcopy]
  by_cases hu : uncopied left n = 0
  · simp [hu]
  · simp [hu]

/-- A read from the end on returns zero. -/
theorem Kernel.Inv.readLocked_end {M : ℕ} {k : Kernel} (h : k.Inv M)
    (hflat : k.flat.length < 2 ^ 31) (left count : ℕ) {p : ℕ} (hp : p < 2 ^ 63)
    (hend : k.flat.length ≤ p) : readLocked left k count p = .ok ⟨0, p, []⟩ := by
  have hloc : Segments.locate (k.commands.map List.length) p = none := by
    rw [Segments.locate_eq_none_iff, ← List.length_flatten]
    exact hend
  simp only [readLocked, sizeT_of_lt (show p < 2 ^ 64 by omega), h.find_eq hflat, hloc,
    Option.map_none]

/-! ### The law of a single read -/

/-- The bytes from position `p` on, `n` of them, lie inside command `j`. -/
def Kernel.Inside (k : Kernel) (j p n : ℕ) : Prop :=
  j < k.commands.length ∧ ((k.commands.take j).flatten).length ≤ p ∧
    p + n ≤ ((k.commands.take (j + 1)).flatten).length

/-- **The law of a read** from position `p` with a count: it returns a piece of the stream that
starts at `p`, is not longer than the count and lies inside one command, and moves the position
behind it; the piece is empty only at the end, or if the count is zero. -/
structure Kernel.Serves (k : Kernel) (p count : ℕ) (r : ReadResult) : Prop where
  retval : r.retval = r.data.length
  fPos : r.fPos = p + r.data.length
  stream : r.data <+: k.flat.drop p
  le_count : r.data.length ≤ count
  inside : p < k.flat.length → ∃ j, k.Inside j p r.data.length
  progress : 0 < count → p < k.flat.length → 0 < r.data.length
  atEnd : k.flat.length ≤ p → r.data = []

/-- A read with the mutex held ends without a fault, and unless the user copy fails it obeys the
law. -/
theorem Kernel.Inv.readLocked_serves {M : ℕ} {k : Kernel} (h : k.Inv M)
    (hflat : k.flat.length < 2 ^ 31) (left count : ℕ) {p : ℕ} (hp : p < 2 ^ 63) :
    ∃ r, readLocked left k count p = .ok r ∧
      ((r.retval = -EFAULT ∧ r.fPos = p ∧ 0 < left) ∨ k.Serves p count r) := by
  rcases Nat.lt_or_ge p k.flat.length with hlt | hend
  swap
  · refine ⟨_, h.readLocked_end hflat left count hp hend, Or.inr ?_⟩
    exact ⟨rfl, by simp, List.nil_prefix, Nat.zero_le _, fun hlt => by omega, fun _ _ => by omega,
      fun _ => rfl⟩
  · cases hloc : Segments.locate (k.commands.map List.length) p with
    | none =>
        rw [Segments.locate_eq_none_iff, ← List.length_flatten] at hloc
        exact absurd hlt (not_lt.2 hloc)
    | some q =>
        obtain ⟨j, o⟩ := q
        obtain ⟨c, hc, ho, hsum, hdrop⟩ := Segments.drop_flatten hloc
        have hread := h.readLocked_inside hflat left count hp hloc hc rfl
        set n := min count (c.length - o) with hn
        refine ⟨_, hread, ?_⟩
        by_cases hu : uncopied left n = 0
        · rw [if_pos hu]
          have hlen : ((c.drop o).take n).length = n := by simp; omega
          refine Or.inr ⟨by rw [hlen], by rw [hlen], ?_, by rw [hlen]; omega, fun _ => ⟨j, ?_⟩,
            fun hcount _ => by rw [hlen]; omega, fun hend => by omega⟩
          · rw [Kernel.flat, hdrop]
            exact (List.take_prefix _ _).trans (List.prefix_append _ _)
          · have hj := (List.getElem?_eq_some_iff.1 hc).1
            refine ⟨hj, by omega, ?_⟩
            rw [hlen, List.take_add_one, hc]
            simp only [Option.toList_some, List.flatten_append, List.length_append,
              List.flatten_cons, List.flatten_nil, List.length_nil, Nat.add_zero]
            omega
        · rw [if_neg hu]
          refine Or.inl ⟨rfl, rfl, ?_⟩
          by_contra hleft
          have hzero : left = 0 := by omega
          have hclt := Kernel.length_le_flat (List.mem_of_getElem? hc)
          have hnlt : n ≤ INT_MAX := by rw [INT_MAX]; omega
          exact hu (by rw [uncopied, if_neg (by omega), hzero, Nat.zero_min])

/-! ### Reading on -/

/-- `n` reads of one file, with the given counts; every user copy is complete. -/
def readCalls (f : ℕ) (counts : ℕ → ℕ) (n : ℕ) : List Call :=
  (List.range n).map fun i => .read (some f) true (counts i) ⟨false, 0⟩

theorem readCalls_succ (f : ℕ) (counts : ℕ → ℕ) (n : ℕ) :
    readCalls f counts (n + 1)
      = .read (some f) true (counts 0) ⟨false, 0⟩ :: readCalls f (fun i => counts (i + 1)) n := by
  rw [readCalls, List.range_succ_eq_map, List.map_cons, List.map_map]
  rfl

/-- What a read returns that moves `d` to the user. -/
def Reply.served (d : List UInt8) : Reply := ⟨d.length, d⟩

@[simp] theorem Sys.setFile_kern (s : Sys) (f : ℕ) (filp : File) :
    (s.setFile f filp).kern = s.kern := rfl

@[simp] theorem Sys.setFile_file_self (s : Sys) (f : ℕ) (filp : File) :
    (s.setFile f filp).file f = filp := Function.update_self ..

@[simp] theorem Sys.setFile_setFile (s : Sys) (f : ℕ) (filp filp' : File) :
    (s.setFile f filp).setFile f filp' = s.setFile f filp' := by
  simp only [Sys.setFile, Function.update_idem]

/-- One read as a step of the device. -/
theorem Kernel.Inv.call_read {M : ℕ} {s : Sys} (h : s.kern.Inv M)
    (hflat : s.kern.flat.length < 2 ^ 31) {f p : ℕ} (hp : p < 2 ^ 63)
    (hf : s.file f = ⟨true, p⟩) (count : ℕ) :
    ∃ d, s.kern.Serves p count ⟨d.length, p + d.length, d⟩ ∧
      s.call M (.read (some f) true count ⟨false, 0⟩)
        = .ok (s.setFile f ⟨true, (p + d.length : ℕ)⟩, .served d) := by
  obtain ⟨r, hr, ⟨-, -, hleft⟩ | hserves⟩ := h.readLocked_serves hflat 0 count hp
  · exact absurd hleft (lt_irrefl 0)
  · obtain ⟨retval, fPos, d⟩ := r
    obtain rfl : retval = d.length := hserves.retval
    obtain rfl : fPos = p + d.length := hserves.fPos
    refine ⟨d, hserves, ?_⟩
    simp only [Sys.call, aesdRead, Option.map_some, Option.getD_some, hf, hr]
    rfl

/-- **Reading from a position with positive counts until zero is returned takes at most as many
reads as there are bytes, and yields exactly the bytes from there on.** -/
theorem Kernel.Inv.reads_drain {M : ℕ} {s : Sys} (h : s.kern.Inv M)
    (hflat : s.kern.flat.length < 2 ^ 31) {f : ℕ} {counts : ℕ → ℕ} (hcounts : ∀ i, 0 < counts i)
    {p : ℕ} (hp : p < 2 ^ 63) (hf : s.file f = ⟨true, p⟩) :
    ∃ ds : List (List UInt8), ds.length ≤ s.kern.flat.length - p ∧ (∀ d ∈ ds, d ≠ []) ∧
      ds.flatten = s.kern.flat.drop p ∧
      (charDev M).run s (readCalls f counts (ds.length + 1))
        = some (s.setFile f ⟨true, (p + (s.kern.flat.length - p) : ℕ)⟩,
          ds.map Reply.served ++ [.served []]) := by
  induction hm : s.kern.flat.length - p using Nat.strong_induction_on
    generalizing s p counts with
  | _ m ih =>
      obtain ⟨d, hserves, hcall⟩ := h.call_read hflat hp hf (counts 0)
      have hstep := charDev_step.2 hcall
      rcases Nat.lt_or_ge p s.kern.flat.length with hlt | hend
      · have hd : 0 < d.length := hserves.progress (hcounts 0) hlt
        have hdle : d.length ≤ s.kern.flat.length - p := by
          rw [← List.length_drop]
          exact hserves.stream.length_le
        obtain ⟨ds, hlen, hne, hds, hrun⟩ := ih (s.kern.flat.length - (p + d.length)) (by omega)
          (s := s.setFile f ⟨true, (p + d.length : ℕ)⟩) h hflat (fun i => hcounts (i + 1))
          (by omega) (Sys.setFile_file_self ..) rfl
        refine ⟨d :: ds, by simp at hlen ⊢; omega, ?_, ?_, ?_⟩
        · rintro x (_ | ⟨_, hx⟩)
          · exact List.length_pos_iff.1 hd
          · exact hne x hx
        · rw [List.flatten_cons, hds, Sys.setFile_kern, ← List.drop_drop]
          obtain ⟨rest, hrest⟩ := hserves.stream
          rw [← hrest, List.drop_left]
        · rw [Sys.setFile_setFile,
            show p + d.length + (s.kern.flat.length - (p + d.length)) = p + m by omega] at hrun
          rw [List.length_cons, readCalls_succ]
          exact (Machine.run_cons_eq_some _).2 ⟨_, _, _, hstep, hrun, rfl⟩
      · obtain rfl : d = [] := hserves.atEnd hend
        have hm0 : m = 0 := by omega
        refine ⟨[], Nat.zero_le _, by simp, by rw [List.drop_of_length_le hend]; rfl, ?_⟩
        subst hm0
        exact (Machine.run_cons_eq_some _).2 ⟨_, _, _, hstep, rfl, rfl⟩

/-- **The device serves its flat byte stream.**  In every reachable state, an uninterrupted read of
an open file from any position, with any count, ends without a fault; unless the user copy fails it
obeys the law of a read.  And reads of a file from any position with any positive counts, one after
the other, return pieces that make up the stream from that position on, and then zero, after at
most as many reads as there are bytes; nothing but the position of the file has changed then. -/
theorem reachable_reads {M : ℕ} (hM : 10 * M < 2 ^ 31) {s : Sys} (hs : Reachable M s) :
    (∀ (env : ReadEnv) (filp : File) (count p : ℕ), env.interrupted = false →
      filp.privateData = true → p < 2 ^ 63 →
      ∃ r, aesdRead env s.kern (some filp) true count p = .ok r ∧
        ((r.retval = -EFAULT ∧ r.fPos = p ∧ 0 < env.left) ∨ s.kern.Serves p count r)) ∧
    (∀ (f : ℕ) (counts : ℕ → ℕ) (p : ℕ), (∀ i, 0 < counts i) → p < 2 ^ 63 →
      ∃ ds : List (List UInt8), ds.length ≤ s.kern.flat.length - p ∧ (∀ d ∈ ds, d ≠ []) ∧
        ds.flatten = s.kern.flat.drop p ∧
        (charDev M).run (s.setFile f ⟨true, p⟩) (readCalls f counts (ds.length + 1))
          = some (s.setFile f ⟨true, (p + (s.kern.flat.length - p) : ℕ)⟩,
            ds.map Reply.served ++ [.served []])) := by
  have h := hs.inv
  have hflat : s.kern.flat.length < 2 ^ 31 := h.flat_le.trans_lt hM
  constructor
  · intro env filp count p hwait hopen hp
    obtain ⟨r, hr, hlaw⟩ := h.readLocked_serves hflat env.left count hp
    exact ⟨r, by simp only [aesdRead, hopen, hwait, hr]; rfl, hlaw⟩
  · intro f counts p hcounts hp
    have hdrain := Kernel.Inv.reads_drain (s := s.setFile f ⟨true, p⟩) h hflat hcounts hp
      (Sys.setFile_file_self ..)
    simpa only [Sys.setFile_setFile, Sys.setFile_kern] using hdrain

/-- One line is stored, and read from its second byte on. -/
theorem reachable_reads_one_line :
    ∃ s, Reachable 64 s ∧ s.kern.flat = [97, 10] ∧ ∃ ds : List (List UInt8), ds.flatten = [10] ∧
      (charDev 64).run (s.setFile 0 ⟨true, 1⟩) (readCalls 0 (fun _ => 512) (ds.length + 1))
        = some (s.setFile 0 ⟨true, 2⟩, ds.map Reply.served ++ [.served []]) := by
  have hflat : ((charDev 64).run Sys.init
      [.openFile 0, .write (some 0) (some [97, 10]) ⟨false, ⟨some 0, fun _ => 7⟩, 0⟩]).map
        (fun p => p.1.kern.flat) = some [97, 10] := by decide
  obtain ⟨⟨s, rs⟩, hrun, hflat⟩ := Option.map_eq_some_iff.1 hflat
  have hs := reachable_of_run hrun
  obtain ⟨ds, -, -, hds, hreads⟩ :=
    (reachable_reads (by decide) hs).2 0 (fun _ => 512) 1 (by simp) (by decide)
  have hflat' : s.kern.flat = [97, 10] := hflat
  rw [hflat'] at hds hreads
  exact ⟨s, hs, hflat', ds, hds, hreads⟩

end Aesd
