/-
**Seeking by command and offset, and locating a position, are inverse to each other.**

The `ioctl` walks from the read index of the ring to the slot of a command and adds the sizes on its
way; the search that reads use walks the same slots and subtracts.  Both are written with the ring
indices, modulo ten, and with mixed integer types.  Over the invariant of the ring both compute the
same sums of the sizes of the commands, so that each undoes the other, and the read after a seek
starts at the byte that was named.

* `seekLoop_eq` — the walk of the `ioctl` adds up a window of the ring;
* `Kernel.Inv.seekLocked_walk`, `Kernel.Inv.seekLocked_einval` — the result of the `ioctl`;
* `reachable_seek_exact` — **the `ioctl` accepts the stored bytes, and one offset more** a command;
* `reachable_seek_locate` — **the two walks are inverse, and the next read starts there**.
-/

import Aesd.CharDeviceRead

set_option relaxedAutoImplicit false
set_option autoImplicit false

namespace Aesd

open RingWindow

/-! ### The walk of the `ioctl` -/

theorem seekLoop_self (b : AesdCircularBuffer) (i : Fin maxWriteOperationsSupported)
    (fuel acc : ℕ) : seekLoop b i fuel i acc = .ok acc := by
  unfold seekLoop
  rw [if_pos rfl]

theorem seekLoop_of_ne (b : AesdCircularBuffer) {i commandIdx : Fin maxWriteOperationsSupported}
    (hne : i ≠ commandIdx) (fuel acc : ℕ) :
    seekLoop b commandIdx (fuel + 1) i acc
      = seekLoop b commandIdx fuel (Fin.ofNat maxWriteOperationsSupported (i.val + 1))
          (sizeT (acc + (b.entry i).size)) := by
  conv_lhs => unfold seekLoop
  rw [if_neg hne]

/-- **The walk adds up the sizes of the slots it passes**, and takes as many steps as there are. -/
theorem seekLoop_eq (b : AesdCircularBuffer) (i : ℕ) (acc : ℤ) {d fuel : ℕ} (hd : d ≤ fuel)
    (hlt : d < 10) :
    seekLoop b (Fin.ofNat 10 (i + d)) fuel (Fin.ofNat 10 i) (sizeT acc)
      = .ok (sizeT (acc + ((window b.entry i d).map AesdBufferEntry.size).sum)) := by
  induction d generalizing i fuel acc with
  | zero => rw [Nat.add_zero, seekLoop_self, window_zero, List.map_nil, List.sum_nil]; simp
  | succ d ih =>
      obtain ⟨fuel, rfl⟩ : ∃ f, fuel = f + 1 := ⟨fuel - 1, by omega⟩
      have hne : Fin.ofNat 10 i ≠ Fin.ofNat 10 (i + (d + 1)) :=
        slot_ne (i := 0) (by omega) hlt (by omega)
      have hnext : Fin.ofNat 10 ((Fin.ofNat 10 i).val + 1) = Fin.ofNat 10 (i + 1) :=
        Fin.ext (by simp [Fin.ofNat])
      rw [window_cons, List.map_cons, List.sum_cons]
      set n := (b.entry (Fin.ofNat 10 i)).size with hn
      rw [seekLoop_of_ne b hne, hnext, ← hn, sizeT_add, show i + (d + 1) = i + 1 + d by omega,
        ih _ _ (by omega) (by omega)]
      push_cast
      rw [Int.add_assoc]

/-! ### The result of the `ioctl` -/

/-- The stored bytes before a command. -/
theorem Kernel.Inv.sum_take {M : ℕ} {k : Kernel} (h : k.Inv M) {j : ℕ}
    (hj : j ≤ k.commands.length) :
    ((window k.dev.circularBuf.entry k.dev.circularBuf.outOffs j).map AesdBufferEntry.size).sum
      = ((k.commands.take j).flatten).length := by
  have hst : j ≤ k.dev.circularBuf.stored := by
    rwa [Kernel.commands, List.length_map, AesdCircularBuffer.length_entries] at hj
  have htake : window k.dev.circularBuf.entry k.dev.circularBuf.outOffs j
      = k.dev.circularBuf.entries.take j := by
    rw [AesdCircularBuffer.entries,
      show k.dev.circularBuf.stored = j + (k.dev.circularBuf.stored - j) by omega, window_add,
      List.take_left' (window_length ..)]
  rw [htake, List.map_take, h.sizes, List.length_flatten, List.map_take]

/-- The number of commands, as the `ioctl` compares it. -/
theorem Kernel.Inv.unsigned_available {M : ℕ} {k : Kernel} (h : k.Inv M) :
    CInt.unsigned 32 k.dev.circularBuf.availableEntries = k.commands.length := by
  have hst : k.dev.circularBuf.stored ≤ 10 := h.ring.stored_le
  rw [h.ring.availableEntries_eq, CInt.unsigned_of_lt (by omega), Kernel.commands, List.length_map,
    AesdCircularBuffer.length_entries]

/-- The slots that a seek request walks from and to. -/
theorem Kernel.Inv.seek_slots {M : ℕ} {k : Kernel} (h : k.Inv M) {X : ℕ}
    (hX : X < k.commands.length) :
    (⟨k.dev.circularBuf.outOffs, k.dev.circularBuf.out_lt⟩ : Fin maxWriteOperationsSupported)
        = Fin.ofNat 10 k.dev.circularBuf.outOffs ∧
      CInt.unsigned 32 ((k.dev.circularBuf.outOffs : ℤ) + X) = k.dev.circularBuf.outOffs + X := by
  have hlen := h.length_commands_le
  have hout : k.dev.circularBuf.outOffs < 10 := k.dev.circularBuf.out_lt
  refine ⟨Fin.ext (Nat.mod_eq_of_lt hout).symm, ?_⟩
  rw [← Int.natCast_add, CInt.unsigned_of_lt (by omega)]

/-- **The `ioctl` for a stored command** accepts every offset up to the size of the command, and
moves the position to the offset behind the commands before it. -/
theorem Kernel.Inv.seekLocked_walk {M : ℕ} {k : Kernel} (h : k.Inv M) (filp : File)
    {seek : AesdSeekto} {c : List UInt8} (hc : k.commands[seek.writeCmd.toNat]? = some c) :
    seekLocked k filp seek = if c.length < seek.writeCmdOffset.toNat then .ok (filp, -EINVAL)
      else .ok ({ filp with
        fPos := int64 (sizeT ((((k.commands.take seek.writeCmd.toNat).flatten).length : ℤ)
          + seek.writeCmdOffset.toNat)) }, 0) := by
  set X := seek.writeCmd.toNat with hX
  have hXlt : X < k.commands.length := (List.getElem?_eq_some_iff.1 hc).1
  have hlen := h.length_commands_le
  obtain ⟨hfirst, hidx⟩ := h.seek_slots hXlt
  have hwalk := seekLoop_eq k.dev.circularBuf k.dev.circularBuf.outOffs 0 (hXlt.le.trans hlen)
    (by omega)
  rw [h.sum_take hXlt.le, Int.zero_add] at hwalk
  have hzero : sizeT 0 = 0 := by decide
  have hsize := (h.slot hc).1
  rw [hzero] at hwalk
  simp only [seekLocked, h.unsigned_available, ← hX, if_neg (not_le.2 hXlt), hidx, hfirst, hwalk,
    hsize, sizeT_add]

/-- The same, when what is stored has the size of an `int`. -/
theorem Kernel.Inv.seekLocked_stored {M : ℕ} {k : Kernel} (h : k.Inv M)
    (hflat : k.flat.length < 2 ^ 31) (filp : File) {seek : AesdSeekto} {c : List UInt8}
    (hc : k.commands[seek.writeCmd.toNat]? = some c) :
    seekLocked k filp seek = if c.length < seek.writeCmdOffset.toNat then .ok (filp, -EINVAL)
      else .ok ({ filp with
        fPos := (((k.commands.take seek.writeCmd.toNat).flatten).length
          + seek.writeCmdOffset.toNat : ℕ) }, 0) := by
  have hXlt := (List.getElem?_eq_some_iff.1 hc).1
  have hprefix : ((k.commands.take seek.writeCmd.toNat).flatten).length + c.length
      ≤ k.flat.length := by
    have hsplit : k.flat = (k.commands.take seek.writeCmd.toNat).flatten
        ++ (k.commands.drop seek.writeCmd.toNat).flatten := by
      rw [Kernel.flat, ← List.flatten_append, List.take_append_drop]
    rw [hsplit, List.length_append, List.drop_eq_getElem_cons hXlt, List.flatten_cons,
      List.length_append, (List.getElem?_eq_some_iff.1 hc).2]
    omega
  rw [h.seekLocked_walk filp hc]
  by_cases hoff : c.length < seek.writeCmdOffset.toNat
  · rw [if_pos hoff, if_pos hoff]
  · rw [if_neg hoff, if_neg hoff, ← Int.natCast_add, sizeT_of_lt (by omega),
      int64_of_range (by omega) (by omega)]

theorem Kernel.Inv.seekLocked_ok {M : ℕ} {k : Kernel} (h : k.Inv M)
    (hflat : k.flat.length < 2 ^ 31) (filp : File) {seek : AesdSeekto} {c : List UInt8}
    (hc : k.commands[seek.writeCmd.toNat]? = some c) (hoff : seek.writeCmdOffset.toNat ≤ c.length) :
    seekLocked k filp seek = .ok ({ filp with
      fPos := (((k.commands.take seek.writeCmd.toNat).flatten).length
        + seek.writeCmdOffset.toNat : ℕ) }, 0) := by
  rw [h.seekLocked_stored hflat filp hc, if_neg (not_lt.2 hoff)]

/-- The `ioctl` for a command that is not stored fails. -/
theorem Kernel.Inv.seekLocked_einval {M : ℕ} {k : Kernel} (h : k.Inv M) (filp : File)
    {seek : AesdSeekto} (hX : k.commands.length ≤ seek.writeCmd.toNat) :
    seekLocked k filp seek = .ok (filp, -EINVAL) := by
  rw [seekLocked, h.unsigned_available, if_pos hX]

/-- A seek request with the mutex held ends without a fault. -/
theorem Kernel.Inv.seekLocked_returns {M : ℕ} {k : Kernel} (h : k.Inv M) (filp : File)
    (seek : AesdSeekto) : ∃ filp' r, seekLocked k filp seek = .ok (filp', r) := by
  cases hc : k.commands[seek.writeCmd.toNat]? with
  | none => exact ⟨_, _, h.seekLocked_einval filp (List.getElem?_eq_none_iff.1 hc)⟩
  | some c =>
      rw [h.seekLocked_walk filp hc]
      split
      · exact ⟨_, _, rfl⟩
      · exact ⟨_, _, rfl⟩

/-- A seek request ends without a fault. -/
theorem Kernel.Inv.aesdIoctl_returns {M : ℕ} {k : Kernel} (h : k.Inv M) (env : IoctlEnv)
    (filp : File) (cmd : UInt32) : ∃ filp' r, aesdIoctl env k filp cmd = .ok (filp', r) := by
  rw [aesdIoctl]
  split
  · exact ⟨_, _, rfl⟩
  · split
    · exact ⟨_, _, rfl⟩
    · split
      · exact ⟨_, _, rfl⟩
      · split
        · exact ⟨_, _, rfl⟩
        · split
          · exact ⟨_, _, rfl⟩
          · split
            · exact ⟨_, _, rfl⟩
            · exact h.seekLocked_returns filp _

/-! ### The two walks -/

/-- The seek request on an open file reaches the walk. -/
theorem aesdIoctl_seekto (k : Kernel) {filp : File} (hopen : filp.privateData = true)
    (seek : AesdSeekto) :
    aesdIoctl ⟨some seek, false⟩ k filp aesdcharIocseekto = seekLocked k filp seek := by
  have htype : iocType aesdcharIocseekto = aesdIocMagic := by decide
  have hnr : ¬ aesdcharIocMaxnr < iocNr aesdcharIocseekto := by decide
  simp [aesdIoctl, hopen, htype, hnr]

/-- A state with two lines in the ring. -/
theorem two_lines_stored :
    ∃ s, Reachable 64 s ∧ s.kern.commands = [[97, 98, 10], [99, 10]] := by
  have hcmds : ((charDev 64).run Sys.init
      [.openFile 0, .write (some 0) (some [97, 98, 10]) ⟨false, ⟨some 0, fun _ => 7⟩, 0⟩,
        .write (some 0) (some [99, 10]) ⟨false, ⟨some 1, fun _ => 7⟩, 0⟩]).map
        (fun p => p.1.kern.commands) = some [[97, 98, 10], [99, 10]] := by decide
  obtain ⟨⟨s, rs⟩, hrun, hcmds⟩ := Option.map_eq_some_iff.1 hcmds
  exact ⟨s, reachable_of_run hrun, hcmds⟩

/-- The pair names a stored byte. -/
def Kernel.Names (k : Kernel) (seek : AesdSeekto) : Prop :=
  ∃ c, k.commands[seek.writeCmd.toNat]? = some c ∧ seek.writeCmdOffset.toNat < c.length

/-- **The `ioctl` accepts exactly the stored bytes**: it succeeds for a pair that names one, and
otherwise refuses and leaves the position alone. -/
def SeekExact (k : Kernel) (filp : File) (seek : AesdSeekto) : Prop :=
  (k.Names seek → ∃ p, aesdIoctl ⟨some seek, false⟩ k filp aesdcharIocseekto
    = .ok ({ filp with fPos := p }, 0)) ∧
  (¬ k.Names seek → aesdIoctl ⟨some seek, false⟩ k filp aesdcharIocseekto = .ok (filp, -EINVAL))

/-- **The result of a seek request**: it is refused exactly beyond the size of the command. -/
theorem Kernel.Inv.seekExact_iff {M : ℕ} {k : Kernel} (h : k.Inv M) {filp : File}
    (hopen : filp.privateData = true) (seek : AesdSeekto) :
    SeekExact k filp seek ↔
      ¬ ∃ c, k.commands[seek.writeCmd.toNat]? = some c ∧
        seek.writeCmdOffset.toNat = c.length := by
  rw [SeekExact, Kernel.Names, aesdIoctl_seekto _ hopen]
  cases hc : k.commands[seek.writeCmd.toNat]? with
  | none =>
      rw [h.seekLocked_einval filp (List.getElem?_eq_none_iff.1 hc)]
      simp
  | some c =>
      have hsome : ∀ P : List UInt8 → Prop, (∃ d, some c = some d ∧ P d) ↔ P c := by simp
      rw [h.seekLocked_walk filp hc, hsome, hsome]
      rcases lt_trichotomy seek.writeCmdOffset.toNat c.length with hlt | heq | hgt
      · rw [if_neg (by omega)]
        exact ⟨fun _ => by omega, fun _ => ⟨fun _ => ⟨_, rfl⟩, fun hn => absurd hlt hn⟩⟩
      · -- the offset one past the end is accepted
        rw [if_neg (by omega)]
        refine ⟨?_, fun hne => absurd heq hne⟩
        intro hres
        have hzero := (Prod.mk.inj (Except.ok.inj (hres.2 (by omega)))).2
        rw [EINVAL] at hzero
        omega
      · rw [if_pos hgt]
        exact ⟨fun _ => by omega, fun _ => ⟨fun hn => absurd hn (by omega), fun _ => rfl⟩⟩

/-- **When the `ioctl` accepts exactly the stored bytes**: unless the offset is the size of the
command, one past its last byte.  For no pair does the walk leave the stored commands: it takes as
many steps as there are commands before the one that is named. -/
theorem reachable_seek_exact {M : ℕ} {s : Sys} (hs : Reachable M s) (filp : File)
    (hopen : filp.privateData = true) (seek : AesdSeekto) :
    (SeekExact s.kern filp seek ↔
      ¬ ∃ c, s.kern.commands[seek.writeCmd.toNat]? = some c ∧
        seek.writeCmdOffset.toNat = c.length) ∧
    (seek.writeCmd.toNat < s.kern.commands.length → ∃ entryOffset,
      seekLoop s.kern.dev.circularBuf
        (Fin.ofNat 10 (CInt.unsigned 32
          ((s.kern.dev.circularBuf.outOffs : ℤ) + seek.writeCmd.toNat)))
        seek.writeCmd.toNat ⟨s.kern.dev.circularBuf.outOffs, s.kern.dev.circularBuf.out_lt⟩ 0
        = .ok entryOffset) := by
  have h := hs.inv
  refine ⟨h.seekExact_iff hopen seek, ?_⟩
  intro hX
  have hlen := h.length_commands_le
  obtain ⟨hfirst, hidx⟩ := h.seek_slots hX
  have hzero : sizeT 0 = 0 := by decide
  have hwalk := seekLoop_eq s.kern.dev.circularBuf s.kern.dev.circularBuf.outOffs 0
    (le_refl seek.writeCmd.toNat) (by omega)
  rw [hzero] at hwalk
  rw [hfirst, hidx]
  exact ⟨_, hwalk⟩

/-- The last byte of the second of two lines is sought. -/
theorem reachable_seek_exact_two_lines :
    ∃ s, Reachable 64 s ∧ s.kern.commands = [[97, 98, 10], [99, 10]] ∧
      SeekExact s.kern ⟨true, 0⟩ ⟨1, 1⟩ := by
  obtain ⟨s, hs, hcmds⟩ := two_lines_stored
  refine ⟨s, hs, hcmds, ((reachable_seek_exact hs ⟨true, 0⟩ rfl ⟨1, 1⟩).1).2 ?_⟩
  rw [hcmds]
  decide

/-- **The offset one past the end of a command is accepted.**  After the two lines `"ab\n"` and
`"c\n"`, the request for command 1 at offset 2 succeeds. -/
theorem seek_past_the_end :
    ¬ ∀ (M : ℕ) (s : Sys), Reachable M s → ∀ (filp : File), filp.privateData = true →
      ∀ seek : AesdSeekto, SeekExact s.kern filp seek := by
  intro h
  obtain ⟨s, hs, hcmds⟩ := two_lines_stored
  have hexact := (hs.inv.seekExact_iff rfl _).1 (h 64 s hs ⟨true, 0⟩ rfl ⟨1, 2⟩)
  rw [hcmds] at hexact
  exact hexact ⟨[99, 10], rfl, rfl⟩

/-- A located position is that of a seek request, and the other way round. -/
theorem Kernel.Inv.find_eq_some_iff {M : ℕ} {k : Kernel} (h : k.Inv M)
    (hflat : k.flat.length < 2 ^ 31) {p X o : ℕ} (hX : X < k.commands.length) :
    k.dev.circularBuf.findEntryOffsetForFpos p
        = some (Fin.ofNat 10 (k.dev.circularBuf.outOffs + X), o) ↔
      Segments.locate (k.commands.map List.length) p = some (X, o) := by
  rw [h.find_eq hflat, Option.map_eq_some_iff]
  constructor
  · rintro ⟨⟨j, o'⟩, hloc, heq⟩
    obtain ⟨hslot, rfl⟩ := Prod.mk.inj heq
    obtain ⟨n, hn, -, -⟩ := Segments.locate_eq_some_iff.1 hloc
    have hlen := h.length_commands_le
    have hj : j < k.commands.length := by simpa using (List.getElem?_eq_some_iff.1 hn).1
    by_contra hne
    have hjX : j ≠ X := fun hjX => hne (by rw [hloc, hjX])
    exact slot_ne (by omega) (by omega) hjX hslot
  · exact fun hloc => ⟨(X, o), hloc, rfl⟩

/-- **Seeking by command and offset and locating a position are inverse to each other.**  A position
that the search finds in command `X` at offset `Y` is the one that the `ioctl` sets for `(X, Y)`,
and every position below the end is found in one; the `ioctl` succeeds for every stored byte, the
search leads back from the position it sets, and the next read starts at that byte. -/
theorem reachable_seek_locate {M : ℕ} {s : Sys} (hs : Reachable M s)
    (hflat : s.kern.flat.length < 2 ^ 31) (filp : File) (hopen : filp.privateData = true) :
    (∀ (p : ℕ) (seek : AesdSeekto), seek.writeCmd.toNat < s.kern.commands.length →
      s.kern.dev.circularBuf.findEntryOffsetForFpos p
        = some (Fin.ofNat 10 (s.kern.dev.circularBuf.outOffs + seek.writeCmd.toNat),
          seek.writeCmdOffset.toNat) →
      aesdIoctl ⟨some seek, false⟩ s.kern filp aesdcharIocseekto
        = .ok ({ filp with fPos := p }, 0)) ∧
    (∀ p < s.kern.flat.length, ∃ seek : AesdSeekto,
      seek.writeCmd.toNat < s.kern.commands.length ∧
      s.kern.dev.circularBuf.findEntryOffsetForFpos p
        = some (Fin.ofNat 10 (s.kern.dev.circularBuf.outOffs + seek.writeCmd.toNat),
          seek.writeCmdOffset.toNat)) ∧
    (∀ (seek : AesdSeekto) (c : List UInt8), s.kern.commands[seek.writeCmd.toNat]? = some c →
      seek.writeCmdOffset.toNat < c.length →
      ∃ p : ℕ, aesdIoctl ⟨some seek, false⟩ s.kern filp aesdcharIocseekto
          = .ok ({ filp with fPos := p }, 0) ∧
        s.kern.dev.circularBuf.findEntryOffsetForFpos p
          = some (Fin.ofNat 10 (s.kern.dev.circularBuf.outOffs + seek.writeCmd.toNat),
            seek.writeCmdOffset.toNat) ∧
        ∀ count : ℕ, 0 < count →
          ∃ r, aesdRead ⟨false, 0⟩ s.kern (some { filp with fPos := p }) true count p = .ok r ∧
            r.data ≠ [] ∧ r.data <+: c.drop seek.writeCmdOffset.toNat) := by
  have h := hs.inv
  have hlocated : ∀ (p : ℕ) (seek : AesdSeekto),
      Segments.locate (s.kern.commands.map List.length) p
        = some (seek.writeCmd.toNat, seek.writeCmdOffset.toNat) →
      aesdIoctl ⟨some seek, false⟩ s.kern filp aesdcharIocseekto
        = .ok ({ filp with fPos := p }, 0) := by
    intro p seek hloc
    obtain ⟨c, hc, ho, hsum, -⟩ := Segments.drop_flatten hloc
    rw [aesdIoctl_seekto _ hopen, h.seekLocked_ok hflat filp hc ho.le, hsum]
  refine ⟨?_, ?_, ?_⟩
  · intro p seek hX hfind
    exact hlocated p seek ((h.find_eq_some_iff hflat hX).1 hfind)
  · intro p hp
    cases hloc : Segments.locate (s.kern.commands.map List.length) p with
    | none =>
        rw [Segments.locate_eq_none_iff, ← List.length_flatten] at hloc
        exact absurd hp (not_lt.2 hloc)
    | some q =>
        obtain ⟨j, o⟩ := q
        obtain ⟨c, hc, ho, hsum, -⟩ := Segments.drop_flatten hloc
        have hj : j < s.kern.commands.length := (List.getElem?_eq_some_iff.1 hc).1
        have hlen := h.length_commands_le
        have hclt := Kernel.length_le_flat (List.mem_of_getElem? hc)
        have hX : (UInt32.ofNat j).toNat = j := by simp; omega
        have hY : (UInt32.ofNat o).toNat = o := by simp; omega
        refine ⟨⟨UInt32.ofNat j, UInt32.ofNat o⟩, by rwa [hX], ?_⟩
        rw [hX, hY]
        exact (h.find_eq_some_iff hflat hj).2 hloc
  · intro seek c hc ho
    have hX : seek.writeCmd.toNat < s.kern.commands.length := (List.getElem?_eq_some_iff.1 hc).1
    have hloc : Segments.locate (s.kern.commands.map List.length)
        (((s.kern.commands.take seek.writeCmd.toNat).flatten).length + seek.writeCmdOffset.toNat)
          = some (seek.writeCmd.toNat, seek.writeCmdOffset.toNat) := by
      refine Segments.locate_eq_some_iff.2 ⟨c.length, by simp [hc], ho, ?_⟩
      rw [List.length_flatten, List.map_take]
    set p := ((s.kern.commands.take seek.writeCmd.toNat).flatten).length
      + seek.writeCmdOffset.toNat with hp
    have hplt : p < s.kern.flat.length := by
      rw [Kernel.flat, List.length_flatten]
      exact Segments.lt_of_locate hloc
    refine ⟨p, hlocated p seek hloc, (h.find_eq_some_iff hflat hX).2 hloc, ?_⟩
    intro count hcount
    have hread := h.readLocked_inside hflat 0 count (by omega) hloc hc rfl
    have hu : uncopied 0 (min count (c.length - seek.writeCmdOffset.toNat)) = 0 := by
      have hclt := Kernel.length_le_flat (List.mem_of_getElem? hc)
      rw [uncopied, if_neg (by rw [INT_MAX]; omega), Nat.zero_min]
    rw [if_pos hu] at hread
    refine ⟨_, by simp only [aesdRead, hopen, hread]; rfl, ?_, List.take_prefix _ _⟩
    rw [← List.length_pos_iff]
    simp
    omega

/-- Two lines are stored; the second byte of the second one is sought. -/
theorem reachable_seek_locate_two_lines :
    ∃ s, Reachable 64 s ∧ s.kern.commands = [[97, 98, 10], [99, 10]] ∧
      ∃ p : ℕ, aesdIoctl ⟨some ⟨1, 1⟩, false⟩ s.kern ⟨true, 0⟩ aesdcharIocseekto
          = .ok (⟨true, p⟩, 0) ∧
        s.kern.dev.circularBuf.findEntryOffsetForFpos p
          = some (Fin.ofNat 10 (s.kern.dev.circularBuf.outOffs + 1), 1) := by
  obtain ⟨s, hs, hcmds⟩ := two_lines_stored
  obtain ⟨p, hioctl, hfind, -⟩ := (reachable_seek_locate hs
    (by rw [Kernel.flat, hcmds]; decide) ⟨true, 0⟩ rfl).2.2 ⟨1, 1⟩ [99, 10]
    (by rw [hcmds]; rfl) (by decide)
  exact ⟨s, hs, hcmds, p, hioctl, hfind⟩

end Aesd
