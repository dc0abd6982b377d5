/-
**The write path is a log of the last ten commands.**

The pending buffer, the indices of the ring, its `full` flag and the eviction of old blocks together
do one thing: they keep the last ten newline-terminated commands of what was written, and the bytes
of the one that is not complete.  That is `TermLog` with ten entries and the newline as terminator.
Here the driver is shown to refine it, over any sequence of writes of any files, as long as the
allocator and the user copies do their part.

* `Sys.WriteSucceeds` — the guard: a write of some bytes whose environment lets it succeed;
* `Sys.write_of_succeeds` — one such write is one step of the log;
* `writes_refine_log` — so is any sequence of them, from the loaded module.
-/

import Aesd.CharDeviceInv
import Aesd.TermLog

set_option relaxedAutoImplicit false
set_option autoImplicit false

namespace Aesd

open TermLog

/-- The call is a write of at least one byte on an open file; the wait for the mutex is not
interrupted, the allocator grants the request and the user copy is complete. -/
def Sys.WriteSucceeds (M : ℕ) (s : Sys) : Call → Prop
  | .write (some f) (some data) env =>
      (s.file f).privateData = true ∧ data ≠ [] ∧ env.interrupted = false ∧
        s.kern.WriteGranted M env data ∧ uncopied env.left data.length = 0
  | _ => False

instance (M : ℕ) (s : Sys) : (c : Call) → Decidable (s.WriteSucceeds M c)
  | .write (some _) (some _) _ => inferInstanceAs (Decidable (_ ∧ _))
  | .write none _ _ | .write (some _) none _ | .openFile _ | .releaseFile _ | .read .. | .llseek ..
  | .ioctl .. => isFalse id

/-- What a write that succeeds returns: the count. -/
def Call.count (c : Call) : Reply := ⟨c.written.length, []⟩

/-- **A write that succeeds is a step of the log.** -/
theorem Sys.write_of_succeeds {M : ℕ} {s : Sys} {c : Call} (hM : 10 * M < 2 ^ 31)
    (h : s.kern.Inv M) (hint : s.kern.Intact) (hc : s.WriteSucceeds M c) :
    ∃ s', s.call M c = .ok (s', c.count) ∧ s'.file = s.file ∧ s'.kern.Inv M ∧ s'.kern.Intact ∧
      s'.kern.log = feed 10 newline s.kern.log c.written := by
  match c, hc with
  | .write (some f) (some data) env, hc =>
      obtain ⟨hopen, hne, hwait, hgranted, hcopy⟩ := hc
      have hlen : data.length ≤ INT_MAX := uncopied_eq_zero hcopy
      have hpos : 0 < data.length := List.length_pos_iff.2 hne
      have hsize := h.size_le
      rw [INT_MAX] at hlen
      obtain ⟨k', r, hw⟩ := h.writeLocked_ok env data (by omega) (by omega)
      obtain ⟨hr, hinv, hint', hlog⟩ := h.writeLocked_log hint hgranted hcopy hw
      refine ⟨⟨k', s.file⟩, ?_, rfl, hinv, hint', hlog⟩
      rw [int64_of_range (by omega) (by omega)] at hr
      simp only [Sys.call, aesdWrite, Option.map_some, hopen, hwait, hw, Call.count, Call.written,
        hr]
      rfl

/-- The device holds the log: its pending buffer has the pending bytes, with their number as its
size, and the slots from `out_offs` on have the commands, with their lengths as sizes. -/
structure Kernel.Holds (k : Kernel) (log : TermLog UInt8) : Prop where
  pending : k.pending = log.pending
  pendingSize : k.dev.bufEntry.size = log.pending.length
  available : k.dev.circularBuf.availableEntries = log.entries.length
  commands : k.commands = log.entries
  sizes : k.dev.circularBuf.entries.map AesdBufferEntry.size = log.entries.map List.length

theorem Kernel.Inv.holds {M : ℕ} {k : Kernel} (h : k.Inv M) (hint : k.Intact) : k.Holds k.log where
  pending := rfl
  pendingSize := hint.symm
  available := by
    rw [h.ring.availableEntries_eq, Kernel.log, Kernel.commands, List.length_map,
      AesdCircularBuffer.length_entries]
  commands := rfl
  sizes := h.sizes

/-- **The write path refines the log of the last ten commands.**  From the loaded module, any
sequence of writes that are let succeed, by any files, runs through; each returns its count; and
the device then holds the log that was fed their bytes, in which every command ends with a newline
and the pending bytes do not. -/
theorem writes_refine_log {M : ℕ} (hM : 10 * M < 2 ^ 31) (dev : AesdDev) (allocResult : ℤ)
    (hload : 0 ≤ allocResult) (s₀ : Sys)
    (hinit : s₀.kern = ⟨.empty, (aesdInitModule dev allocResult 0).1⟩) (cs : List Call)
    (hok : (charDev M).Passes (Sys.WriteSucceeds M) s₀ cs) :
    ∃ s, (charDev M).run s₀ cs = some (s, cs.map Call.count) ∧
      s.kern.Holds (feeds 10 newline empty (cs.map Call.written)) ∧
      (∀ c ∈ s.kern.commands, c ≠ [] ∧ c.getLast? = some newline) ∧
      s.kern.pending.getLast? ≠ some newline := by
  rw [aesdInitModule_init dev hload] at hinit
  obtain ⟨s, hrun, ⟨hinv, hint⟩, hlog⟩ := Machine.run_of_passes
    (fun s => s.kern.Inv M ∧ s.kern.Intact) (fun s => s.kern.log)
    (fun log c => feed 10 newline log c.written) Call.count hok
    (by rw [hinit]; exact ⟨Kernel.Inv.init M, Kernel.Intact.init⟩)
    (fun s c hI hc => by
      obtain ⟨s', hcall, -, hinv, hint, hlog⟩ := Sys.write_of_succeeds hM hI.1 hI.2 hc
      exact ⟨s', charDev_step.2 hcall, ⟨hinv, hint⟩, hlog⟩)
  have hlog' : s.kern.log = feeds 10 newline empty (cs.map Call.written) := by
    rw [hlog, hinit, feeds, List.foldl_map]
    rfl
  have hgood : Good 10 newline s.kern.log := hlog' ▸ (Good.empty 10 newline).feeds _
  refine ⟨s, hrun, hlog' ▸ hinv.holds hint, fun c hc => ⟨?_, hgood.ends c hc⟩, hgood.pending⟩
  rintro rfl
  simpa using hgood.ends [] hc

/-- Two files write a line in two pieces, and the start of the next one. -/
theorem writes_refine_log_two_files :
    ∃ s, (charDev 64).run ⟨.init, fun _ => ⟨true, 0⟩⟩
        [.write (some 3) (some [97]) ⟨false, ⟨some 0, fun _ => 7⟩, 0⟩,
          .write (some 5) (some [98, 10]) ⟨false, ⟨some 1, fun _ => 7⟩, 0⟩,
          .write (some 3) (some [99]) ⟨false, ⟨some 0, fun _ => 7⟩, 0⟩]
        = some (s, [⟨1, []⟩, ⟨2, []⟩, ⟨1, []⟩]) ∧ s.kern.Holds ⟨[99], [[97, 98, 10]]⟩ := by
  obtain ⟨s, hrun, hholds, -⟩ := writes_refine_log (M := 64) (by decide)
    ⟨.zero, .init⟩ 0 le_rfl ⟨.init, fun _ => ⟨true, 0⟩⟩ rfl
    [.write (some 3) (some [97]) ⟨false, ⟨some 0, fun _ => 7⟩, 0⟩,
      .write (some 5) (some [98, 10]) ⟨false, ⟨some 1, fun _ => 7⟩, 0⟩,
      .write (some 3) (some [99]) ⟨false, ⟨some 0, fun _ => 7⟩, 0⟩] (by decide)
  exact ⟨s, hrun, hholds⟩

end Aesd
