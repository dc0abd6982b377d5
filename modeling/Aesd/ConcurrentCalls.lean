/-
**System calls on the device at the same time.**

`CharDevice` takes every file operation of the driver as one step, because each of them holds the
device's mutex while it works.  Here that is no longer assumed: any number of calls run at the same
time, each of them statement by statement as in `main.c`, and the mutex is an object that they take
and release.  A call may be stopped anywhere; what it knows then is in its local variables.

What `aesd_read`, `aesd_write` and `aesd_ioctl` do after they have taken the mutex leads to the
label before `mutex_unlock` on every path, and `aesd_llseek` computes the position after it has
released the mutex, from a size that it took out.  So the statements of each call, one after the
other, are the call in one step, and whoever has the mutex gives it back.

A file is a value here, that a call gets when it begins and hands back in its result.  `OpenFiles`
has the files behind the descriptors, and which calls may run on one of them.

* `Op`, `Op.atomic` — a call with its arguments, and what it does in one step;
* `Pos`, `Pos.step` — where a call is while it has the mutex, and its next statement;
* `driver`, `driver_implements` — the calls as procedures, each of which does its one step;
* `mutex_given_back` — **the call that has the mutex releases it**.
-/

import Aesd.CharDeviceLog
import Aesd.CharDeviceUnload
import Aesd.CharDeviceSeek
import Aesd.CharDeviceLlseek
import Aesd.CharDeviceBounds
import Aesd.Procedure

set_option relaxedAutoImplicit false
set_option autoImplicit false

namespace Aesd

open CriticalSection

/-! ### The calls -/

/-- A system call on the device, with its arguments and what its environment decides. -/
inductive Op where
  | read (filp : Option File) (buf : Bool) (count : ℕ) (fPos : ℤ) (env : ReadEnv)
  | write (filp : Option File) (buf : Option (List UInt8)) (env : WriteEnv)
  | llseek (filp : File) (off whence : ℤ)
  | ioctl (filp : File) (cmd : UInt32) (env : IoctlEnv)

/-- What a call hands back. -/
inductive Result where
  | read (r : ReadResult)
  | write (retval : ℤ)
  | seek (filp : File) (retval : ℤ)
  deriving DecidableEq

/-- The call in one step. -/
def Op.atomic (M : ℕ) (k : Kernel) : Op → Except Fault (Kernel × Result)
  | .read filp buf count fPos env => do
      let r ← aesdRead env k filp buf count fPos
      .ok (k, .read r)
  | .write filp buf env => do
      let (k, r) ← aesdWrite M env k filp buf
      .ok (k, .write r)
  | .llseek filp off whence => do
      let (filp, r) ← aesdLlseek k filp off whence
      .ok (k, .seek filp r)
  | .ioctl filp cmd env => do
      let (filp, r) ← aesdIoctl env k filp cmd
      .ok (k, .seek filp r)

/-- **The device under atomic calls.**  A call that ends in a fault is not a step. -/
def atomicCalls (M : ℕ) : Machine Kernel Op Result where
  step k a := (a.atomic M k).toOption

/-! ### Where a call is -/

/-- Where a call is while it has the mutex, with the local variables that it still needs. -/
inductive Pos where
  /-- `aesd_read`, before the search. -/
  | find (left count : ℕ) (fPos : ℤ)
  /-- The entry is known. -/
  | clip (left count : ℕ) (fPos : ℤ) (i : Fin maxWriteOperationsSupported) (entryOffset : ℕ)
  /-- So is the number of bytes to read. -/
  | copyOut (left : ℕ) (fPos : ℤ) (i : Fin maxWriteOperationsSupported) (entryOffset : ℕ)
      (bytesRead : ℤ)
  /-- `aesd_write`, before `krealloc`. -/
  | grow (env : WriteEnv) (data : List UInt8)
  | copyIn (left : ℕ) (data : List UInt8)
  /-- The bytes are copied. -/
  | addSize (count : ℕ)
  /-- The size is added. -/
  | test (count : ℕ)
  /-- The last byte is a newline. -/
  | add (count : ℕ)
  /-- The ring has evicted a command. -/
  | free (count : ℕ) (freeBufferPtr : KPtr)
  | reset (count : ℕ)
  /-- `aesd_llseek`, in the loop. -/
  | scan (filp : File) (off whence size : ℤ)
  /-- `aesd_ioctl`, before the entries are counted. -/
  | available (filp : File) (seek : AesdSeekto)
  /-- In the loop. -/
  | walk (filp : File) (seek : AesdSeekto) (commandIdx i : Fin maxWriteOperationsSupported)
      (entryOffset : ℕ)
  /-- Behind the loop. -/
  | jump (filp : File) (seek : AesdSeekto) (i : Fin maxWriteOperationsSupported) (entryOffset : ℕ)

/-- What a call takes out: its result, or what `aesd_llseek` needs to find the position. -/
inductive After where
  | done (r : Result)
  | position (filp : File) (off whence size : ℤ)

/-- **One statement of a call that has the mutex.** -/
def Pos.step (M : ℕ) (k : Kernel) : Pos → Except Fault ((Pos ⊕ After) × Kernel)
  | .find left count fPos =>
      match k.dev.circularBuf.findEntryOffsetForFpos (sizeT fPos) with
      | none => .ok (.inr (.done (.read ⟨0, fPos, []⟩)), k)
      | some (i, entryOffset) => .ok (.inl (.clip left count fPos i entryOffset), k)
  | .clip left count fPos i entryOffset =>
      .ok (.inl (.copyOut left fPos i entryOffset
        (readCount (k.dev.circularBuf.entry i).size entryOffset count)), k)
  | .copyOut left fPos i entryOffset bytesRead => do
      let (uncopied, data) ←
        copyToUser left k.heap (k.dev.circularBuf.entry i).buffptr entryOffset (sizeT bytesRead)
      if uncopied ≠ 0 then .ok (.inr (.done (.read ⟨-EFAULT, fPos, data⟩)), k)
      else .ok (.inr (.done (.read ⟨bytesRead, fPos + bytesRead, data⟩)), k)
  | .grow env data => do
      let size := k.dev.bufEntry.size
      let (heap, buffptr) ←
        krealloc M env.alloc k.heap k.dev.bufEntry.buffptr (sizeT (size + data.length))
      let k := ⟨heap, { k.dev with bufEntry := ⟨buffptr, size⟩ }⟩
      if buffptr = .null then .ok (.inr (.done (.write (-ENOMEM))), k)
      else .ok (.inl (.copyIn env.left data), k)
  | .copyIn left data => do
      let (heap, uncopied) ←
        copyFromUser left k.heap k.dev.bufEntry.buffptr k.dev.bufEntry.size data
      if uncopied ≠ 0 then .ok (.inr (.done (.write (-EFAULT))), { k with heap := heap })
      else .ok (.inl (.addSize data.length), { k with heap := heap })
  | .addSize count =>
      let size := sizeT ((k.dev.bufEntry.size : ℤ) + count)
      .ok (.inl (.test count),
        { k with dev := { k.dev with bufEntry := ⟨k.dev.bufEntry.buffptr, size⟩ } })
  | .test count => do
      let last ← k.heap.load k.dev.bufEntry.buffptr (sizeT ((k.dev.bufEntry.size : ℤ) - 1))
      if last = newline then .ok (.inl (.add count), k)
      else .ok (.inr (.done (.write (int64 count))), k)
  | .add count =>
      let (circularBuf, freeBufferPtr) := k.dev.circularBuf.addEntry k.dev.bufEntry
      let k := { k with dev := { k.dev with circularBuf := circularBuf } }
      if freeBufferPtr ≠ .null then .ok (.inl (.free count freeBufferPtr), k)
      else .ok (.inl (.reset count), k)
  | .free count freeBufferPtr => do
      let heap ← kfree k.heap freeBufferPtr
      .ok (.inl (.reset count), { k with heap := heap })
  | .reset count =>
      .ok (.inr (.done (.write (int64 count))), { k with dev := { k.dev with bufEntry := .zero } })
  | .scan filp off whence size =>
      if size < maxWriteOperationsSupported then
        .ok (.inl (.scan filp off whence (int64 (sizeT size + k.dev.bufEntry.size) + 1)), k)
      else .ok (.inr (.position filp off whence size), k)
  | .available filp seek =>
      let b := k.dev.circularBuf
      if CInt.unsigned 32 b.availableEntries ≤ seek.writeCmd.toNat then
        .ok (.inr (.done (.seek filp (-EINVAL))), k)
      else
        let commandIdx := Fin.ofNat maxWriteOperationsSupported
          (CInt.unsigned 32 ((b.outOffs : ℤ) + seek.writeCmd.toNat))
        .ok (.inl (.walk filp seek commandIdx ⟨b.outOffs, b.out_lt⟩ 0), k)
  | .walk filp seek commandIdx i entryOffset =>
      if i = commandIdx then .ok (.inl (.jump filp seek i entryOffset), k)
      else
        .ok (.inl (.walk filp seek commandIdx (Fin.ofNat maxWriteOperationsSupported (i.val + 1))
          (sizeT (entryOffset + (k.dev.circularBuf.entry i).size))), k)
  | .jump filp seek i entryOffset =>
      if (k.dev.circularBuf.entry i).size < seek.writeCmdOffset.toNat then
        .ok (.inr (.done (.seek filp (-EINVAL))), k)
      else
        .ok (.inr (.done (.seek { filp with
          fPos := int64 (sizeT ((entryOffset : ℤ) + seek.writeCmdOffset.toNat)) } 0)), k)

/-- What is left to do once the mutex is released. -/
def After.result : After → Result
  | .done r => r
  | .position filp off whence size =>
      let newpos := fixedSizeLlseek filp.fPos off whence size
      .seek (if newpos < 0 then filp else { filp with fPos := newpos }) newpos

/-- The checks before the mutex is taken, and the wait for it, which may be interrupted: the result
of a call that ends there. -/
def Op.check : Op → Option Result
  | .read filp buf _ fPos env =>
      match filp, buf with
      | some filp, true =>
          if filp.privateData = false then some (.read ⟨-ENODEV, fPos, []⟩)
          else if env.interrupted then some (.read ⟨-ERESTARTSYS, fPos, []⟩)
          else none
      | _, _ => some (.read ⟨-EINVAL, fPos, []⟩)
  | .write filp buf env =>
      match filp, buf with
      | some filp, some _ =>
          if filp.privateData = false then some (.write (-ENODEV))
          else if env.interrupted then some (.write (-ERESTARTSYS))
          else none
      | _, _ => some (.write (-EINVAL))
  | .llseek filp _ _ => if filp.privateData = false then some (.seek filp (-ENODEV)) else none
  | .ioctl filp cmd env =>
      if filp.privateData = false then some (.seek filp (-ENODEV))
      else if iocType cmd ≠ aesdIocMagic then some (.seek filp (-ENOTTY))
      else if aesdcharIocMaxnr < iocNr cmd then some (.seek filp (-ENOTTY))
      else if cmd ≠ aesdcharIocseekto then some (.seek filp (-ENOTTY))
      else
        match env.arg with
        | none => some (.seek filp (-EFAULT))
        | some _ => if env.interrupted then some (.seek filp (-ERESTARTSYS)) else none

/-- Where a call is when it has taken the mutex. -/
def Op.enter : Op → Pos
  | .read _ _ count fPos env => .find env.left count fPos
  | .write _ buf env => .grow env (buf.getD [])
  | .llseek filp off whence => .scan filp off whence 0
  | .ioctl filp _ env => .available filp (env.arg.getD ⟨0, 0⟩)

/-- **The calls as procedures.** -/
def driver (M : ℕ) : Procedure Op Pos After Result Kernel where
  check := Op.check
  enter := Op.enter
  body b k := (b.step M k).toOption
  leave := After.result

/-! ### Each call alone -/

section Alone

variable {M : ℕ} {k : Kernel} {b : Pos} {o : Option (Kernel × Result)}

/-- What remains to be shown after one statement. -/
theorem leads_step (N : ℕ) (h : match b.step M k with
    | .error _ => o = none
    | .ok (.inl b', k') => (driver M).Leads N b' k' o
    | .ok (.inr c, k') => o = some (k', c.result)) : (driver M).Leads (N + 1) b k o := by
  have hbody : (driver M).body b k = (b.step M k).toOption := rfl
  have hle : 1 ≤ N + 1 := Nat.le_add_left 1 N
  cases hstep : b.step M k with
  | error f =>
      rw [hstep] at h hbody
      rw [h]
      exact (Procedure.Leads.fault hbody).mono hle
  | ok q =>
      obtain ⟨next, k'⟩ := q
      rw [hstep] at h hbody
      cases next with
      | inl b' => exact Procedure.Leads.cons hbody h
      | inr c =>
          rw [h]
          exact (Procedure.Leads.last hbody).mono hle

/-- `aesd_read`. -/
theorem leads_find (left count : ℕ) (fPos : ℤ) :
    (driver M).Leads 3 (.find left count fPos) k
      ((readLocked left k count fPos).toOption.map fun r => (k, .read r)) := by
  rw [readLocked_range]
  refine leads_step 2 ?_
  cases hfind : k.dev.circularBuf.findEntryOffsetForFpos (sizeT fPos) with
  | none =>
      simp only [Pos.step, hfind]
      rfl
  | some q =>
      obtain ⟨i, entryOffset⟩ := q
      simp only [Pos.step, hfind]
      refine leads_step 1 (leads_step 0 ?_)
      simp only [Pos.step]
      cases hcopy : copyToUser left k.heap (k.dev.circularBuf.entry i).buffptr entryOffset
          (sizeT (readCount (k.dev.circularBuf.entry i).size entryOffset count)) with
      | error f => rfl
      | ok q =>
          obtain ⟨u, data⟩ := q
          by_cases hu : u = 0
          · subst hu
            rfl
          · simp only [bind, Except.bind, ne_eq, hu, not_false_eq_true, if_true]
            rfl

/-- The second half of `aesd_write`. -/
theorem leads_test (count : ℕ) :
    (driver M).Leads 4 (.test count) k
      ((commitEntry k).toOption.map fun k => (k, .write (int64 count))) := by
  refine leads_step 3 ?_
  simp only [Pos.step, commitEntry]
  cases hload : k.heap.load k.dev.bufEntry.buffptr (sizeT ((k.dev.bufEntry.size : ℤ) - 1)) with
  | error f => rfl
  | ok last =>
      by_cases hlast : last = newline
      swap
      · simp only [bind, Except.bind, hlast, if_false]
        rfl
      simp only [bind, Except.bind, hlast, if_true]
      refine leads_step 2 ?_
      simp only [Pos.step]
      by_cases hfree : (k.dev.circularBuf.addEntry k.dev.bufEntry).2 = .null
      · simp only [hfree, ne_eq, not_true_eq_false, if_false]
        exact leads_step 1 rfl
      · simp only [ne_eq, hfree, not_false_eq_true, if_true]
        refine leads_step 1 ?_
        simp only [Pos.step]
        cases hkfree : kfree k.heap (k.dev.circularBuf.addEntry k.dev.bufEntry).2 with
        | error f => rfl
        | ok heap => exact leads_step 0 rfl

/-- `aesd_write`. -/
theorem leads_grow (env : WriteEnv) (data : List UInt8) :
    (driver M).Leads 7 (.grow env data) k
      ((writeLocked M env k data).toOption.map fun q => (q.1, .write q.2)) := by
  refine leads_step 6 ?_
  simp only [Pos.step, writeLocked, growEntry]
  cases hkrealloc : krealloc M env.alloc k.heap k.dev.bufEntry.buffptr
      (sizeT ((k.dev.bufEntry.size : ℤ) + data.length)) with
  | error f => rfl
  | ok q =>
      obtain ⟨heap, buffptr⟩ := q
      by_cases hnull : buffptr = .null
      · subst hnull
        rfl
      simp only [bind, Except.bind, hnull, if_false]
      refine leads_step 5 ?_
      simp only [Pos.step]
      cases hcopy : copyFromUser env.left heap buffptr k.dev.bufEntry.size data with
      | error f => rfl
      | ok q =>
          obtain ⟨heap', u⟩ := q
          by_cases hu : u = 0
          swap
          · simp only [bind, Except.bind, ne_eq, hu, not_false_eq_true, if_true]
            rfl
          subst hu
          simp only [bind, Except.bind, ne_eq, not_true_eq_false, if_false]
          refine leads_step 4 ?_
          simp only [Pos.step]
          have htest := leads_test (M := M) data.length (k := ⟨heap',
            { k.dev with bufEntry := ⟨buffptr, sizeT ((k.dev.bufEntry.size : ℤ) + data.length)⟩ }⟩)
          cases hcommit : commitEntry ⟨heap',
            { k.dev with
              bufEntry := ⟨buffptr, sizeT ((k.dev.bufEntry.size : ℤ) + data.length)⟩ }⟩ with
          | error f => rwa [hcommit] at htest
          | ok k' => rwa [hcommit] at htest

/-- The loop of `aesd_llseek`. -/
theorem leads_scan (filp : File) (off whence : ℤ) {fuel : ℕ} {size size' : ℤ}
    (h : llseekLoop k.dev.bufEntry.size fuel size = .ok size') :
    (driver M).Leads (fuel + 1) (.scan filp off whence size) k
      (some (k, (After.position filp off whence size').result)) := by
  induction fuel generalizing size with
  | zero =>
      refine leads_step 0 ?_
      simp only [Pos.step]
      rw [llseekLoop] at h
      split at h
      · cases h
      · next hdone =>
          cases h
          rw [if_neg hdone]
  | succ fuel ih =>
      refine leads_step (fuel + 1) ?_
      simp only [Pos.step]
      rw [llseekLoop] at h
      split at h
      · next hgo =>
          rw [if_pos hgo]
          exact ih h
      · next hdone =>
          cases h
          rw [if_neg hdone]

/-- The loop of `aesd_ioctl`. -/
theorem leads_walk (filp : File) (seek : AesdSeekto)
    {commandIdx i : Fin maxWriteOperationsSupported} {fuel entryOffset entryOffset' : ℕ}
    (h : seekLoop k.dev.circularBuf commandIdx fuel i entryOffset = .ok entryOffset')
    (hjump : (driver M).Leads 1 (.jump filp seek commandIdx entryOffset') k o) :
    (driver M).Leads (fuel + 2) (.walk filp seek commandIdx i entryOffset) k o := by
  induction fuel generalizing i entryOffset with
  | zero =>
      refine leads_step 1 ?_
      simp only [Pos.step]
      rw [seekLoop] at h
      split at h
      · next hfound =>
          cases h
          rw [if_pos hfound, hfound]
          exact hjump
      · cases h
  | succ fuel ih =>
      refine leads_step (fuel + 2) ?_
      simp only [Pos.step]
      rw [seekLoop] at h
      split at h
      · next hfound =>
          cases h
          rw [if_pos hfound, hfound]
          exact hjump.mono (by omega)
      · next hgo =>
          rw [if_neg hgo]
          exact ih h

/-- `aesd_ioctl`, where its loop comes to an end. -/
theorem leads_available {filp filp' : File} {seek : AesdSeekto} {r : ℤ}
    (h : seekLocked k filp seek = .ok (filp', r)) :
    (driver M).Leads 13 (.available filp seek) k (some (k, .seek filp' r)) := by
  refine leads_step 12 ?_
  simp only [Pos.step]
  rw [seekLocked] at h
  simp only at h
  split at h
  · next hnone =>
      cases h
      rw [if_pos hnone]
      rfl
  · next hsome =>
      rw [if_neg hsome]
      split at h
      · cases h
      · next entryOffset hloop =>
          refine leads_walk filp seek hloop (leads_step 0 ?_)
          simp only [Pos.step]
          split at h
          · next hbehind =>
              cases h
              rw [if_pos hbehind]
              rfl
          · next hinside =>
              cases h
              rw [if_neg hinside]
              rfl

end Alone

/-! ### Each call in one step -/

/-- What a call does with the mutex held, in one step. -/
def Op.locked (M : ℕ) (k : Kernel) : Op → Except Fault (Kernel × Result)
  | .read _ _ count fPos env => (readLocked env.left k count fPos).map fun r => (k, .read r)
  | .write _ buf env => (writeLocked M env k (buf.getD [])).map fun q => (q.1, .write q.2)
  | .llseek filp off whence =>
      (llseekLoop k.dev.bufEntry.size maxWriteOperationsSupported 0).map fun size =>
        (k, (After.position filp off whence size).result)
  | .ioctl filp _ env =>
      (seekLocked k filp (env.arg.getD ⟨0, 0⟩)).map fun q => (k, .seek q.1 q.2)

/-- **A call checks, and then works with the mutex held.** -/
theorem Op.atomic_eq (M : ℕ) (k : Kernel) (a : Op) :
    a.atomic M k = match a.check with
      | some r => .ok (k, r)
      | none => a.locked M k := by
  cases a with
  | read filp buf count fPos env =>
      cases filp with
      | none => rfl
      | some filp =>
          cases buf with
          | false => rfl
          | true =>
              simp only [Op.atomic, Op.check, aesdRead]
              split
              · rfl
              · split
                · rfl
                · rfl
  | write filp buf env =>
      cases filp with
      | none => rfl
      | some filp =>
          cases buf with
          | none => rfl
          | some data =>
              simp only [Op.atomic, Op.check, aesdWrite]
              split
              · rfl
              · split
                · rfl
                · rfl
  | llseek filp off whence =>
      simp only [Op.atomic, Op.check, aesdLlseek]
      split
      · rfl
      · simp only [Op.locked]
        cases llseekLoop k.dev.bufEntry.size maxWriteOperationsSupported 0 with
        | error f => rfl
        | ok size => rfl
  | ioctl filp cmd env =>
      simp only [Op.atomic, Op.check, aesdIoctl]
      split
      · rfl
      · split
        · rfl
        · split
          · rfl
          · split
            · rfl
            · cases harg : env.arg with
              | none => rfl
              | some seek =>
                  simp only [Op.locked, harg, Option.getD_some]
                  split
                  · rfl
                  · rfl

theorem atomicCalls_step {M : ℕ} {k k' : Kernel} {a : Op} {r : Result} :
    (atomicCalls M).step k a = some (k', r) ↔ a.atomic M k = .ok (k', r) := by
  change (a.atomic M k).toOption = some (k', r) ↔ _
  cases a.atomic M k with
  | error f => simp [Except.toOption]
  | ok q => simp [Except.toOption]

theorem toOption_map {α β : Type} (e : Except Fault α) (f : α → β) :
    (e.map f).toOption = e.toOption.map f := by
  cases e <;> rfl

theorem map_eq_ok {α β : Type} {e : Except Fault α} {f : α → β} {b : β} (h : e.map f = .ok b) :
    ∃ a, e = .ok a ∧ f a = b := by
  cases e with
  | error f => cases h
  | ok a => exact ⟨a, rfl, Except.ok.inj h⟩

/-- The calls keep the invariant of the driver. -/
theorem Kernel.Inv.atomic {M : ℕ} {k k' : Kernel} (h : k.Inv M) {a : Op} {r : Result}
    (ha : a.atomic M k = .ok (k', r)) : k'.Inv M := by
  rw [Op.atomic_eq] at ha
  cases hcheck : a.check with
  | some r' =>
      rw [hcheck] at ha
      cases ha
      exact h
  | none =>
      rw [hcheck] at ha
      cases a with
      | read filp buf count fPos env =>
          obtain ⟨r', -, heq⟩ := map_eq_ok ha
          cases heq
          exact h
      | write filp buf env =>
          obtain ⟨q, hwrite, heq⟩ := map_eq_ok ha
          cases heq
          exact (h.writeLocked_cases hwrite).1
      | llseek filp off whence =>
          obtain ⟨size, -, heq⟩ := map_eq_ok ha
          cases heq
          exact h
      | ioctl filp cmd env =>
          obtain ⟨q, -, heq⟩ := map_eq_ok ha
          cases heq
          exact h

/-- **What the statements of a call do, one after the other, is the call in one step.** -/
theorem driver_implements {M : ℕ} (hM : 10 * M < 2 ^ 31) :
    (driver M).Implements (atomicCalls M) (Kernel.Inv M) where
  early := by
    intro a r hr k
    rw [atomicCalls_step, Op.atomic_eq, show a.check = some r from hr]
  alone := by
    intro a k h hnone
    change ∃ N, (driver M).Leads N a.enter k (a.atomic M k).toOption
    rw [Op.atomic_eq, show a.check = none from hnone]
    cases a with
    | read filp buf count fPos env =>
        refine ⟨3, ?_⟩
        simp only [Op.locked, toOption_map]
        exact leads_find env.left count fPos
    | write filp buf env =>
        refine ⟨7, ?_⟩
        simp only [Op.locked, toOption_map]
        exact leads_grow env (buf.getD [])
    | llseek filp off whence =>
        refine ⟨11, ?_⟩
        have hle := h.size_le
        have hturns : (10 + k.dev.bufEntry.size) / (k.dev.bufEntry.size + 1) ≤ 0 + 10 :=
          Nat.div_le_of_le_mul (by omega)
        have hloop := llseekLoop_eq (k := k.dev.bufEntry.size) (by omega) 10 (Nat.zero_le _) hturns
        rw [Nat.zero_mul] at hloop
        have hscan := leads_scan (M := M) filp off whence hloop
        simp only [Op.locked, toOption_map]
        rwa [show llseekLoop k.dev.bufEntry.size maxWriteOperationsSupported 0
          = .ok (seekSize k.dev.bufEntry.size : ℤ) from hloop]
    | ioctl filp cmd env =>
        refine ⟨13, ?_⟩
        obtain ⟨filp', r, hseek⟩ := h.seekLocked_returns filp (env.arg.getD ⟨0, 0⟩)
        simp only [Op.locked, toOption_map, hseek]
        exact leads_available hseek
  keeps := by
    intro a k k' r h ha
    exact h.atomic (atomicCalls_step.1 ha)

/-- The run of concurrent calls on the loaded module: any number of calls begin at any time, and
make their steps in any order that the mutex admits. -/
def ConcurrentRun {ι : Type} [DecidableEq ι] (M : ℕ)
    (t : List (CriticalSection.Act ι (Running Op Pos After Result) Tick × Unit))
    (s : State ι (Running Op Pos After Result) Kernel) : Prop :=
  (driver M).worker.system.Trace (Worker.Guard Procedure.Fresh Procedure.anyCall)
    (State.init Kernel.init) t s

/-! ### The mutex is given back -/

/-- A write arrives at a size that is positive and does not wrap around. -/
def Op.Sized (k : Kernel) : Op → Prop
  | .write _ (some data) _ =>
      0 < k.dev.bufEntry.size + data.length ∧ k.dev.bufEntry.size + data.length < 2 ^ 64
  | _ => True

/-- Calls other than writes of such a size end without a fault. -/
theorem Kernel.Inv.atomic_ok {M : ℕ} (hM : 10 * M < 2 ^ 31) {k : Kernel} (h : k.Inv M) {a : Op}
    (ha : a.Sized k) : ∃ q, a.atomic M k = .ok q := by
  have hflat : k.flat.length < 2 ^ 31 := h.flat_le.trans_lt hM
  rw [Op.atomic_eq]
  cases hcheck : a.check with
  | some r => exact ⟨_, rfl⟩
  | none =>
      cases a with
      | read filp buf count fPos env =>
          obtain ⟨r, hr⟩ := (h.readInside hflat count fPos).readLocked_ok env.left
          exact ⟨(k, .read r), by simp only [Op.locked, hr]; rfl⟩
      | write filp buf env =>
          cases buf with
          | none => cases filp <;> cases hcheck
          | some data =>
              obtain ⟨k', r, hw⟩ := h.writeLocked_ok env data ha.1 ha.2
              exact ⟨(k', .write r), by simp only [Op.locked, Option.getD_some, hw]; rfl⟩
      | llseek filp off whence =>
          have hle := h.size_le
          have hturns : (10 + k.dev.bufEntry.size) / (k.dev.bufEntry.size + 1) ≤ 0 + 10 :=
            Nat.div_le_of_le_mul (by omega)
          have hloop := llseekLoop_eq (k := k.dev.bufEntry.size) (by omega) 10 (Nat.zero_le _)
            hturns
          rw [Nat.zero_mul] at hloop
          refine ⟨(k, (After.position filp off whence (seekSize k.dev.bufEntry.size)).result), ?_⟩
          simp only [Op.locked]
          rw [show llseekLoop k.dev.bufEntry.size maxWriteOperationsSupported 0
            = .ok (seekSize k.dev.bufEntry.size : ℤ) from hloop]
          rfl
      | ioctl filp cmd env =>
          obtain ⟨filp', r, hseek⟩ := h.seekLocked_returns filp (env.arg.getD ⟨0, 0⟩)
          exact ⟨(k, .seek filp' r), by simp only [Op.locked, hseek]; rfl⟩

/-- **The call that has the mutex releases it**, in every run of concurrent calls, by steps of its
own and whatever the others do or wait for; it then has its result, which is that of the atomic call
on the device as the calls before it left it.  Left aside is a write whose size is zero or wraps
around, which can end in a fault. -/
theorem mutex_given_back {ι : Type} [DecidableEq ι] {M : ℕ} (hM : 10 * M < 2 ^ 31)
    {t : List (CriticalSection.Act ι (Running Op Pos After Result) Tick × Unit)}
    {s : State ι (Running Op Pos After Result) Kernel} (h : ConcurrentRun M t s) {i : ι}
    (howner : s.owner = some i) :
    ∃ is L k a pc, CriticalSection.acquired (driver M).worker t = is ++ [i] ∧
      (atomicCalls M).Trace Machine.free Kernel.init L k ∧
      List.Forall₂ (Procedure.Answers s.worker) is L ∧ s.worker i = some ⟨a, pc⟩ ∧
      (a.Sized k → ∃ s' c, (driver M).By i s s' ∧ s'.owner = none ∧
        (∀ j, j ≠ i → s'.worker j = s.worker j) ∧ s'.worker i = some ⟨a, .behind c⟩ ∧
        a.atomic M k = .ok (s'.shared, c.result)) := by
  have hordered := CriticalSection.serial (driver M).lawful h
  obtain ⟨is, L, k, a, pc, hacquired, htrace, hinv, hanswers, hpc, hplace, hstage⟩ :=
    (driver_implements hM).holder (.init M) hordered howner
  refine ⟨is, L, k, a, pc, hacquired, htrace, hanswers, hpc, ?_⟩
  intro hsized
  obtain ⟨⟨k', r⟩, ha⟩ := hinv.atomic_ok hM hsized
  obtain ⟨s', hrun, hfree, hothers, c, hc, heq⟩ :=
    Procedure.unlocks (atomicCalls_step.2 ha) hpc hplace hstage
  cases heq
  exact ⟨s', c, hrun, hfree, hothers, hc, ha⟩

/-- A read has found its entry, and a write waits. -/
theorem mutex_given_back_one :
    ∃ (t : List (CriticalSection.Act ℕ (Running Op Pos After Result) Tick × Unit))
      (s : State ℕ (Running Op Pos After Result) Kernel),
      ConcurrentRun 64 t s ∧ s.owner = some 0 ∧ (s.worker 1).isSome = true ∧
      ∃ s', (driver 64).By 0 s s' ∧ s'.owner = none ∧ s'.worker 1 = s.worker 1 := by
  have hex : ∃ p, (driver 64).worker.system.run (State.init Kernel.init)
      [.spawn 0 ⟨.read (some ⟨true, 0⟩) true 512 0 ⟨false, 0⟩, .start⟩,
        .spawn 1 ⟨.write (some ⟨true, 0⟩) (some [97, 10]) ⟨false, ⟨some 0, fun _ => 7⟩, 0⟩, .start⟩,
        .call 0 .lock] = some p :=
    Option.isSome_iff_exists.1 (by decide +kernel)
  obtain ⟨⟨s, os⟩, hrun⟩ := hex
  have howner : s.owner = some 0 := Machine.run_map hrun (fun p => p.1.owner) rfl
  have hwaits : (s.worker 1).isSome = true :=
    Machine.run_map hrun (fun p => (p.1.worker 1).isSome) rfl
  have harg : (s.worker 0).map Running.arg = some (.read (some ⟨true, 0⟩) true 512 0 ⟨false, 0⟩) :=
    Machine.run_map hrun (fun p => (p.1.worker 0).map Running.arg) rfl
  have hos : os = List.replicate 3 () := Machine.run_map hrun Prod.snd rfl
  subst hos
  have htrace : ConcurrentRun 64 _ s := Machine.trace_of_run hrun (by decide +kernel)
  obtain ⟨-, -, k, a, pc, -, -, -, hpc, hback⟩ := mutex_given_back (by decide) htrace howner
  rw [hpc, Option.map_some] at harg
  obtain rfl := Option.some.inj harg
  obtain ⟨s', -, hby, hfree, hothers, -⟩ := hback trivial
  exact ⟨_, s, htrace, howner, hwaits, s', hby, hfree, hothers 1 (by decide)⟩

end Aesd
