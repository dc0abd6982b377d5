/-
**The char device: the file operations of `aesd-char-driver/main.c`.**

The device keeps one command that is being assembled — a block of memory and the number of bytes in
it — and the ring of complete commands.  A write grows the block with `krealloc`, copies the user's
bytes behind those already there and, if the last byte is a newline, hands the block over to the
ring; what the ring evicts is freed.  A read serves bytes from the entry that holds the file
position.  The `ioctl` turns the number of a command and an offset in it into a file position.

Every operation takes the device's mutex for its whole body, so calls are atomic here.  What the
environment decides about a call — that the wait for the mutex is interrupted, what the allocator
does, how many bytes of a user copy fail — is an argument.  The result is the device after the call
and the return value, or a fault where the C program has no behaviour.

Main definitions:

* `AesdDev`, `Kernel`, `File` — the device, the device with the kernel's memory, an open file;
* `aesdOpen`, `aesdRelease`, `aesdRead`, `aesdWrite`, `aesdLlseek`, `aesdIoctl` — the file
  operations; `aesdInitModule` — the state they start from;
* `Kernel.commands`, `Kernel.pending` — what is stored, as bytes;
* `Sys`, `Call`, `charDev` — the device under system calls on any number of files.
-/

import Aesd.CircularBuffer
import Aesd.Machine

set_option relaxedAutoImplicit false
set_option autoImplicit false

namespace Aesd

/-- Conversion to `ssize_t` and `loff_t`. -/
def int64 (x : ℤ) : ℤ := CInt.signed 64 x

theorem int64_of_range {x : ℤ} (h₀ : 0 ≤ x) (h₁ : x < 2 ^ 63) : int64 x = x :=
  CInt.signed_of_range (w := 63) (by omega) h₁

/-- The byte `'\n'`. -/
def newline : UInt8 := 10

/-! ### The data -/

/-- `struct aesd_dev`, without the mutex and the `cdev`. -/
structure AesdDev where
  /-- The command that is being assembled. -/
  bufEntry : AesdBufferEntry
  /-- The complete commands. -/
  circularBuf : AesdCircularBuffer

/-- The device and the memory it uses. -/
structure Kernel where
  heap : Heap
  dev : AesdDev

/-- `struct file`: whether `private_data` is the device or `NULL`, and `f_pos`. -/
structure File where
  privateData : Bool
  fPos : ℤ
  deriving DecidableEq

/-- `struct aesd_seekto`. -/
structure AesdSeekto where
  writeCmd : UInt32
  writeCmdOffset : UInt32
  deriving DecidableEq, Repr

/-! ### Loading, opening, closing -/

/-- `aesd_init_module`, given what `alloc_chrdev_region` and `aesd_setup_cdev` return: the device
and the result. -/
def aesdInitModule (dev : AesdDev) (allocResult setupResult : ℤ) : AesdDev × ℤ :=
  if allocResult < 0 then (dev, allocResult)
  else (⟨.zero, .init⟩, setupResult)

/-- The state after `aesd_init_module`. -/
def Kernel.init : Kernel := ⟨.empty, ⟨.zero, .init⟩⟩

/-- `aesd_open`. -/
def aesdOpen (filp : File) : File × ℤ := ({ filp with privateData := true }, 0)

/-- `aesd_release`. -/
def aesdRelease (filp : File) : File × ℤ := ({ filp with privateData := false }, 0)

/-! ### Reading -/

/-- The environment of a read: the wait for the mutex is interrupted, and the number of bytes that
do not reach the user. -/
structure ReadEnv where
  interrupted : Bool
  left : ℕ

/-- The result of a read: the return value, the file position after it, and the bytes that reached
the user. -/
structure ReadResult where
  retval : ℤ
  fPos : ℤ
  data : List UInt8
  deriving DecidableEq

/-- `aesd_read` from the search on, with the mutex held. -/
def readLocked (left : ℕ) (k : Kernel) (count : ℕ) (fPos : ℤ) : Except Fault ReadResult :=
  match k.dev.circularBuf.findEntryOffsetForFpos (sizeT fPos) with
  | none => .ok ⟨0, fPos, []⟩
  | some (i, entryOffset) =>
      let entry := k.dev.circularBuf.entry i
      let available := int64 (sizeT ((entry.size : ℤ) - entryOffset))
      let bytesRead := if count < sizeT available then int64 count else available
      match copyToUser left k.heap entry.buffptr entryOffset (sizeT bytesRead) with
      | .error f => .error f
      | .ok (uncopied, data) =>
          if uncopied ≠ 0 then .ok ⟨-EFAULT, fPos, data⟩
          else .ok ⟨bytesRead, fPos + bytesRead, data⟩

/-- `aesd_read`; `buf` says that the user's pointer is not `NULL`. -/
def aesdRead (env : ReadEnv) (k : Kernel) (filp : Option File) (buf : Bool) (count : ℕ)
    (fPos : ℤ) : Except Fault ReadResult :=
  match filp, buf with
  | some filp, true =>
      if filp.privateData = false then .ok ⟨-ENODEV, fPos, []⟩
      else if env.interrupted then .ok ⟨-ERESTARTSYS, fPos, []⟩
      else readLocked env.left k count fPos
  | _, _ => .ok ⟨-EINVAL, fPos, []⟩

/-! ### Writing -/

/-- The environment of a write: the wait for the mutex is interrupted, what the allocator decides,
and the number of bytes that cannot be read from the user. -/
structure WriteEnv where
  interrupted : Bool
  alloc : Alloc
  left : ℕ

/-- The first half of `aesd_write` with the mutex held: the block of the pending command is grown
and the user's bytes are copied behind those already there.  The second component is the error the
function leaves with, if it does not go on. -/
def growEntry (M : ℕ) (env : WriteEnv) (k : Kernel) (data : List UInt8) :
    Except Fault (Kernel × Option ℤ) :=
  let size := k.dev.bufEntry.size
  let newEntrySize := sizeT (size + data.length)
  match krealloc M env.alloc k.heap k.dev.bufEntry.buffptr newEntrySize with
  | .error f => .error f
  | .ok (heap, .null) => .ok (⟨heap, { k.dev with bufEntry := ⟨.null, size⟩ }⟩, some (-ENOMEM))
  | .ok (heap, buffptr) =>
      match copyFromUser env.left heap buffptr size data with
      | .error f => .error f
      | .ok (heap, uncopied) =>
          if uncopied ≠ 0 then
            .ok (⟨heap, { k.dev with bufEntry := ⟨buffptr, size⟩ }⟩, some (-EFAULT))
          else
            .ok (⟨heap, { k.dev with bufEntry := ⟨buffptr, sizeT (size + data.length)⟩ }⟩, none)

/-- The second half: a command that ends with a newline goes to the ring, and the block of the
command that it evicts is freed. -/
def commitEntry (k : Kernel) : Except Fault Kernel :=
  match k.heap.load k.dev.bufEntry.buffptr (sizeT ((k.dev.bufEntry.size : ℤ) - 1)) with
  | .error f => .error f
  | .ok last =>
      if last = newline then
        let (circularBuf, freeBufferPtr) := k.dev.circularBuf.addEntry k.dev.bufEntry
        if freeBufferPtr ≠ .null then
          match kfree k.heap freeBufferPtr with
          | .error f => .error f
          | .ok heap => .ok ⟨heap, ⟨.zero, circularBuf⟩⟩
        else .ok ⟨k.heap, ⟨.zero, circularBuf⟩⟩
      else .ok k

/-- `aesd_write` with the mutex held. -/
def writeLocked (M : ℕ) (env : WriteEnv) (k : Kernel) (data : List UInt8) :
    Except Fault (Kernel × ℤ) :=
  match growEntry M env k data with
  | .error f => .error f
  | .ok (k, some err) => .ok (k, err)
  | .ok (k, none) =>
      match commitEntry k with
      | .error f => .error f
      | .ok k => .ok (k, int64 data.length)

/-- `aesd_write`; the count is the number of bytes in the user's buffer. -/
def aesdWrite (M : ℕ) (env : WriteEnv) (k : Kernel) (filp : Option File)
    (buf : Option (List UInt8)) : Except Fault (Kernel × ℤ) :=
  match filp, buf with
  | some filp, some data =>
      if filp.privateData = false then .ok (k, -ENODEV)
      else if env.interrupted then .ok (k, -ERESTARTSYS)
      else writeLocked M env k data
  | _, _ => .ok (k, -EINVAL)

/-! ### Seeking -/

/-- The kernel's `fixed_size_llseek` for a file of a given size: the new position, or an error. -/
def fixedSizeLlseek (fPos off whence size : ℤ) : ℤ :=
  let seek (base : ℤ) := if 0 ≤ base + off ∧ base + off ≤ size then base + off else -EINVAL
  if whence = 0 then seek 0
  else if whence = 1 then seek fPos
  else if whence = 2 then seek size
  else -EINVAL

/-- The loop of `aesd_llseek`: `AESD_CIRCULAR_BUFFER_FOREACH` runs with `size` itself as its index,
and the body adds the size of the pending command. -/
def llseekLoop (pendingSize : ℕ) : ℕ → ℤ → Except Fault ℤ
  | fuel, size =>
      if size < maxWriteOperationsSupported then
        match fuel with
        | 0 => .error .stuck
        | fuel + 1 => llseekLoop pendingSize fuel (int64 (sizeT size + pendingSize) + 1)
      else .ok size

/-- `aesd_llseek`. -/
def aesdLlseek (k : Kernel) (filp : File) (off whence : ℤ) : Except Fault (File × ℤ) :=
  if filp.privateData = false then .ok (filp, -ENODEV)
  else
    match llseekLoop k.dev.bufEntry.size maxWriteOperationsSupported 0 with
    | .error f => .error f
    | .ok size =>
        let newpos := fixedSizeLlseek filp.fPos off whence size
        .ok (if newpos < 0 then filp else { filp with fPos := newpos }, newpos)

/-- `AESD_IOC_MAGIC`. -/
def aesdIocMagic : UInt32 := 0x16

/-- `AESDCHAR_IOCSEEKTO`: `_IOWR` of the magic, number 1 and the eight bytes of the argument. -/
def aesdcharIocseekto : UInt32 :=
  ((3 : UInt32) <<< 30) ||| ((8 : UInt32) <<< 16) ||| (aesdIocMagic <<< 8) ||| 1

/-- `AESDCHAR_IOC_MAXNR`. -/
def aesdcharIocMaxnr : UInt32 := 1

/-- `_IOC_TYPE`. -/
def iocType (cmd : UInt32) : UInt32 := (cmd >>> 8) &&& 0xff

/-- `_IOC_NR`. -/
def iocNr (cmd : UInt32) : UInt32 := cmd &&& 0xff

/-- The environment of an `ioctl`: what the user's pointer yields, and whether the wait for the
mutex is interrupted. -/
structure IoctlEnv where
  arg : Option AesdSeekto
  interrupted : Bool

/-- The loop of `aesd_ioctl`: from slot `i` on to the slot of the command, adding sizes. -/
def seekLoop (b : AesdCircularBuffer) (commandIdx : Fin maxWriteOperationsSupported) :
    ℕ → Fin maxWriteOperationsSupported → ℕ → Except Fault ℕ
  | fuel, i, entryOffset =>
      if i = commandIdx then .ok entryOffset
      else
        match fuel with
        | 0 => .error .stuck
        | fuel + 1 =>
            seekLoop b commandIdx fuel (Fin.ofNat maxWriteOperationsSupported (i.val + 1))
              (sizeT (entryOffset + (b.entry i).size))

/-- `aesd_ioctl` from the count of the entries on, with the mutex held. -/
def seekLocked (k : Kernel) (filp : File) (seek : AesdSeekto) : Except Fault (File × ℤ) :=
  let b := k.dev.circularBuf
  if CInt.unsigned 32 b.availableEntries ≤ seek.writeCmd.toNat then .ok (filp, -EINVAL)
  else
    let commandIdx := Fin.ofNat maxWriteOperationsSupported
      (CInt.unsigned 32 ((b.outOffs : ℤ) + seek.writeCmd.toNat))
    let first := ⟨b.outOffs, b.out_lt⟩
    match seekLoop b commandIdx maxWriteOperationsSupported first 0 with
    | .error f => .error f
    | .ok entryOffset =>
        if (b.entry commandIdx).size < seek.writeCmdOffset.toNat then .ok (filp, -EINVAL)
        else
          .ok ({ filp with fPos := int64 (sizeT ((entryOffset : ℤ) + seek.writeCmdOffset.toNat)) },
            0)

/-- `aesd_ioctl`. -/
def aesdIoctl (env : IoctlEnv) (k : Kernel) (filp : File) (cmd : UInt32) :
    Except Fault (File × ℤ) :=
  if filp.privateData = false then .ok (filp, -ENODEV)
  else if iocType cmd ≠ aesdIocMagic then .ok (filp, -ENOTTY)
  else if aesdcharIocMaxnr < iocNr cmd then .ok (filp, -ENOTTY)
  else if cmd ≠ aesdcharIocseekto then .ok (filp, -ENOTTY)
  else
    match env.arg with
    | none => .ok (filp, -EFAULT)
    | some seek =>
        if env.interrupted then .ok (filp, -ERESTARTSYS) else seekLocked k filp seek

/-! ### What is stored -/

/-- The bytes of an entry. -/
def Heap.bytesOf (h : Heap) (e : AesdBufferEntry) : List UInt8 := (h.contents e.buffptr).take e.size

/-- The commands in the ring, oldest first. -/
def Kernel.commands (k : Kernel) : List (List UInt8) :=
  k.dev.circularBuf.entries.map k.heap.bytesOf

/-- The bytes of the command that is being assembled. -/
def Kernel.pending (k : Kernel) : List UInt8 := k.heap.bytesOf k.dev.bufEntry

/-- The stored bytes as a reader sees them: the commands, one after the other. -/
def Kernel.flat (k : Kernel) : List UInt8 := k.commands.flatten

/-- The pending bytes and the commands. -/
def Kernel.log (k : Kernel) : TermLog UInt8 := ⟨k.pending, k.commands⟩

/-! ### The device under system calls -/

/-- The device and the files, by descriptor.  A descriptor that is not open has no device. -/
structure Sys where
  kern : Kernel
  file : ℕ → File

/-- One system call on the device, with what its environment decides. -/
inductive Call where
  | openFile (f : ℕ)
  | releaseFile (f : ℕ)
  | read (f : Option ℕ) (buf : Bool) (count : ℕ) (env : ReadEnv)
  | write (f : Option ℕ) (buf : Option (List UInt8)) (env : WriteEnv)
  | llseek (f : ℕ) (off whence : ℤ)
  | ioctl (f : ℕ) (cmd : UInt32) (env : IoctlEnv)

/-- What a call returns: the value, and the bytes that reached the user. -/
structure Reply where
  retval : ℤ
  data : List UInt8
  deriving DecidableEq

/-- Replacing a file. -/
def Sys.setFile (s : Sys) (f : ℕ) (filp : File) : Sys :=
  { s with file := Function.update s.file f filp }

/-- One system call.  A new file starts at position zero; a read moves the position of its file. -/
def Sys.call (M : ℕ) (s : Sys) : Call → Except Fault (Sys × Reply)
  | .openFile f =>
      let (filp, r) := aesdOpen ⟨false, 0⟩
      .ok (s.setFile f filp, ⟨r, []⟩)
  | .releaseFile f =>
      let (filp, r) := aesdRelease (s.file f)
      .ok (s.setFile f filp, ⟨r, []⟩)
  | .read f buf count env =>
      let filp := f.map s.file
      match aesdRead env s.kern filp buf count ((filp.map File.fPos).getD 0) with
      | .error e => .error e
      | .ok r =>
          match f with
          | none => .ok (s, ⟨r.retval, r.data⟩)
          | some f => .ok (s.setFile f { s.file f with fPos := r.fPos }, ⟨r.retval, r.data⟩)
  | .write f buf env =>
      match aesdWrite M env s.kern (f.map s.file) buf with
      | .error e => .error e
      | .ok (k, r) => .ok ({ s with kern := k }, ⟨r, []⟩)
  | .llseek f off whence =>
      match aesdLlseek s.kern (s.file f) off whence with
      | .error e => .error e
      | .ok (filp, r) => .ok (s.setFile f filp, ⟨r, []⟩)
  | .ioctl f cmd env =>
      match aesdIoctl env s.kern (s.file f) cmd with
      | .error e => .error e
      | .ok (filp, r) => .ok (s.setFile f filp, ⟨r, []⟩)

/-- **The device as a machine.**  A call that ends in a fault is not a step. -/
def charDev (M : ℕ) : Machine Sys Call Reply where
  step s c := (s.call M c).toOption

/-- The loaded module, no file open. -/
def Sys.init : Sys := ⟨.init, fun _ => ⟨false, 0⟩⟩

/-- The states that calls reach from the loaded module. -/
def Reachable (M : ℕ) (s : Sys) : Prop := (charDev M).Reach Machine.free Sys.init s

theorem aesdInitModule_init (dev : AesdDev) {allocResult setupResult : ℤ} (h : 0 ≤ allocResult) :
    (⟨.empty, (aesdInitModule dev allocResult setupResult).1⟩ : Kernel) = Kernel.init := by
  rw [aesdInitModule, if_neg (by omega)]
  rfl

theorem charDev_step {M : ℕ} {s s' : Sys} {c : Call} {r : Reply} :
    (charDev M).step s c = some (s', r) ↔ s.call M c = .ok (s', r) := by
  change (s.call M c).toOption = some (s', r) ↔ _
  cases s.call M c with
  | error f => simp [Except.toOption]
  | ok p => simp [Except.toOption]

end Aesd
