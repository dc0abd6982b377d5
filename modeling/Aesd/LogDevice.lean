/-
**What the device is for: a log of commands under files that read it.**

A user of the char device sees neither blocks nor a ring.  What there is to see is a log of commands
with some pending bytes, and files with a position in it: a write appends, a read serves the rest of
the command at the position, the `ioctl` goes to a command by its number, and a seek moves the
position.  Here that device is written down by itself, without a heap, without indices and without
faults, and the driver is shown to be an implementation of it: every run of system calls on the
driver is a run of the log device, with the same replies.

The one thing that the log device cannot know by itself is which requests for memory are refused;
it is told, together with the call.  Addresses and fresh bytes it is not told, so that they do not
matter.  The runs are those in which no write loses pending bytes, as in `CharDeviceFailure`.

* `LogSys`, `LogSys.call`, `logDevice` — the log device;
* `Kernel.Inv.aesdRead_eq`, `Kernel.Inv.aesdIoctl_eq`, `Kernel.Inv.aesdLlseek_view` — what the
  operations of the driver are for it;
* `Sys.Views.step` — one call;
* `charDev_refines_log` — **every run is a run of the log device**;
* `allocator_invisible` — addresses and fresh bytes are never seen.
-/

import Aesd.CharDeviceFailure
import Aesd.CharDeviceRead
import Aesd.CharDeviceSeek
import Aesd.CharDeviceLlseek
import Aesd.CharDeviceBounds

set_option relaxedAutoImplicit false
set_option autoImplicit false

namespace Aesd

open TermLog

/-! ### The log device -/

/-- A log of commands, and the files by descriptor. -/
structure LogSys where
  log : TermLog UInt8
  file : ℕ → File

/-- Reading at a position: the rest of the command there, as far as it is asked for.  If a part of
it does not reach the user, the position stays. -/
def logServe (left : ℕ) (commands : List (List UInt8)) (count p : ℕ) : ReadResult :=
  let bytes := (Segments.rest commands p).take count
  let u := uncopied left bytes.length
  if u = 0 then ⟨bytes.length, p + bytes.length, bytes⟩
  else ⟨-EFAULT, p, bytes.take (bytes.length - u)⟩

def logRead (env : ReadEnv) (commands : List (List UInt8)) (filp : Option File) (buf : Bool)
    (count : ℕ) (fPos : ℤ) : ReadResult :=
  match filp, buf with
  | some filp, true =>
      if filp.privateData = false then ⟨-ENODEV, fPos, []⟩
      else if env.interrupted then ⟨-ERESTARTSYS, fPos, []⟩
      else logServe env.left commands count fPos.toNat
  | _, _ => ⟨-EINVAL, fPos, []⟩

/-- A write; `granted` says that the memory for it is to be had. -/
def logWrite (interrupted granted : Bool) (left : ℕ) (log : TermLog UInt8) (filp : Option File)
    (buf : Option (List UInt8)) : TermLog UInt8 × ℤ :=
  match filp, buf with
  | some filp, some data =>
      if filp.privateData = false then (log, -ENODEV)
      else if interrupted then (log, -ERESTARTSYS)
      else if granted = false then (log, -ENOMEM)
      else if uncopied left data.length ≠ 0 then (log, -EFAULT)
      else (feed 10 newline log data, data.length)
  | _, _ => (log, -EINVAL)

/-- A seek; what the driver takes for the size depends on the pending bytes only. -/
def logLlseek (pending : List UInt8) (filp : File) (off whence : ℤ) : File × ℤ :=
  if filp.privateData = false then (filp, -ENODEV)
  else
    let newpos := fixedSizeLlseek filp.fPos off whence (seekSize pending.length)
    (if newpos < 0 then filp else { filp with fPos := newpos }, newpos)

/-- Going to a command by its number, and to an offset in it or right behind it. -/
def logSeek (commands : List (List UInt8)) (filp : File) (seek : AesdSeekto) : File × ℤ :=
  match commands[seek.writeCmd.toNat]? with
  | none => (filp, -EINVAL)
  | some c =>
      if c.length < seek.writeCmdOffset.toNat then (filp, -EINVAL)
      else
        ({ filp with
          fPos := (((commands.take seek.writeCmd.toNat).flatten).length
            + seek.writeCmdOffset.toNat : ℕ) }, 0)

def logIoctl (env : IoctlEnv) (commands : List (List UInt8)) (filp : File) (cmd : UInt32) :
    File × ℤ :=
  if filp.privateData = false then (filp, -ENODEV)
  else if cmd ≠ aesdcharIocseekto then (filp, -ENOTTY)
  else
    match env.arg with
    | none => (filp, -EFAULT)
    | some seek => if env.interrupted then (filp, -ERESTARTSYS) else logSeek commands filp seek

def LogSys.setFile (s : LogSys) (f : ℕ) (filp : File) : LogSys :=
  { s with file := Function.update s.file f filp }

/-- One system call on the log device. -/
def LogSys.call (s : LogSys) (granted : Bool) : Call → LogSys × Reply
  | .openFile f => (s.setFile f ⟨true, 0⟩, ⟨0, []⟩)
  | .releaseFile f => (s.setFile f { s.file f with privateData := false }, ⟨0, []⟩)
  | .read none buf count env =>
      let r := logRead env s.log.entries none buf count 0
      (s, ⟨r.retval, r.data⟩)
  | .read (some f) buf count env =>
      let r := logRead env s.log.entries (some (s.file f)) buf count (s.file f).fPos
      (s.setFile f { s.file f with fPos := r.fPos }, ⟨r.retval, r.data⟩)
  | .write f buf env =>
      let (log, r) := logWrite env.interrupted granted env.left s.log (f.map s.file) buf
      ({ s with log := log }, ⟨r, []⟩)
  | .llseek f off whence =>
      let (filp, r) := logLlseek s.log.pending (s.file f) off whence
      (s.setFile f filp, ⟨r, []⟩)
  | .ioctl f cmd env =>
      let (filp, r) := logIoctl env s.log.entries (s.file f) cmd
      (s.setFile f filp, ⟨r, []⟩)

/-- **The log device as a machine.**  A label is a call, and whether memory is granted to it. -/
def logDevice : Machine LogSys (Call × Bool) Reply where
  step s p := some (s.call p.2 p.1)

/-- No command, no pending byte, no file open. -/
def LogSys.init : LogSys := ⟨empty, fun _ => ⟨false, 0⟩⟩

/-! ### What the operations of the driver are for it -/

theorem Kernel.Inv.readLocked_eq {M : ℕ} {k : Kernel} (h : k.Inv M)
    (hflat : k.flat.length < 2 ^ 31) (left count : ℕ) {p : ℕ} (hp : p < 2 ^ 63) :
    readLocked left k count p = .ok (logServe left k.commands count p) := by
  rcases hloc : Segments.locate (k.commands.map List.length) p with _ | ⟨j, o⟩
  · have hend : k.flat.length ≤ p := by
      rw [Kernel.flat, List.length_flatten]
      exact Segments.locate_eq_none_iff.1 hloc
    have hrest := Segments.rest_of_locate_none hloc
    rw [h.readLocked_end hflat left count hp hend, logServe, hrest]
    simp [uncopied]
  · obtain ⟨c, hc, -⟩ := Segments.drop_flatten hloc
    have hrest := Segments.rest_of_locate hloc hc
    have hlen : ((c.drop o).take count).length = min count (c.length - o) := by
      rw [List.length_take, List.length_drop]
    have htake : (c.drop o).take (min count (c.length - o)) = (c.drop o).take count := by
      rw [← List.length_drop, ← List.take_eq_take_min]
    rw [h.readLocked_inside hflat left count hp hloc hc rfl, logServe, hrest, htake, ← hlen]

theorem Kernel.Inv.aesdRead_eq {M : ℕ} {k : Kernel} (h : k.Inv M) (hflat : k.flat.length < 2 ^ 31)
    (env : ReadEnv) (filp : Option File) (buf : Bool) (count : ℕ) {fPos : ℤ} (hp₀ : 0 ≤ fPos)
    (hp : fPos < 2 ^ 63) :
    aesdRead env k filp buf count fPos = .ok (logRead env k.commands filp buf count fPos) := by
  obtain ⟨p, rfl⟩ := Int.eq_ofNat_of_zero_le hp₀
  cases filp with
  | none => rfl
  | some filp =>
      cases buf with
      | false => rfl
      | true =>
          rw [aesdRead, logRead]
          split
          · rfl
          · split
            · rfl
            · exact h.readLocked_eq hflat env.left count (by omega)

theorem Kernel.Inv.seekLocked_eq {M : ℕ} {k : Kernel} (h : k.Inv M)
    (hflat : k.flat.length < 2 ^ 31) (filp : File) (seek : AesdSeekto) :
    seekLocked k filp seek = .ok (logSeek k.commands filp seek) := by
  cases hc : k.commands[seek.writeCmd.toNat]? with
  | none =>
      rw [h.seekLocked_einval filp (List.getElem?_eq_none_iff.1 hc), logSeek, hc]
  | some c =>
      simp only [h.seekLocked_stored hflat filp hc, logSeek, hc]
      split
      · rfl
      · rfl

theorem Kernel.Inv.aesdIoctl_eq {M : ℕ} {k : Kernel} (h : k.Inv M)
    (hflat : k.flat.length < 2 ^ 31) (env : IoctlEnv) (filp : File) (cmd : UInt32) :
    aesdIoctl env k filp cmd = .ok (logIoctl env k.commands filp cmd) := by
  by_cases hcmd : cmd = aesdcharIocseekto
  · -- the only command that passes the three checks
    subst hcmd
    have htype : ¬ iocType aesdcharIocseekto ≠ aesdIocMagic := by decide
    have hnr : ¬ aesdcharIocMaxnr < iocNr aesdcharIocseekto := by decide
    rw [aesdIoctl, logIoctl, if_neg htype, if_neg hnr]
    split
    · rfl
    · rw [if_neg (not_not.2 rfl), if_neg (not_not.2 rfl)]
      cases env.arg with
      | none => rfl
      | some seek =>
          cases env.interrupted with
          | true => rfl
          | false => exact h.seekLocked_eq hflat filp seek
  · rw [aesdIoctl, logIoctl, if_pos hcmd, if_pos hcmd]
    split
    · rfl
    · split
      · rfl
      · split
        · rfl
        · rfl

theorem Kernel.Inv.aesdLlseek_view {M : ℕ} (hM : 10 * M < 2 ^ 31) {k : Kernel} (h : k.Inv M)
    (hint : k.Intact) (filp : File) (off whence : ℤ) :
    aesdLlseek k filp off whence = .ok (logLlseek k.pending filp off whence) := by
  have hle := h.size_le
  cases hopen : filp.privateData with
  | false => rw [aesdLlseek, logLlseek, if_pos hopen, if_pos hopen]
  | true =>
      have hopen' : ¬ filp.privateData = false := by simp [hopen]
      rw [aesdLlseek_eq (by omega) hopen, logLlseek, hint, if_neg hopen']

/-! ### Where the positions are -/

/-- A position that a `loff_t` holds. -/
def IsPos (p : ℤ) : Prop := 0 ≤ p ∧ p < 2 ^ 63

theorem logServe_fPos (left count p : ℕ) (commands : List (List UInt8)) :
    p ≤ (logServe left commands count p).fPos ∧
      (logServe left commands count p).fPos ≤ max p commands.flatten.length := by
  have hrest := (Segments.rest_prefix commands p).length_le
  rw [List.length_drop] at hrest
  have htake := List.length_take_le' count (Segments.rest commands p)
  rw [logServe]
  split
  · constructor
    · simp
    · simp only
      omega
  · simp

theorem logSeek_fPos (commands : List (List UInt8)) (filp : File) (seek : AesdSeekto) :
    (logSeek commands filp seek).1.fPos = filp.fPos ∨
      ∃ p : ℕ, (logSeek commands filp seek).1.fPos = p ∧ p ≤ commands.flatten.length := by
  rw [logSeek]
  split
  · exact .inl rfl
  · next c hc =>
      split
      · exact .inl rfl
      · next hoff =>
          refine .inr ⟨_, rfl, ?_⟩
          have hsplit : commands.take (seek.writeCmd.toNat + 1)
              = commands.take seek.writeCmd.toNat ++ [c] := by
            rw [List.take_add_one, hc, Option.toList_some]
          have hle := ((List.take_sublist (seek.writeCmd.toNat + 1) commands).flatten).length_le
          rw [hsplit, List.flatten_append, List.length_append] at hle
          simp only [List.flatten_singleton] at hle
          omega

theorem seekSize_le (k : ℕ) : seekSize k ≤ 10 + k := Nat.div_mul_le_self _ _

theorem fixedSizeLlseek_le (fPos off whence : ℤ) {size : ℤ} (hsize : 0 ≤ size) :
    fixedSizeLlseek fPos off whence size ≤ size := by
  simp only [fixedSizeLlseek, EINVAL]
  split_ifs <;> omega

theorem logRead_isPos {commands : List (List UInt8)} (hflat : commands.flatten.length < 2 ^ 31)
    (env : ReadEnv) (filp : Option File) (buf : Bool) (count : ℕ) {p : ℤ} (hp : IsPos p) :
    IsPos (logRead env commands filp buf count p).fPos := by
  rw [logRead.eq_def]
  split
  · split
    · exact hp
    · split
      · exact hp
      · obtain ⟨hge, hle⟩ := logServe_fPos env.left count p.toNat commands
        obtain ⟨hp₀, hp₁⟩ := hp
        constructor <;> omega
  · exact hp

theorem logLlseek_isPos {pending : List UInt8} (hpending : pending.length < 2 ^ 31) {filp : File}
    (off whence : ℤ) (hp : IsPos filp.fPos) :
    IsPos (logLlseek pending filp off whence).1.fPos := by
  have hsize := seekSize_le pending.length
  have hle := fixedSizeLlseek_le filp.fPos off whence (Int.natCast_nonneg (seekSize pending.length))
  rw [logLlseek]
  split
  · exact hp
  · simp only
    split
    · exact hp
    · constructor <;> simp only <;> omega

theorem logIoctl_isPos {commands : List (List UInt8)} (hflat : commands.flatten.length < 2 ^ 31)
    (env : IoctlEnv) {filp : File} (cmd : UInt32) (hp : IsPos filp.fPos) :
    IsPos (logIoctl env commands filp cmd).1.fPos := by
  rw [logIoctl]
  split
  · exact hp
  · split
    · exact hp
    · split
      · exact hp
      · next seek _ =>
          split
          · exact hp
          · rcases logSeek_fPos commands filp seek with heq | ⟨p, heq, hle⟩
            · rwa [heq]
            · rw [heq]
              constructor <;> omega

/-! ### The driver, seen as a log device -/

/-- What a user sees of the driver. -/
def Sys.view (s : Sys) : LogSys := ⟨s.kern.log, s.file⟩

/-- The call without what the allocator does. -/
def Call.blind : Call → Call
  | .write f buf env => .write f buf { env with alloc := ⟨none, fun _ => 0⟩ }
  | .openFile f => .openFile f
  | .releaseFile f => .releaseFile f
  | .read f buf count env => .read f buf count env
  | .llseek f off whence => .llseek f off whence
  | .ioctl f cmd env => .ioctl f cmd env

/-- The call was not refused for want of memory. -/
def Reply.granted (r : Reply) : Bool := decide (r.retval ≠ -ENOMEM)

/-- A call and its reply, as the log device is told them. -/
def seen (p : Call × Reply) : (Call × Bool) × Reply := ((p.1.blind, p.2.granted), p.2)

/-- **The invariant of the runs that lose no pending bytes.** -/
structure Sys.Views (M : ℕ) (s : Sys) : Prop where
  inv : s.kern.Inv M
  intact : s.kern.Intact
  good : Good 10 newline s.kern.log
  fPos : ∀ f, IsPos (s.file f).fPos

theorem Sys.Views.init (M : ℕ) : Sys.init.Views M :=
  ⟨.init M, .init, .empty 10 newline, fun _ => ⟨le_rfl, Int.pow_pos (by decide)⟩⟩

/-- The positions stay in range if that of the one file that moves does. -/
theorem Sys.Views.setFile_fPos {M : ℕ} {s : Sys} (h : s.Views M) {f : ℕ} {filp : File}
    (hfilp : IsPos filp.fPos) (f' : ℕ) : IsPos ((s.setFile f filp).file f').fPos := by
  by_cases hff : f' = f
  · subst hff
    rw [Sys.setFile_file_self]
    exact hfilp
  · simp only [Sys.setFile, Function.update_of_ne hff]
    exact h.fPos f'

/-- A write of the driver is one of the log device. -/
theorem Sys.Views.aesdWrite_eq {M : ℕ} {s : Sys} (h : s.Views M) {f : Option ℕ}
    {buf : Option (List UInt8)} {env : WriteEnv} (hl : ¬ s.Loses M (.write f buf env)) {k : Kernel}
    {r : ℤ} (hw : aesdWrite M env s.kern (f.map s.file) buf = .ok (k, r)) :
    logWrite env.interrupted (Reply.granted ⟨r, []⟩) env.left s.kern.log (f.map s.file) buf
      = (k.log, r) := by
  have hcall : s.call M (.write f buf env) = .ok ({ s with kern := k }, ⟨r, []⟩) := by
    simp only [Sys.call, hw]
  obtain ⟨-, hlog⟩ := Sys.call_log h.inv h.intact h.good hl hcall
  cases f with
  | none =>
      cases hw
      rfl
  | some f =>
      cases buf with
      | none =>
          cases hw
          rfl
      | some data =>
          simp only [Option.map_some, aesdWrite] at hw
          simp only [Option.map_some, logWrite]
          split at hw
          · next hclosed =>
              cases hw
              rw [if_pos hclosed]
          · next hopen =>
              rw [if_neg hopen]
              split at hw
              · next hint =>
                  cases hw
                  rw [if_pos hint]
              · next hint =>
                  rw [if_neg hint]
                  obtain ⟨-, ⟨rfl, -⟩ | ⟨rfl, -, hu, -⟩ | ⟨rfl, -, hu, -⟩⟩ :=
                    h.inv.writeLocked_cases hw
                  · rw [if_pos (by decide), hlog, if_neg (by decide)]
                  · rw [if_neg (by decide), if_pos hu, hlog, if_neg (by decide)]
                  · have hle : data.length ≤ INT_MAX := uncopied_eq_zero hu
                    have hr : int64 data.length = data.length :=
                      int64_of_range (by omega) (by rw [INT_MAX] at hle; omega)
                    have hgranted : ¬ Reply.granted ⟨int64 data.length, []⟩ = false := by
                      simp only [Reply.granted, hr, ENOMEM, decide_eq_false_iff_not, not_not]
                      omega
                    rw [if_neg hgranted, if_neg (not_not.2 hu), hlog, hr, if_pos (by simp)]
                    rfl

/-- **A call on the driver is one on the log device**, with the same reply. -/
theorem Sys.Views.step {M : ℕ} (hM : 10 * M < 2 ^ 31) {s s' : Sys} (h : s.Views M) {c : Call}
    {r : Reply} (hl : ¬ s.Loses M c) (hc : s.call M c = .ok (s', r)) :
    s'.Views M ∧ s.view.call r.granted c.blind = (s'.view, r) := by
  have hflat : s.kern.flat.length < 2 ^ 31 := h.inv.flat_le.trans_lt hM
  have hpending : s.kern.pending.length < 2 ^ 31 := by
    have hle := h.inv.size_le
    rw [h.intact]
    omega
  obtain ⟨hint, hlog⟩ := Sys.call_log h.inv h.intact h.good hl hc
  have hgood : Good 10 newline s'.kern.log := by
    rw [hlog]
    split
    · exact h.good.feed _
    · exact h.good
  suffices hfile : (∀ f, IsPos (s'.file f).fPos) ∧
      s.view.call r.granted c.blind = (s'.view, r) from
    ⟨⟨h.inv.call hc, hint, hgood, hfile.1⟩, hfile.2⟩
  cases c with
  | openFile f =>
      cases hc
      exact ⟨h.setFile_fPos ⟨le_rfl, by decide⟩, rfl⟩
  | releaseFile f =>
      cases hc
      exact ⟨h.setFile_fPos (h.fPos f), rfl⟩
  | read f buf count env =>
      cases f with
      | none =>
          simp only [Sys.call, Option.map_none, Option.getD_none,
            h.inv.aesdRead_eq hflat env none buf count le_rfl (by decide)] at hc
          cases hc
          exact ⟨h.fPos, rfl⟩
      | some f =>
          simp only [Sys.call, Option.map_some, Option.getD_some,
            h.inv.aesdRead_eq hflat env _ buf count (h.fPos f).1 (h.fPos f).2] at hc
          cases hc
          exact ⟨h.setFile_fPos (logRead_isPos hflat env _ buf count (h.fPos f)), rfl⟩
  | write f buf env =>
      simp only [Sys.call] at hc
      split at hc
      · cases hc
      · next k r' hw =>
          cases hc
          refine ⟨h.fPos, ?_⟩
          simp only [Call.blind, LogSys.call, Sys.view, h.aesdWrite_eq hl hw]
  | llseek f off whence =>
      simp only [Sys.call, h.inv.aesdLlseek_view hM h.intact] at hc
      cases hc
      exact ⟨h.setFile_fPos (logLlseek_isPos hpending off whence (h.fPos f)), rfl⟩
  | ioctl f cmd env =>
      simp only [Sys.call, h.inv.aesdIoctl_eq hflat] at hc
      cases hc
      exact ⟨h.setFile_fPos (logIoctl_isPos hflat env cmd (h.fPos f)), rfl⟩

/-- **Every run in which no write loses pending bytes is a run of the log device**, with the same
replies, on what a user sees.  No block is so large that ten of them have more bytes than an `int`
counts. -/
theorem charDev_refines_log {M : ℕ} (hM : 10 * M < 2 ^ 31) {t : List (Call × Reply)} {s : Sys}
    (h : (charDev M).Trace (fun s c => ¬ s.Loses M c) Sys.init t s) :
    logDevice.Trace Machine.free LogSys.init (t.map seen) s.view := by
  have hrefines : ∃ x, logDevice.Trace Machine.free LogSys.init (t.map seen) x ∧
      s.Views M ∧ x = s.view := by
    refine h.refines_labels (R := fun s x => s.Views M ∧ x = s.view) ⟨.init M, rfl⟩ ?_
    rintro s x c s' r ⟨hviews, rfl⟩ hl hstep
    obtain ⟨hviews', hcall⟩ := hviews.step hM hl (charDev_step.1 hstep)
    exact ⟨trivial, s'.view, congrArg some hcall, hviews', rfl⟩
  obtain ⟨x, htrace, -, rfl⟩ := hrefines
  exact htrace

/-- A line is written in two pieces, between which a request is refused that would have started
nothing, and read from its second byte on. -/
theorem charDev_refines_log_one_line :
    ∃ t s, (charDev 64).Trace (fun s c => ¬ s.Loses 64 c) Sys.init t s ∧
      t.map Prod.snd = [⟨0, []⟩, ⟨-12, []⟩, ⟨1, []⟩, ⟨2, []⟩, ⟨1, []⟩, ⟨2, [98, 10]⟩] ∧
      logDevice.Trace Machine.free LogSys.init (t.map seen) s.view := by
  obtain ⟨⟨s, rs⟩, hrun⟩ : ∃ p, (charDev 64).run Sys.init
      [.openFile 0, .write (some 0) (some [97]) ⟨false, ⟨none, fun _ => 7⟩, 0⟩,
        .write (some 0) (some [97]) ⟨false, ⟨some 0, fun _ => 7⟩, 0⟩,
        .write (some 0) (some [98, 10]) ⟨false, ⟨some 1, fun _ => 7⟩, 0⟩,
        .llseek 0 1 0, .read (some 0) true 512 ⟨false, 0⟩] = some p :=
    Option.isSome_iff_exists.1 (by decide +kernel)
  have hrs : rs = [⟨0, []⟩, ⟨-12, []⟩, ⟨1, []⟩, ⟨2, []⟩, ⟨1, []⟩, ⟨2, [98, 10]⟩] :=
    Machine.run_map hrun Prod.snd (by decide +kernel)
  subst hrs
  have htrace : (charDev 64).Trace (fun s c => ¬ s.Loses 64 c) Sys.init _ s :=
    Machine.trace_of_run hrun (by decide +kernel)
  exact ⟨_, s, htrace, rfl, charDev_refines_log (by decide) htrace⟩

/-- **Addresses and fresh bytes are never seen**, as long as no write loses pending bytes.  Two such
runs that make the same calls, and in which the same ones are refused for want of memory, get the
same replies and come to the same stored bytes and the same positions, wherever the allocator places
the blocks, whatever they hold at first and whatever the largest block is. -/
theorem allocator_invisible {M M' : ℕ} (hM : 10 * M < 2 ^ 31) (hM' : 10 * M' < 2 ^ 31)
    {t t' : List (Call × Reply)} {s s' : Sys}
    (h : (charDev M).Trace (fun s c => ¬ s.Loses M c) Sys.init t s)
    (h' : (charDev M').Trace (fun s c => ¬ s.Loses M' c) Sys.init t' s')
    (hlabels : t.map (fun p => (p.1.blind, p.2.granted))
      = t'.map fun p => (p.1.blind, p.2.granted)) :
    t.map Prod.snd = t'.map Prod.snd ∧ s.kern.log = s'.kern.log ∧ s.file = s'.file := by
  have hseen : (t.map seen).map Prod.fst = (t'.map seen).map Prod.fst := by
    rw [List.map_map, List.map_map]
    exact hlabels
  obtain ⟨hsame, hview⟩ := Machine.Trace.unique (charDev_refines_log hM h)
    (charDev_refines_log hM' h') hseen
  refine ⟨?_, congrArg LogSys.log hview, congrArg LogSys.file hview⟩
  have hreplies := congrArg (List.map Prod.snd) hsame
  rwa [List.map_map, List.map_map] at hreplies

/-- The address that a write gets from the allocator. -/
def Call.addr : Call → Option ℕ
  | .write _ _ env => env.alloc.addr
  | .openFile _ | .releaseFile _ | .read .. | .llseek .. | .ioctl .. => none

/-- A line in a block at address 0 and in one at address 5, and its bytes. -/
theorem allocator_invisible_one_line :
    ∃ t t' s s', (charDev 64).Trace (fun s c => ¬ s.Loses 64 c) Sys.init t s ∧
      (charDev 32).Trace (fun s c => ¬ s.Loses 32 c) Sys.init t' s' ∧
      t.map Prod.fst ≠ t'.map Prod.fst ∧ t.map Prod.snd = [⟨0, []⟩, ⟨2, []⟩] ∧
      t.map Prod.snd = t'.map Prod.snd ∧ s.kern.log = s'.kern.log ∧ s.file = s'.file := by
  obtain ⟨⟨s, rs⟩, hrun⟩ : ∃ p, (charDev 64).run Sys.init
      [.openFile 0, .write (some 0) (some [97, 10]) ⟨false, ⟨some 0, fun _ => 7⟩, 0⟩] = some p :=
    Option.isSome_iff_exists.1 (by decide)
  obtain ⟨⟨s', rs'⟩, hrun'⟩ : ∃ p, (charDev 32).run Sys.init
      [.openFile 0, .write (some 0) (some [97, 10]) ⟨false, ⟨some 5, fun _ => 8⟩, 0⟩] = some p :=
    Option.isSome_iff_exists.1 (by decide)
  have hrs : rs = [⟨0, []⟩, ⟨2, []⟩] := Machine.run_map hrun Prod.snd (by decide)
  have hrs' : rs' = [⟨0, []⟩, ⟨2, []⟩] := Machine.run_map hrun' Prod.snd (by decide)
  subst hrs
  subst hrs'
  have htrace : (charDev 64).Trace (fun s c => ¬ s.Loses 64 c) Sys.init _ s :=
    Machine.trace_of_run hrun (by decide)
  have htrace' : (charDev 32).Trace (fun s c => ¬ s.Loses 32 c) Sys.init _ s' :=
    Machine.trace_of_run hrun' (by decide)
  refine ⟨_, _, s, s', htrace, htrace', ?_, rfl,
    allocator_invisible (by decide) (by decide) htrace htrace' rfl⟩
  intro heq
  exact absurd (congrArg (List.filterMap Call.addr) heq) (by decide)

end Aesd
