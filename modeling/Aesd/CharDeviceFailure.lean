/-
**Failed calls, and the two that are not harmless.**

A call that fails should leave the device as it was, so that a history with failures stores what the
history without them would store.  For reads, seeks and interrupted writes that is so; for a write
it is so unless one of two things happens.  `aesd_write` assigns the result of `krealloc` to the
only pointer to the pending block, so a refused request drops the pending bytes while their number
stays; and it adds the count to the size without a check, so a sum that wraps around shrinks the
block.  After that, a later write commits bytes that nobody supplied.

Here the runs without such writes are shown to be harmless: two devices, one of which skips the
failing calls, stay twins.

* `Sys.Loses` — the writes that lose pending bytes;
* `Sys.call_failed` — a failing call leaves everything alone, if and only if it is none of them;
* `Twins`, `Twins.call` — devices that differ in their blocks only, and what they answer;
* `failures_leave_no_trace` — **the runs in which failing calls do not matter**;
* `enomem_loses_pending` — a run in which one does.
-/

import Aesd.CharDeviceInv
import Aesd.TermLog

set_option relaxedAutoImplicit false
set_option autoImplicit false

namespace Aesd

open TermLog

/-! ### What a failing call changes -/

/-- The call is a write that loses pending bytes: there are some and the allocator refuses, or the
size asked for wraps around below the pending size. -/
def Sys.Loses (M : ℕ) (s : Sys) : Call → Prop
  | .write (some f) (some data) env =>
      (s.file f).privateData = true ∧ env.interrupted = false ∧
        (0 < s.kern.dev.bufEntry.size ∧ ¬ s.kern.WriteGranted M env data ∨
          s.kern.newEntrySize data < s.kern.dev.bufEntry.size)
  | _ => False

instance (M : ℕ) (s : Sys) : (c : Call) → Decidable (s.Loses M c)
  | .write (some _) (some _) _ => inferInstanceAs (Decidable (_ ∧ _))
  | .write none _ _ | .write (some _) none _ | .openFile _ | .releaseFile _ | .read .. | .llseek ..
  | .ioctl .. => isFalse id

/-- The same stored bytes, in the same slots, with the same file positions. -/
structure Sys.Same (s s' : Sys) : Prop where
  file : s'.file = s.file
  ring : s'.kern.dev.circularBuf = s.kern.dev.circularBuf
  commands : s'.kern.commands = s.kern.commands
  pending : s'.kern.pending = s.kern.pending
  size : s'.kern.dev.bufEntry.size = s.kern.dev.bufEntry.size

theorem Sys.Same.of_eq {s s' : Sys} (h : s'.file = s.file) (hk : s'.kern = s.kern) : s.Same s' :=
  ⟨h, by rw [hk], by rw [hk], by rw [hk], by rw [hk]⟩

/-- A read that fails does not move the position. -/
theorem readLocked_fPos {left count : ℕ} {k : Kernel} {p : ℤ} {r : ReadResult}
    (h : readLocked left k count p = .ok r) (hr : r.retval < 0) : r.fPos = p := by
  simp only [readLocked] at h
  split at h
  · obtain rfl := Except.ok.inj h
    rfl
  · next i entryOffset _ =>
      set available := int64 (sizeT (((k.dev.circularBuf.entry i).size : ℤ) - entryOffset))
      obtain ⟨y, hy⟩ : ∃ y : ℤ, (if count < sizeT available then int64 count else available)
          = int64 y := by
        split
        · exact ⟨_, rfl⟩
        · exact ⟨_, rfl⟩
      rw [hy] at h
      split at h
      · cases h
      · next u data hcopy =>
          have hu : u = uncopied left (sizeT (int64 y)) := by
            simp only [copyToUser] at hcopy
            split at hcopy
            · exact ((Prod.mk.inj (Except.ok.inj hcopy)).1).symm
            · split at hcopy
              · cases hcopy
              · exact ((Prod.mk.inj (Except.ok.inj hcopy)).1).symm
          split at h
          · obtain rfl := Except.ok.inj h
            rfl
          · next hzero =>
              -- a complete copy is one of at most `INT_MAX` bytes, so its count is not negative
              have hle := uncopied_eq_zero (hu ▸ not_not.1 hzero)
              rw [INT_MAX, sizeT, int64, CInt.unsigned_signed] at hle
              have hpos : int64 y = CInt.unsigned 64 y :=
                CInt.signed_of_unsigned_lt (by omega)
              obtain rfl := Except.ok.inj h
              simp only [hpos] at hr
              omega

theorem seekLocked_failed {k : Kernel} {filp filp' : File} {seek : AesdSeekto} {r : ℤ}
    (h : seekLocked k filp seek = .ok (filp', r)) (hr : r < 0) : filp' = filp := by
  simp only [seekLocked] at h
  split at h
  · exact ((Prod.mk.inj (Except.ok.inj h)).1).symm
  · split at h
    · cases h
    · split at h
      · exact ((Prod.mk.inj (Except.ok.inj h)).1).symm
      · have hzero := (Prod.mk.inj (Except.ok.inj h)).2
        omega

/-- A seek request that fails does not move the position. -/
theorem aesdIoctl_failed {env : IoctlEnv} {k : Kernel} {filp filp' : File} {cmd : UInt32} {r : ℤ}
    (h : aesdIoctl env k filp cmd = .ok (filp', r)) (hr : r < 0) : filp' = filp := by
  rw [aesdIoctl] at h
  split at h
  · exact ((Prod.mk.inj (Except.ok.inj h)).1).symm
  · split at h
    · exact ((Prod.mk.inj (Except.ok.inj h)).1).symm
    · split at h
      · exact ((Prod.mk.inj (Except.ok.inj h)).1).symm
      · split at h
        · exact ((Prod.mk.inj (Except.ok.inj h)).1).symm
        · split at h
          · exact ((Prod.mk.inj (Except.ok.inj h)).1).symm
          · split at h
            · exact ((Prod.mk.inj (Except.ok.inj h)).1).symm
            · exact seekLocked_failed h hr

theorem aesdLlseek_failed {k : Kernel} {filp filp' : File} {off whence r : ℤ}
    (h : aesdLlseek k filp off whence = .ok (filp', r)) (hr : r < 0) : filp' = filp := by
  simp only [aesdLlseek] at h
  split at h
  · obtain ⟨rfl, -⟩ := Prod.mk.inj (Except.ok.inj h)
    rfl
  · split at h
    · cases h
    · cases h
      exact if_pos hr

/-- The answer of a call with a negative value leaves the files alone. -/
theorem Sys.call_failed_file {M : ℕ} {s s' : Sys} {c : Call} {r : Reply}
    (h : s.call M c = .ok (s', r)) (hr : r.retval < 0) : s'.file = s.file := by
  have hself : ∀ f filp, filp = s.file f → (s.setFile f filp).file = s.file := by
    rintro f filp rfl
    exact Function.update_eq_self ..
  cases c with
  | openFile f =>
      obtain ⟨-, rfl⟩ := Prod.mk.inj (Except.ok.inj h)
      exact absurd hr (lt_irrefl 0)
  | releaseFile f =>
      obtain ⟨-, rfl⟩ := Prod.mk.inj (Except.ok.inj h)
      exact absurd hr (lt_irrefl 0)
  | read f buf count env =>
      simp only [Sys.call] at h
      split at h
      · cases h
      · next r₁ hread =>
          cases f with
          | none =>
              obtain ⟨rfl, -⟩ := Prod.mk.inj (Except.ok.inj h)
              rfl
          | some f =>
              cases h
              have hpos : r₁.fPos = (s.file f).fPos := by
                simp only [Option.map_some, Option.getD_some] at hread
                cases buf with
                | false =>
                    obtain rfl := Except.ok.inj hread
                    rfl
                | true =>
                    simp only [aesdRead] at hread
                    split at hread
                    · obtain rfl := Except.ok.inj hread
                      rfl
                    · split at hread
                      · obtain rfl := Except.ok.inj hread
                        rfl
                      · exact readLocked_fPos hread hr
              exact hself f _ (by rw [hpos])
  | write f buf env =>
      simp only [Sys.call] at h
      split at h
      · cases h
      · obtain ⟨rfl, -⟩ := Prod.mk.inj (Except.ok.inj h)
        rfl
  | llseek f off whence =>
      simp only [Sys.call] at h
      split at h
      · cases h
      · next filp r₁ hseek =>
          cases h
          exact hself f _ (aesdLlseek_failed hseek hr)
  | ioctl f cmd env =>
      simp only [Sys.call] at h
      split at h
      · cases h
      · next filp r₁ hioctl =>
          cases h
          exact hself f _ (aesdIoctl_failed hioctl hr)

/-- A write that loses pending bytes fails, and shortens them. -/
theorem Sys.Loses.pending_lt {M : ℕ} {s s' : Sys} {c : Call} {r : Reply} (hl : s.Loses M c)
    (h : s.kern.Inv M) (hint : s.kern.Intact) (hc : s.call M c = .ok (s', r)) :
    r.retval < 0 ∧ s'.kern.pending.length < s.kern.pending.length := by
  match c, hl with
  | .write (some f) (some data) env, ⟨hopen, hwait, hl⟩ =>
      simp only [Sys.call, aesdWrite, Option.map_some, hopen, hwait, Bool.true_eq_false, if_false,
        Bool.false_eq_true] at hc
      split at hc
      · cases hc
      · next k' r' hw =>
          cases hc
          rw [hint]
          obtain ⟨-, ⟨hr, -, rfl⟩ | ⟨hr, hg, -, -, -, -, hle, -⟩ |
            ⟨-, hg, -, hsum, -⟩⟩ := h.writeLocked_cases hw
          · refine ⟨by simp [hr, ENOMEM], ?_⟩
            simp only [Kernel.pending, Heap.bytesOf, Heap.contents_null, List.take_nil,
              List.length_nil]
            omega
          · refine ⟨by simp [hr, EFAULT], lt_of_le_of_lt hle ?_⟩
            exact hl.resolve_left fun hc => hc.2 hg
          · have := hl.resolve_left fun hc => hc.2 hg
            omega

/-- **A failing call leaves everything as it was, if and only if it is not a write that loses
pending bytes.** -/
theorem Sys.call_failed {M : ℕ} {s s' : Sys} {c : Call} {r : Reply} (h : s.kern.Inv M)
    (hint : s.kern.Intact) (hc : s.call M c = .ok (s', r)) (hr : r.retval < 0) :
    s.Same s' ↔ ¬ s.Loses M c := by
  constructor
  · intro hsame hl
    have hlt := (hl.pending_lt h hint hc).2
    rw [hsame.pending] at hlt
    exact lt_irrefl _ hlt
  · intro hl
    have hfile := Sys.call_failed_file hc hr
    rcases Sys.call_kern hc with ⟨hk, -⟩ | ⟨f, data, env, rfl, hopen, hwait, -, -, hw⟩
    · exact .of_eq hfile hk
    · simp only [Sys.Loses, hopen, hwait, true_and, not_or, not_and, not_not, not_lt] at hl
      obtain ⟨-, ⟨-, hng, hk'⟩ | ⟨-, -, -, hring, hcmds, hsize, -, hpend⟩ |
        ⟨hret, -, hu, -⟩⟩ := h.writeLocked_cases hw
      · have hsize : s.kern.dev.bufEntry.size = 0 := by
          by_contra hne
          exact hng (hl.1 (Nat.pos_of_ne_zero hne))
        refine ⟨hfile, by rw [hk'], by rw [hk']; rfl, ?_, by rw [hk']⟩
        rw [hk']
        simp [Kernel.pending, Heap.bytesOf, hsize]
      · exact ⟨hfile, hring, hcmds, hpend hl.2 hint, hsize⟩
      · have hlen : data.length ≤ INT_MAX := uncopied_eq_zero hu
        rw [INT_MAX] at hlen
        rw [hret, int64_of_range (by omega) (by omega)] at hr
        omega

/-! ### Twins -/

/-- Two devices that store the same bytes in the same slots, under the same file positions, but not
necessarily in the same blocks.  The second one has no block besides those it refers to. -/
structure Twins (M : ℕ) (s u : Sys) : Prop where
  same : u.Same s
  left : s.kern.Inv M
  leftIntact : s.kern.Intact
  right : u.kern.Inv M
  rightIntact : u.kern.Intact
  owned : u.kern.Owned

theorem Twins.init (M : ℕ) : Twins M Sys.init Sys.init :=
  ⟨.of_eq rfl rfl, .init M, .init, .init M, .init, .init⟩

/-- A step that changes nothing on one side keeps the twins. -/
theorem Twins.of_same {M : ℕ} {s s' u : Sys} (h : Twins M s u) (hsame : s.Same s')
    (hinv : s'.kern.Inv M) (hint : s'.kern.Intact) : Twins M s' u :=
  ⟨⟨hsame.file.trans h.same.file, hsame.ring.trans h.same.ring,
    hsame.commands.trans h.same.commands, hsame.pending.trans h.same.pending,
    hsame.size.trans h.same.size⟩, hinv, hint, h.right, h.rightIntact, h.owned⟩

/-- Twins hold the same bytes behind the pointer of every slot. -/
theorem Twins.contents {M : ℕ} {s u : Sys} (h : Twins M s u)
    (i : Fin maxWriteOperationsSupported) :
    s.kern.heap.contents (u.kern.dev.circularBuf.entry i).buffptr
      = u.kern.heap.contents (u.kern.dev.circularBuf.entry i).buffptr := by
  rcases h.right.ring.entry_mem i with hmem | hzero
  · have hbytes : s.kern.heap.bytesOf (u.kern.dev.circularBuf.entry i)
        = u.kern.heap.bytesOf (u.kern.dev.circularBuf.entry i) := by
      have hcmds := h.same.commands
      rw [Kernel.commands, Kernel.commands, h.same.ring] at hcmds
      exact List.map_inj_left.1 hcmds _ hmem
    have hleft := h.left.commands (u.kern.dev.circularBuf.entry i) (by rw [h.same.ring]; exact hmem)
    rwa [Heap.bytesOf_of_length hleft.length,
      Heap.bytesOf_of_length (h.right.commands _ hmem).length] at hbytes
  · rw [hzero]
    rfl

theorem copyToUser_congr {left off n : ℕ} {h h' : Heap} {p : KPtr}
    (hc : h.contents p = h'.contents p) :
    copyToUser left h p off n = copyToUser left h' p off n := by
  simp only [copyToUser, Heap.read, hc]

/-- Twins answer a read alike. -/
theorem Twins.readLocked {M : ℕ} {s u : Sys} (h : Twins M s u) (left count : ℕ) (p : ℤ) :
    Aesd.readLocked left s.kern count p = Aesd.readLocked left u.kern count p := by
  simp only [Aesd.readLocked, h.same.ring]
  cases u.kern.dev.circularBuf.findEntryOffsetForFpos (sizeT p) with
  | none => rfl
  | some q =>
      obtain ⟨i, o⟩ := q
      simp only [copyToUser_congr (h.contents i)]

/-- What the allocator grants to the first twin it grants to the second. -/
theorem Twins.granted {M : ℕ} {s u : Sys} (h : Twins M s u) {env : WriteEnv} {data : List UInt8}
    (hg : s.kern.WriteGranted M env data) : u.kern.WriteGranted M env data := by
  have hn : u.kern.newEntrySize data = s.kern.newEntrySize data := by
    rw [Kernel.newEntrySize, Kernel.newEntrySize, h.same.size]
  rw [Kernel.WriteGranted, hn]
  refine hg.imp_right ?_
  rintro ⟨a, haddr, hM, hfree⟩
  refine ⟨a, haddr, hM, ?_⟩
  by_contra hused
  obtain ⟨bs, hbs⟩ := Option.ne_none_iff_exists'.1 hused
  obtain ⟨hlive, hptr⟩ := Heap.release_block_eq_some hbs
  rcases h.owned a (by rw [hlive]; rfl) with hpend | hring
  · exact hptr hpend
  · -- the block is that of an entry, so the first twin uses its address as well
    rw [← h.same.ring] at hring
    obtain ⟨e, he, hea⟩ := List.mem_map.1 hring
    obtain ⟨b, cs, hb, hcs⟩ := (h.left.commands e he).live
    obtain rfl : b = a := by
      rw [hb] at hea
      exact KPtr.block.inj hea
    have hapart : s.kern.dev.bufEntry.buffptr ≠ .block b := by
      intro hp
      exact h.left.apart (by rw [hp]; exact hring)
    rw [Heap.release_block_of_ne _ hapart, hcs] at hfree
    cases hfree

/-- **A write that succeeds on one twin succeeds on the other, and they stay twins.** -/
theorem Twins.writeLocked {M : ℕ} {s u : Sys} (h : Twins M s u) {env : WriteEnv}
    {data : List UInt8} {k' : Kernel} {r : ℤ}
    (hw : Aesd.writeLocked M env s.kern data = .ok (k', r))
    (hr : 0 ≤ r) :
    ∃ l', Aesd.writeLocked M env u.kern data = .ok (l', r) ∧
      Twins M { s with kern := k' } { u with kern := l' } := by
  obtain ⟨hinv, ⟨rfl, -⟩ | ⟨rfl, -⟩ |
    ⟨rfl, hg, hu, hsum, hpos, hM, hint, -, T, a, -, hT, hlog, haddr, hdev⟩⟩ :=
    h.left.writeLocked_cases hw
  · exact absurd hr (by decide)
  · exact absurd hr (by decide)
  · have hn : u.kern.newEntrySize data = s.kern.newEntrySize data := by
      rw [Kernel.newEntrySize, Kernel.newEntrySize, h.same.size]
    have hsum' : u.kern.newEntrySize data = u.kern.dev.bufEntry.size + data.length := by
      rw [hn, hsum, h.same.size]
    have hlt : u.kern.newEntrySize data < 2 ^ 64 := sizeT_lt _
    obtain ⟨l', r', hw'⟩ := h.right.writeLocked_ok env data (by omega) (by omega)
    obtain ⟨hinv', ⟨-, hng, -⟩ | ⟨-, -, hu', -⟩ |
      ⟨rfl, -, -, -, -, -, hint', howned, T', a', -, hT', hlog', haddr', hdev'⟩⟩ :=
      h.right.writeLocked_cases hw'
    · exact absurd (h.granted hg) hng
    · exact absurd hu hu'
    · obtain rfl : a' = a := Option.some.inj (haddr'.symm.trans haddr)
      have hTT : T = T' := by rw [hT h.leftIntact, hT' h.rightIntact, h.same.pending]
      have hdevs : k'.dev = l'.dev := by
        rw [hdev, hdev', hTT, Kernel.devAfter, Kernel.devAfter, h.same.ring]
      have hlogs : k'.log = l'.log := by rw [hlog, hlog', hTT, h.same.commands]
      exact ⟨l', hw', ⟨h.same.file, by rw [hdevs], congrArg TermLog.entries hlogs,
        congrArg TermLog.pending hlogs, by rw [hdevs]⟩, hinv, hint, hinv', hint', howned h.owned⟩

theorem Twins.setFile {M : ℕ} {s u : Sys} (h : Twins M s u) (f : ℕ) (filp : File) :
    Twins M (s.setFile f filp) (u.setFile f filp) :=
  ⟨⟨by rw [Sys.setFile, Sys.setFile, h.same.file], h.same.ring, h.same.commands, h.same.pending,
    h.same.size⟩, h.left, h.leftIntact, h.right, h.rightIntact, h.owned⟩

/-- **Twins answer a call that succeeds alike, and stay twins.** -/
theorem Twins.call {M : ℕ} {s u s' : Sys} (h : Twins M s u) {c : Call} {r : Reply}
    (hc : s.call M c = .ok (s', r)) (hr : 0 ≤ r.retval) :
    ∃ u', u.call M c = .ok (u', r) ∧ Twins M s' u' := by
  have hfile := h.same.file
  cases c with
  | openFile f =>
      cases hc
      exact ⟨_, rfl, h.setFile f _⟩
  | releaseFile f =>
      cases hc
      exact ⟨_, by rw [hfile]; rfl, h.setFile f _⟩
  | read f buf count env =>
      have hread : ∀ p, aesdRead env s.kern (f.map u.file) buf count p
          = aesdRead env u.kern (f.map u.file) buf count p := by
        intro p
        simp only [aesdRead, h.readLocked]
      simp only [Sys.call, hfile, hread] at hc ⊢
      split at hc
      · cases hc
      · next r₁ hr₁ =>
          cases f with
          | none =>
              cases hc
              exact ⟨u, rfl, h⟩
          | some f =>
              cases hc
              exact ⟨_, rfl, h.setFile f _⟩
  | write f buf env =>
      simp only [Sys.call, hfile] at hc ⊢
      split at hc
      · cases hc
      · next k' r₁ hw =>
          cases hc
          rcases aesdWrite_cases hw with ⟨-, hneg⟩ | ⟨fp, data, hf, rfl, hopen, hwait, hlocked⟩
          · have hr' : 0 ≤ r₁ := hr
            simp only [EINVAL, ENODEV, ERESTARTSYS] at hneg
            omega
          · obtain ⟨l', hw', htwins⟩ := h.writeLocked hlocked hr
            rw [hfile] at htwins
            refine ⟨{ u with kern := l' }, ?_, htwins⟩
            simp [aesdWrite, hf, hopen, hwait, hw']
  | llseek f off whence =>
      have hseek : aesdLlseek s.kern (u.file f) off whence
          = aesdLlseek u.kern (u.file f) off whence := by
        simp only [aesdLlseek, h.same.size]
      simp only [Sys.call, hfile, hseek] at hc ⊢
      split at hc
      · cases hc
      · cases hc
        exact ⟨_, rfl, h.setFile f _⟩
  | ioctl f cmd env =>
      have hioctl : aesdIoctl env s.kern (u.file f) cmd = aesdIoctl env u.kern (u.file f) cmd := by
        simp only [aesdIoctl, seekLocked, h.same.ring]
      simp only [Sys.call, hfile, hioctl] at hc ⊢
      split at hc
      · cases hc
      · cases hc
        exact ⟨_, rfl, h.setFile f _⟩

/-! ### Runs -/

/-- The calls of a history that did not fail. -/
def succeeded (t : List (Call × Reply)) : List (Call × Reply) := t.filter fun p => 0 ≤ p.2.retval

/-- The bytes that the successful writes of a history supplied, write by write. -/
def supplied (t : List (Call × Reply)) : List (List UInt8) := (succeeded t).map fun p => p.1.written

/-- A call that loses no pending bytes keeps all of them, and is a step of the log if it succeeds.
-/
theorem Sys.call_log {M : ℕ} {s s' : Sys} {c : Call} {r : Reply} (h : s.kern.Inv M)
    (hint : s.kern.Intact) (hgood : Good 10 newline s.kern.log) (hl : ¬ s.Loses M c)
    (hc : s.call M c = .ok (s', r)) :
    s'.kern.Intact ∧ s'.kern.log = if 0 ≤ r.retval then feed 10 newline s.kern.log c.written
      else s.kern.log := by
  by_cases hr : 0 ≤ r.retval
  swap
  · have hsame := (Sys.call_failed h hint hc (by omega)).2 hl
    refine ⟨by rw [Kernel.Intact, hsame.pending, hsame.size, hint], ?_⟩
    rw [if_neg hr, Kernel.log, Kernel.log, hsame.pending, hsame.commands]
  rw [if_pos hr]
  rcases Sys.call_kern hc with ⟨hk, hwritten⟩ | ⟨f, data, env, rfl, -, -, -, -, hw⟩
  · rw [hk, hwritten hr, hgood.feed_nil]
    exact ⟨hint, rfl⟩
  · obtain ⟨-, ⟨hneg, -⟩ | ⟨hneg, -⟩ |
      ⟨-, -, -, -, -, -, hint', -, T, a, -, hT, hlog, -⟩⟩ := h.writeLocked_cases hw
    · rw [hneg] at hr
      exact absurd hr (by decide)
    · rw [hneg] at hr
      exact absurd hr (by decide)
    · exact ⟨hint', by rw [hlog, hT hint]; rfl⟩

theorem succeeded_snoc (t : List (Call × Reply)) (c : Call) (r : Reply) :
    succeeded (t ++ [(c, r)]) = if 0 ≤ r.retval then succeeded t ++ [(c, r)] else succeeded t := by
  by_cases hr : 0 ≤ r.retval
  · simp [succeeded, List.filter_append, hr]
  · simp [succeeded, List.filter_append, hr]

/-- The state after a run that loses no pending bytes: the log of the bytes that the successful
writes supplied, and a twin that has not seen the failing calls. -/
structure RunState (M : ℕ) (t : List (Call × Reply)) (s : Sys) : Prop where
  log : s.kern.log = feeds 10 newline empty (supplied t)
  twin : ∃ u, (charDev M).Trace Machine.free Sys.init (succeeded t) u ∧ Twins M s u

theorem runState {M : ℕ} {t : List (Call × Reply)} {s : Sys}
    (h : (charDev M).Trace (fun s c => ¬ s.Loses M c) Sys.init t s) : RunState M t s := by
  induction h with
  | nil => exact ⟨rfl, Sys.init, Machine.Trace.nil, Twins.init M⟩
  | @snoc t s s' c r _ hl hstep ih =>
      obtain ⟨hlog, u, htrace, htwins⟩ := ih
      have hc := charDev_step.1 hstep
      have hgood : Good 10 newline s.kern.log := hlog ▸ (Good.empty 10 newline).feeds _
      obtain ⟨hint, hlog'⟩ := Sys.call_log htwins.left htwins.leftIntact hgood hl hc
      have hinv := htwins.left.call hc
      by_cases hr : 0 ≤ r.retval
      · obtain ⟨u', hu', htwins'⟩ := htwins.call hc hr
        refine ⟨?_, u', ?_, htwins'⟩
        · rw [hlog', if_pos hr, hlog, supplied, supplied, succeeded_snoc, if_pos hr,
            List.map_append, feeds_append]
          rfl
        · rw [succeeded_snoc, if_pos hr]
          exact htrace.snoc trivial (charDev_step.2 hu')
      · have hsame := (Sys.call_failed htwins.left htwins.leftIntact hc (by omega)).2 hl
        refine ⟨?_, u, ?_, htwins.of_same hsame hinv hint⟩
        · rw [hlog', if_neg hr, hlog, supplied, supplied, succeeded_snoc, if_neg hr]
        · rw [succeeded_snoc, if_neg hr]
          exact htrace

/-- **Failing calls leave no trace, in every run in which no write loses pending bytes.**  In every
state of such a run a failing call leaves the stored bytes and the positions as they were, if and
only if it is again no such write; the run without its failing calls is a run, with the same
replies, to the same stored bytes and positions; and what is stored is the log of what the
successful writes supplied, so that they supplied every byte of every command. -/
theorem failures_leave_no_trace {M : ℕ} {t : List (Call × Reply)} {s : Sys}
    (h : (charDev M).Trace (fun s c => ¬ s.Loses M c) Sys.init t s) :
    (∀ c s' r, s.call M c = .ok (s', r) → r.retval < 0 → (s.Same s' ↔ ¬ s.Loses M c)) ∧
    (∃ u, (charDev M).Trace Machine.free Sys.init (succeeded t) u ∧ u.Same s) ∧
    s.kern.log = feeds 10 newline empty (supplied t) ∧
    (∀ d ∈ s.kern.commands, ∀ b ∈ d, ∃ p ∈ t, 0 ≤ p.2.retval ∧ b ∈ p.1.written) := by
  obtain ⟨hlog, u, htrace, htwins⟩ := runState h
  refine ⟨fun c s' r hc hr => Sys.call_failed htwins.left htwins.leftIntact hc hr,
    ⟨u, htrace, htwins.same⟩, hlog, ?_⟩
  intro d hd b hb
  have hmem : ∃ c ∈ (feeds 10 newline empty (supplied t)).entries, b ∈ c := by
    rw [← hlog]
    exact ⟨d, hd, hb⟩
  rcases mem_feeds (Or.inr hmem) with ⟨e, he, hbe⟩ | hp | ⟨e, he, -⟩
  · obtain ⟨p, hp, rfl⟩ := List.mem_map.1 he
    obtain ⟨hpt, hr⟩ := List.mem_filter.1 hp
    exact ⟨p, hpt, by simpa using hr, hbe⟩
  · exact absurd hp List.not_mem_nil
  · exact absurd he List.not_mem_nil

/-- The second byte of a line cannot be copied, which costs nothing. -/
theorem failures_leave_no_trace_one_line :
    ∃ t s, (charDev 64).Trace (fun s c => ¬ s.Loses 64 c) Sys.init t s ∧
      t.map (fun p => p.2.retval) = [0, 1, -14, 1] ∧
      supplied t = [[], [97], [10]] ∧ s.kern.log = feeds 10 newline empty [[], [97], [10]] := by
  obtain ⟨⟨s, rs⟩, hrun⟩ : ∃ p, (charDev 64).run Sys.init
      [.openFile 0, .write (some 0) (some [97]) ⟨false, ⟨some 0, fun _ => 7⟩, 0⟩,
        .write (some 0) (some [98]) ⟨false, ⟨some 1, fun _ => 7⟩, 1⟩,
        .write (some 0) (some [10]) ⟨false, ⟨some 0, fun _ => 7⟩, 0⟩] = some p :=
    Option.isSome_iff_exists.1 (by decide)
  have hrs : rs = [⟨0, []⟩, ⟨1, []⟩, ⟨-14, []⟩, ⟨1, []⟩] := by
    have := congrArg (Option.map Prod.snd) hrun
    exact (Option.some.inj (this.symm.trans (by decide)))
  subst hrs
  have htrace : (charDev 64).Trace (fun s c => ¬ s.Loses 64 c) Sys.init _ s :=
    Machine.trace_of_run hrun (by decide)
  exact ⟨_, s, htrace, rfl, rfl, (failures_leave_no_trace htrace).2.2.1⟩

/-- **A refused request loses the pending bytes.**  The first byte of a line is pending, the request
for the second one is refused, and nothing is pending any more; the newline then commits a byte that
was in the fresh block, where the run without the failing call commits the line. -/
theorem enomem_loses_pending :
    (((charDev 64).run Sys.init
      [.openFile 0, .write (some 0) (some [97]) ⟨false, ⟨some 0, fun _ => 7⟩, 0⟩]).map
        fun p => p.1.kern.pending) = some [97] ∧
    (((charDev 64).run Sys.init
      [.openFile 0, .write (some 0) (some [97]) ⟨false, ⟨some 0, fun _ => 7⟩, 0⟩,
        .write (some 0) (some [98]) ⟨false, ⟨none, fun _ => 7⟩, 0⟩]).map
        fun p => (p.1.kern.pending, p.2.map Reply.retval)) = some ([], [0, 1, -ENOMEM]) ∧
    (((charDev 64).run Sys.init
      [.openFile 0, .write (some 0) (some [97]) ⟨false, ⟨some 0, fun _ => 7⟩, 0⟩,
        .write (some 0) (some [98]) ⟨false, ⟨none, fun _ => 7⟩, 0⟩,
        .write (some 0) (some [10]) ⟨false, ⟨some 1, fun _ => 7⟩, 0⟩]).map
        fun p => (p.1.kern.commands, p.2.map Reply.retval)) = some ([[7, 10]], [0, 1, -ENOMEM, 1]) ∧
    (((charDev 64).run Sys.init
      [.openFile 0, .write (some 0) (some [97]) ⟨false, ⟨some 0, fun _ => 7⟩, 0⟩,
        .write (some 0) (some [10]) ⟨false, ⟨some 1, fun _ => 7⟩, 0⟩]).map
        fun p => p.1.kern.commands) = some [[97, 10]] := by
  decide

end Aesd
