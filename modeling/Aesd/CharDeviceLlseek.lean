/-
**What `aesd_llseek` takes for the size of the device.**

A seek needs the size of what is stored.  `aesd_llseek` means to add it up with
`AESD_CIRCULAR_BUFFER_FOREACH`, but it gives the macro its accumulator as the index, and adds the
size of the pending command instead of the entry's: with `k` pending bytes the accumulator goes up
by `k + 1` until it is no longer below ten.  The size it arrives at, `seekSize k`, has nothing to do
with the commands in the ring, and the seek is right only where the two sizes happen to agree on it.

* `llseekLoop_eq` — the loop ends, with the least multiple of `k + 1` that is not below ten;
* `aesdLlseek_eq` — the seek is one in a file of that size;
* `LlseekExact` — the seek is one in a file of the size of what is stored;
* `reachable_llseek_exact` — **when it is**;
* `llseek_fresh` — on a freshly loaded device, seeking to the end leads to position ten.
-/

import Aesd.CharDeviceInv

set_option relaxedAutoImplicit false
set_option autoImplicit false

namespace Aesd

/-! ### The loop -/

/-- The least multiple of `k + 1` that is not below ten. -/
def seekSize (k : ℕ) : ℕ := (10 + k) / (k + 1) * (k + 1)

theorem lt_turns_iff (k j : ℕ) : j < (10 + k) / (k + 1) ↔ j * (k + 1) < 10 := by
  rw [Nat.lt_div_iff_mul_lt (Nat.succ_pos k), Nat.succ_eq_add_one]
  omega

/-- **The loop**, after `j` turns. -/
theorem llseekLoop_eq {k : ℕ} (hk : k + 1 < 2 ^ 63) (fuel : ℕ) {j : ℕ} (hj : j ≤ (10 + k) / (k + 1))
    (hfuel : (10 + k) / (k + 1) ≤ j + fuel) :
    llseekLoop k fuel ((j * (k + 1) : ℕ) : ℤ) = .ok (seekSize k : ℤ) := by
  induction fuel generalizing j with
  | zero =>
      have hdone := (lt_turns_iff k j).not.1 (by omega)
      rw [llseekLoop, if_neg (by exact_mod_cast hdone), seekSize,
        show (10 + k) / (k + 1) = j by omega]
  | succ fuel ih =>
      by_cases hlt : j * (k + 1) < 10
      · have hnext : int64 ((sizeT ((j * (k + 1) : ℕ) : ℤ) : ℤ) + k) + 1
            = (((j + 1) * (k + 1) : ℕ) : ℤ) := by
          -- only the first turn can add more than nine
          have hle : j = 0 ∨ k + 1 ≤ j * (k + 1) :=
            (Nat.eq_zero_or_pos j).imp_right (Nat.le_mul_of_pos_left _)
          have hlt' : j * (k + 1) + k < 2 ^ 63 := by
            rcases hle with rfl | hle
            · omega
            · omega
          rw [sizeT_of_lt (by omega), int64_of_range (by omega) (by omega)]
          push_cast
          ring
        have hturn := (lt_turns_iff k j).2 hlt
        rw [llseekLoop, if_pos (by exact_mod_cast hlt), hnext]
        exact ih (by omega) (by omega)
      · have hdone := (lt_turns_iff k j).not.2 hlt
        rw [llseekLoop, if_neg (by exact_mod_cast hlt), seekSize,
          show (10 + k) / (k + 1) = j by omega]

/-! ### The seek -/

/-- `aesd_llseek` is a seek in a file of size `seekSize`. -/
theorem aesdLlseek_eq {k : Kernel} (hk : k.dev.bufEntry.size + 1 < 2 ^ 63) {filp : File}
    (hopen : filp.privateData = true) (off whence : ℤ) :
    aesdLlseek k filp off whence
      = .ok (if fixedSizeLlseek filp.fPos off whence (seekSize k.dev.bufEntry.size) < 0 then filp
          else { filp with
            fPos := fixedSizeLlseek filp.fPos off whence (seekSize k.dev.bufEntry.size) },
          fixedSizeLlseek filp.fPos off whence (seekSize k.dev.bufEntry.size)) := by
  have hturns : (10 + k.dev.bufEntry.size) / (k.dev.bufEntry.size + 1) ≤ 10 :=
    Nat.div_le_of_le_mul (by omega)
  have hloop := llseekLoop_eq hk 10 (Nat.zero_le _) (by omega)
  rw [Nat.zero_mul] at hloop
  simp only [aesdLlseek, hopen, Bool.true_eq_false, if_false]
  rw [show llseekLoop k.dev.bufEntry.size maxWriteOperationsSupported 0
    = .ok (seekSize k.dev.bufEntry.size : ℤ) from hloop]

/-- Where a seek starts to count. -/
def seekBase (fPos whence size : ℤ) : ℤ :=
  if whence = 0 then 0 else if whence = 1 then fPos else size

/-- `SEEK_SET`, `SEEK_CUR` or `SEEK_END`. -/
def IsWhence (whence : ℤ) : Prop := whence = 0 ∨ whence = 1 ∨ whence = 2

/-- The rule of a seek in a file of a given size. -/
theorem fixedSizeLlseek_eq {whence : ℤ} (hw : IsWhence whence) (fPos off size : ℤ) :
    fixedSizeLlseek fPos off whence size
      = if 0 ≤ seekBase fPos whence size + off ∧ seekBase fPos whence size + off ≤ size then
          seekBase fPos whence size + off else -EINVAL := by
  rcases hw with rfl | rfl | rfl
  · simp [fixedSizeLlseek, seekBase]
  · simp [fixedSizeLlseek, seekBase]
  · simp [fixedSizeLlseek, seekBase]

/-- **The seek positions against what is stored**: it moves to the base and the offset, if that is
within the stored bytes or at their end, and otherwise refuses and leaves the position alone. -/
def LlseekExact (k : Kernel) (filp : File) (off whence : ℤ) : Prop :=
  aesdLlseek k filp off whence
    = .ok (if 0 ≤ seekBase filp.fPos whence k.flat.length + off ∧
          seekBase filp.fPos whence k.flat.length + off ≤ k.flat.length then
        ({ filp with fPos := seekBase filp.fPos whence k.flat.length + off },
          seekBase filp.fPos whence k.flat.length + off)
      else (filp, -EINVAL))

/-- **The two sizes agree on a seek**: they are the same; or the seek does not start at the end and
goes to a position that is inside both or outside both; or it starts at the end and leaves the file
both times. -/
def SizesAgree (total size fPos off whence : ℤ) : Prop :=
  total = size ∨
  (whence ≠ 2 ∧ (0 ≤ seekBase fPos whence total + off →
    (seekBase fPos whence total + off ≤ total ↔ seekBase fPos whence total + off ≤ size))) ∨
  (whence = 2 ∧ (0 < off ∨ (total + off < 0 ∧ size + off < 0)))

instance (total size fPos off whence : ℤ) : Decidable (SizesAgree total size fPos off whence) :=
  inferInstanceAs (Decidable (_ ∨ _ ∨ _))

/-- Two seeks that differ in the size of the file only do the same exactly when the sizes agree. -/
theorem fixedSizeLlseek_congr_iff {whence : ℤ} (hw : IsWhence whence) (fPos off total size : ℤ) :
    fixedSizeLlseek fPos off whence size = fixedSizeLlseek fPos off whence total ↔
      SizesAgree total size fPos off whence := by
  rw [fixedSizeLlseek_eq hw, fixedSizeLlseek_eq hw, SizesAgree, EINVAL]
  by_cases h2 : whence = 2
  · -- a seek from the end: the position itself depends on the size
    subst h2
    have hbase : ∀ size : ℤ, seekBase fPos 2 size = size := fun _ => rfl
    rw [hbase, hbase]
    by_cases hsize : 0 ≤ size + off ∧ size + off ≤ size
    · rw [if_pos hsize]
      split
      · omega
      · omega
    · rw [if_neg hsize]
      split
      · omega
      · omega
  · -- the position is the same, and only whether it is accepted depends on the size
    have hbase : seekBase fPos whence size = seekBase fPos whence total := by
      rcases hw with rfl | rfl | rfl
      · rfl
      · rfl
      · exact absurd rfl h2
    rw [hbase]
    by_cases hsize : 0 ≤ seekBase fPos whence total + off ∧ seekBase fPos whence total + off ≤ size
    · rw [if_pos hsize]
      split
      · omega
      · omega
    · rw [if_neg hsize]
      split
      · omega
      · omega

/-- **The seek against the stored bytes** is the seek of the code exactly when the sizes agree. -/
theorem Kernel.llseekExact_iff {k : Kernel} (hk : k.dev.bufEntry.size + 1 < 2 ^ 63) {filp : File}
    (hopen : filp.privateData = true) (off : ℤ) {whence : ℤ} (hw : IsWhence whence) :
    LlseekExact k filp off whence ↔
      SizesAgree k.flat.length (seekSize k.dev.bufEntry.size) filp.fPos off whence := by
  have hrule : ∀ size : ℤ, (if 0 ≤ seekBase filp.fPos whence size + off ∧
        seekBase filp.fPos whence size + off ≤ size then
        ({ filp with fPos := seekBase filp.fPos whence size + off },
          seekBase filp.fPos whence size + off)
      else (filp, -EINVAL))
      = (if fixedSizeLlseek filp.fPos off whence size < 0 then filp
          else { filp with fPos := fixedSizeLlseek filp.fPos off whence size },
        fixedSizeLlseek filp.fPos off whence size) := by
    intro size
    rw [fixedSizeLlseek_eq hw, EINVAL]
    split
    · next h => rw [if_neg (by omega)]
    · rw [if_pos (by decide)]
  rw [LlseekExact, aesdLlseek_eq hk hopen, hrule, ← fixedSizeLlseek_congr_iff hw]
  constructor
  · intro h
    exact (Prod.mk.inj (Except.ok.inj h)).2
  · intro h
    rw [h]

/-- **When a seek positions against what is stored.**  No block is so large that its size is not a
`loff_t`. -/
theorem reachable_llseek_exact {M : ℕ} (hM : M + 1 < 2 ^ 63) {s : Sys} (hs : Reachable M s)
    (filp : File) (hopen : filp.privateData = true) (off whence : ℤ) (hw : IsWhence whence) :
    LlseekExact s.kern filp off whence ↔
      SizesAgree s.kern.flat.length (seekSize s.kern.dev.bufEntry.size) filp.fPos off whence :=
  Kernel.llseekExact_iff (by have := hs.inv.size_le; omega) hopen off hw

/-- Ten bytes are stored and one is pending: the size that the loop arrives at is that of what is
stored, and a seek to four bytes before the end leads to position six. -/
theorem reachable_llseek_exact_ten_bytes :
    ∃ s, Reachable 64 s ∧ s.kern.commands = [[97, 98, 99, 100, 101, 102, 103, 104, 105, 10]] ∧
      s.kern.pending = [106] ∧ aesdLlseek s.kern ⟨true, 3⟩ (-4) 2 = .ok (⟨true, 6⟩, 6) := by
  have hstate : ((charDev 64).run Sys.init
      [.openFile 0,
        .write (some 0) (some [97, 98, 99, 100, 101, 102, 103, 104, 105, 10])
          ⟨false, ⟨some 0, fun _ => 7⟩, 0⟩,
        .write (some 0) (some [106]) ⟨false, ⟨some 1, fun _ => 7⟩, 0⟩]).map
        (fun p => (p.1.kern.commands, p.1.kern.pending, p.1.kern.dev.bufEntry.size))
      = some ([[97, 98, 99, 100, 101, 102, 103, 104, 105, 10]], [106], 1) := by decide
  obtain ⟨⟨s, rs⟩, hrun, hstate⟩ := Option.map_eq_some_iff.1 hstate
  obtain ⟨hcmds, hrest⟩ := Prod.mk.inj hstate
  obtain ⟨hpending, hsize⟩ := Prod.mk.inj hrest
  have hs := reachable_of_run hrun
  have hflat : (s.kern.flat.length : ℤ) = 10 :=
    congrArg (fun cs : List (List UInt8) => (cs.flatten.length : ℤ)) hcmds
  have hsize' : s.kern.dev.bufEntry.size = 1 := hsize
  have hexact : LlseekExact s.kern ⟨true, 3⟩ (-4) 2 :=
    (reachable_llseek_exact (by decide) hs ⟨true, 3⟩ rfl (-4) 2 (Or.inr (Or.inr rfl))).2
      (Or.inl (by rw [hflat, hsize']; rfl))
  rw [LlseekExact, hflat] at hexact
  exact ⟨s, hs, hcmds, hpending, hexact⟩

/-- **On a freshly loaded device, seeking to the end leads to position ten**, where nothing is
stored. -/
theorem llseek_fresh :
    ¬ ∀ (M : ℕ) (s : Sys), Reachable M s → ∀ (filp : File), filp.privateData = true →
      ∀ off whence : ℤ, IsWhence whence → LlseekExact s.kern filp off whence := by
  intro h
  have hexact := h 64 Sys.init Machine.Reach.refl ⟨true, 0⟩ rfl 0 2 (Or.inr (Or.inr rfl))
  rw [Kernel.llseekExact_iff (by decide) rfl 0 (Or.inr (Or.inr rfl))] at hexact
  exact absurd hexact (by decide)

end Aesd
