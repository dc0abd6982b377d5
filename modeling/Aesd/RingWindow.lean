/-
**Windows of a circular array.**

An array of `N` slots is read as a ring: slot `i` stands for every index congruent to `i` modulo
`N`.  A *window* is what the ring shows to a reader that starts at some index and advances one slot
at a time.  A bounded first-in first-out buffer kept in such an array is a window that grows at its
end until it covers the ring, and from then on slides: the newest element overwrites the oldest
one, and the window starts one slot later.

* `RingWindow.window` — the `k` elements from index `out` on;
* `RingWindow.window_succ`, `RingWindow.window_cons` — a window by its last, by its first element;
* `RingWindow.window_push` — writing the slot after a window that does not cover the ring;
* `RingWindow.window_slide` — writing the first slot of a window that covers the ring;
* `RingWindow.mem_window_full` — a window that covers the ring shows every slot.
-/

import Mathlib.Data.Fin.Basic
import Mathlib.Data.Nat.ModEq
import Mathlib.Logic.Function.Basic

set_option relaxedAutoImplicit false
set_option autoImplicit false

namespace RingWindow

variable {α : Type} {N : ℕ} [NeZero N]

/-- The `k` elements a reader sees that starts at index `out`. -/
def window (v : Fin N → α) (out k : ℕ) : List α :=
  (List.range k).map fun j => v (Fin.ofNat N (out + j))

@[simp] theorem window_length (v : Fin N → α) (out k : ℕ) : (window v out k).length = k := by
  simp [window]

@[simp] theorem window_zero (v : Fin N → α) (out : ℕ) : window v out 0 = [] := rfl

theorem window_getElem (v : Fin N → α) (out k j : ℕ) (h : j < (window v out k).length) :
    (window v out k)[j] = v (Fin.ofNat N (out + j)) := by
  simp [window]

theorem window_succ (v : Fin N → α) (out k : ℕ) :
    window v out (k + 1) = window v out k ++ [v (Fin.ofNat N (out + k))] := by
  simp [window, List.range_succ]

theorem window_cons (v : Fin N → α) (out k : ℕ) :
    window v out (k + 1) = v (Fin.ofNat N out) :: window v (out + 1) k := by
  rw [window, List.range_succ_eq_map, List.map_cons, List.map_map]
  congr 1
  refine List.map_congr_left ?_
  intro j _
  rw [Function.comp_apply, show out + j.succ = out + 1 + j by omega]

/-- A window is two windows in a row. -/
theorem window_add (v : Fin N → α) (out k l : ℕ) :
    window v out (k + l) = window v out k ++ window v (out + k) l := by
  induction l with
  | zero => simp
  | succ l ih => rw [← Nat.add_assoc, window_succ, ih, window_succ, Nat.add_assoc out k l]; simp

/-- Only the start modulo `N` matters. -/
theorem window_mod (v : Fin N → α) (out k : ℕ) : window v (out % N) k = window v out k := by
  refine List.map_congr_left ?_
  intro j _
  congr 1
  exact Fin.ext (by simp [Fin.ofNat, Nat.add_mod])

/-- Two offsets of a window that are less than a revolution apart are different slots. -/
theorem slot_ne {out i j : ℕ} (hi : i < N) (hj : j < N) (hij : i ≠ j) :
    Fin.ofNat N (out + i) ≠ Fin.ofNat N (out + j) := by
  intro h
  have hmod : out + i ≡ out + j [MOD N] := congrArg Fin.val h
  have hij' : i ≡ j [MOD N] := Nat.ModEq.add_left_cancel' out hmod
  exact hij (hij'.eq_of_lt_of_lt hi hj)

/-- Writing a slot outside a window does not change it. -/
theorem window_update_of_ne (v : Fin N → α) {out k : ℕ} {i : Fin N} (x : α)
    (h : ∀ j < k, Fin.ofNat N (out + j) ≠ i) :
    window (Function.update v i x) out k = window v out k := by
  refine List.map_congr_left ?_
  intro j hj
  exact Function.update_of_ne (h j (List.mem_range.1 hj)) _ _

/-- **Growing**: writing the slot after a window that does not cover the ring appends to it. -/
theorem window_push (v : Fin N → α) {out k : ℕ} (x : α) (hk : k < N) :
    window (Function.update v (Fin.ofNat N (out + k)) x) out (k + 1) = window v out k ++ [x] := by
  rw [window_succ, Function.update_self, window_update_of_ne]
  intro j hj
  exact slot_ne (by omega) hk (by omega)

/-- **Sliding**: writing the first slot of a window that covers the ring, and starting one slot
later, drops the oldest element and appends the new one. -/
theorem window_slide (v : Fin N → α) (out : ℕ) (x : α) :
    window (Function.update v (Fin.ofNat N out) x) (out + 1) N = (window v out N).tail ++ [x] := by
  obtain ⟨n, hn⟩ : ∃ n, N = n + 1 := ⟨N - 1, by have := Nat.pos_of_neZero N; omega⟩
  have hlast : Fin.ofNat N (out + 1 + n) = Fin.ofNat N out :=
    Fin.ext (by simp [Fin.ofNat, show out + 1 + n = out + N by omega])
  have hrest : window (Function.update v (Fin.ofNat N out) x) (out + 1) n
      = window v (out + 1) n := by
    refine window_update_of_ne v x ?_
    intro j hj
    rw [show out + 1 + j = out + (1 + j) by omega]
    exact slot_ne (j := 0) (by omega) (Nat.pos_of_neZero N) (by omega)
  have htail : (window v out N).tail = window v (out + 1) n := by
    rw [show window v out N = window v out (n + 1) by rw [← hn], window_cons, List.tail_cons]
  rw [show window (Function.update v (Fin.ofNat N out) x) (out + 1) N
      = window (Function.update v (Fin.ofNat N out) x) (out + 1) (n + 1) by rw [← hn],
    window_succ, hlast, Function.update_self, hrest, htail]

/-- A window that covers the ring shows every slot. -/
theorem mem_window_full (v : Fin N → α) (out : ℕ) (i : Fin N) : v i ∈ window v out N := by
  obtain ⟨j, hj, hji⟩ : ∃ j < N, Fin.ofNat N (out + j) = i := by
    refine ⟨(i.val + (N - out % N)) % N, Nat.mod_lt _ (Nat.pos_of_neZero N), Fin.ext ?_⟩
    have hout : out % N < N := Nat.mod_lt _ (Nat.pos_of_neZero N)
    have hmod : out + (i.val + (N - out % N)) % N ≡ i.val [MOD N] := by
      calc out + (i.val + (N - out % N)) % N
          ≡ out % N + (i.val + (N - out % N)) [MOD N] :=
            (Nat.mod_modEq out N).symm.add (Nat.mod_modEq _ N)
        _ = i.val + N := by omega
        _ ≡ i.val [MOD N] := Nat.add_modEq_right
    simpa [Fin.ofNat, Nat.ModEq, Nat.mod_eq_of_lt i.isLt] using hmod
  exact List.mem_map.2 ⟨j, List.mem_range.2 hj, by rw [hji]⟩

end RingWindow
