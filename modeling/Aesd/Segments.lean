/-
**Positions in a concatenation of segments.**

A list of segments laid end to end is addressed in two ways: by a position in the concatenation,
or by the number of a segment and an offset in it.  `Segments.locate` goes from the first to the
second by walking the sizes; the way back adds the sizes of the segments before.

* `Segments.locate` — the segment and the offset of a position, from the sizes alone;
* `Segments.locate_eq_some_iff`, `Segments.locate_eq_none_iff` — it is the exact inverse;
* `Segments.drop_flatten` — what the concatenation shows from a located position on;
* `Segments.rest` — what the segment that holds a position shows from there on, and that it starts
  what the concatenation shows.
-/

import Mathlib.Algebra.GroupWithZero.Nat
import Mathlib.Data.List.Flatten
import Mathlib.Algebra.BigOperators.Group.List.Basic

set_option relaxedAutoImplicit false
set_option autoImplicit false

namespace Segments

variable {α : Type}

/-- The segment that holds position `p`, and the offset of `p` in it. -/
def locate : List ℕ → ℕ → Option (ℕ × ℕ)
  | [], _ => none
  | n :: ns, p => if p < n then some (0, p) else (locate ns (p - n)).map fun q => (q.1 + 1, q.2)

@[simp] theorem locate_nil (p : ℕ) : locate [] p = none := rfl

theorem locate_cons_of_lt {n p : ℕ} (ns : List ℕ) (h : p < n) :
    locate (n :: ns) p = some (0, p) := by
  rw [locate, if_pos h]

theorem locate_cons_of_le {n p : ℕ} (ns : List ℕ) (h : n ≤ p) :
    locate (n :: ns) p = (locate ns (p - n)).map fun q => (q.1 + 1, q.2) := by
  rw [locate, if_neg (by omega)]

/-- **Locating is exact**: segment `j` at offset `o` is the answer for `p` if and only if the sizes
before it and the offset add up to `p`, and the offset is inside the segment. -/
theorem locate_eq_some_iff {ns : List ℕ} {p j o : ℕ} :
    locate ns p = some (j, o) ↔ ∃ n, ns[j]? = some n ∧ o < n ∧ (ns.take j).sum + o = p := by
  induction ns generalizing p j with
  | nil => simp
  | cons n ns ih =>
      rcases Nat.lt_or_ge p n with hp | hp
      · rw [locate_cons_of_lt ns hp]
        cases j with
        | zero => simp; omega
        | succ j => simp; omega
      · rw [locate_cons_of_le ns hp]
        cases j with
        | zero => simp; omega
        | succ j =>
            simp only [Option.map_eq_some_iff, Prod.mk.injEq, Prod.exists,
              Nat.add_right_cancel_iff, List.getElem?_cons_succ, List.take_succ_cons,
              List.sum_cons]
            constructor
            · rintro ⟨j', o', hloc, rfl, rfl⟩
              obtain ⟨m, hm, ho, hsum⟩ := ih.1 hloc
              exact ⟨m, hm, ho, by omega⟩
            · rintro ⟨m, hm, ho, hsum⟩
              exact ⟨j, o, ih.2 ⟨m, hm, ho, by omega⟩, rfl, rfl⟩

/-- Nothing is located exactly from the total size on. -/
theorem locate_eq_none_iff {ns : List ℕ} {p : ℕ} : locate ns p = none ↔ ns.sum ≤ p := by
  induction ns generalizing p with
  | nil => simp
  | cons n ns ih =>
      rcases Nat.lt_or_ge p n with hp | hp
      · rw [locate_cons_of_lt ns hp]; simp; omega
      · rw [locate_cons_of_le ns hp]; simp [ih]; omega

theorem lt_of_locate {ns : List ℕ} {p : ℕ} {q : ℕ × ℕ} (h : locate ns p = some q) :
    p < ns.sum := by
  by_contra hge
  rw [locate_eq_none_iff.2 (Nat.le_of_not_lt hge)] at h
  cases h

/-- Empty segments after the last one hold no position. -/
theorem locate_append_zeros (ns : List ℕ) (k p : ℕ) :
    locate (ns ++ List.replicate k 0) p = locate ns p := by
  induction ns generalizing p with
  | nil => rw [locate_nil, List.nil_append, locate_eq_none_iff]; simp
  | cons n ns ih => rw [List.cons_append, locate, locate, ih]

/-- What the concatenation shows from a located position on: the rest of the segment, then the
segments after it. -/
theorem drop_flatten {L : List (List α)} {p j o : ℕ}
    (h : locate (L.map List.length) p = some (j, o)) :
    ∃ c, L[j]? = some c ∧ o < c.length ∧ ((L.take j).flatten).length + o = p ∧
      L.flatten.drop p = c.drop o ++ (L.drop (j + 1)).flatten := by
  obtain ⟨n, hn, ho, hsum⟩ := locate_eq_some_iff.1 h
  obtain ⟨c, hc, rfl⟩ := by simpa [List.getElem?_map] using hn
  have hlen : ((L.take j).flatten).length = ((L.map List.length).take j).sum := by
    rw [List.length_flatten, List.map_take]
  refine ⟨c, hc, ho, by omega, ?_⟩
  have hsplit : L = L.take j ++ c :: L.drop (j + 1) := by
    have hj : j < L.length := (List.getElem?_eq_some_iff.1 hc).1
    have hget : L[j] = c := (List.getElem?_eq_some_iff.1 hc).2
    rw [← hget, ← List.drop_eq_getElem_cons hj, List.take_append_drop]
  conv_lhs => rw [hsplit, List.flatten_append, List.flatten_cons]
  rw [List.drop_append, List.drop_of_length_le (by omega), List.nil_append,
    show p - (L.take j).flatten.length = o by omega, List.drop_append_of_le_length (by omega)]

/-! ### The rest of a segment -/

/-- What the segment that holds position `p` shows from there on; nothing behind the last one. -/
def rest : List (List α) → ℕ → List α
  | [], _ => []
  | c :: cs, p => if p < c.length then c.drop p else rest cs (p - c.length)

theorem rest_of_locate_none {L : List (List α)} {p : ℕ} (h : locate (L.map List.length) p = none) :
    rest L p = [] := by
  induction L generalizing p with
  | nil => rfl
  | cons c cs ih =>
      rw [List.map_cons] at h
      rcases Nat.lt_or_ge p c.length with hp | hp
      · rw [locate_cons_of_lt _ hp] at h
        cases h
      · rw [locate_cons_of_le _ hp, Option.map_eq_none_iff] at h
        rw [rest, if_neg (by omega), ih h]

theorem rest_of_locate {L : List (List α)} {p j o : ℕ} {c : List α}
    (h : locate (L.map List.length) p = some (j, o)) (hc : L[j]? = some c) :
    rest L p = c.drop o := by
  induction L generalizing p j with
  | nil => cases h
  | cons d ds ih =>
      rw [List.map_cons] at h
      rcases Nat.lt_or_ge p d.length with hp | hp
      · rw [locate_cons_of_lt _ hp] at h
        cases h
        rw [List.getElem?_cons_zero] at hc
        rw [rest, if_pos hp, Option.some.inj hc]
      · rw [locate_cons_of_le _ hp, Option.map_eq_some_iff] at h
        obtain ⟨⟨j', o'⟩, hloc, heq⟩ := h
        cases heq
        rw [rest, if_neg (by omega)]
        exact ih hloc (by rwa [List.getElem?_cons_succ] at hc)

/-- The rest of a segment starts what the concatenation shows. -/
theorem rest_prefix (L : List (List α)) (p : ℕ) : rest L p <+: L.flatten.drop p := by
  induction L generalizing p with
  | nil => exact List.nil_prefix
  | cons c cs ih =>
      rw [List.flatten_cons, List.drop_append, rest]
      split
      · exact List.prefix_append _ _
      · next hp =>
          rw [List.drop_of_length_le (by omega), List.nil_append]
          exact ih _

end Segments
