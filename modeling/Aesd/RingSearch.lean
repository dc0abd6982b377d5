/-
**Finding a position in the ring.**

`aesd_circular_buffer_find_entry_offset_for_fpos` keeps the sum of the sizes it has walked over in
an `int`, while the sizes and the position are of type `size_t`.  Adding a size to the sum narrows
the result modulo `2 ^ 32`, comparing the sum with the position extends its sign, so what is
compared is not the sum but `narrowed` of it.  The search is exact as long as that makes no
difference: the sums up to the position stay up to it, and the first sum beyond the position is left
unchanged.  Sums below `2 ^ 31` are of this kind, and they are all that the driver produces.

* `AesdCircularBuffer.narrowed`, `AesdCircularBuffer.narrowed_eq_iff` — a sum as it is compared;
* `AesdCircularBuffer.Unharmed` — narrowing makes no difference to the search;
* `AesdCircularBuffer.Inv.find_eq_iff` — the search locates the position **if and only if** that is
  so;
* `AesdCircularBuffer.Inv.findEntryOffsetForFpos_eq` — it is so for a total below `2 ^ 31`;
* `AesdCircularBuffer.Exact`, `AesdCircularBuffer.search_exact_iff` — the same, said of positions;
* `AesdCircularBuffer.search_not_exact` — an entry of `2 ^ 31` bytes.
-/

import Aesd.RingHistory
import Aesd.Segments

set_option relaxedAutoImplicit false
set_option autoImplicit false

namespace Aesd

open RingWindow Segments

namespace AesdCircularBuffer

/-! ### The running sum -/

/-- The value that the loop compares with the position when the sizes add up to `S`. -/
def narrowed (S : ℕ) : ℕ := sizeT (int32 S)

/-- The `int` that the loop keeps is the sum, narrowed once. -/
theorem int32_carry (S n : ℕ) : int32 ((narrowed S : ℤ) + n) = int32 ((S + n : ℕ) : ℤ) := by
  refine CInt.signed_congr ?_
  have hext : (narrowed S : ℤ) = int32 S % 2 ^ 64 := sizeT_cast _
  have hmod : int32 S % (2 ^ 32 : ℕ) = (S : ℤ) % (2 ^ 32 : ℕ) := CInt.signed_emod 32 S
  omega

/-- A sum survives the narrowing below `2 ^ 31`, and in the last `2 ^ 31` values. -/
theorem narrowed_eq_iff {S : ℕ} (hS : S < 2 ^ 64) :
    narrowed S = S ↔ S < 2 ^ 31 ∨ 2 ^ 64 - 2 ^ 31 ≤ S := by
  have hext : (narrowed S : ℤ) = int32 S % 2 ^ 64 := sizeT_cast _
  have hun : (CInt.unsigned 32 (S : ℤ) : ℤ) = (S : ℤ) % 2 ^ 32 := CInt.unsigned_cast 32 S
  have hint : int32 S = if CInt.unsigned 32 (S : ℤ) < 2 ^ 31 then (CInt.unsigned 32 (S : ℤ) : ℤ)
      else (CInt.unsigned 32 (S : ℤ) : ℤ) - (2 ^ 32 : ℕ) := rfl
  split at hint <;> omega

/-- The offset that the loop computes from the narrowed sum is right exactly when the sum is. -/
theorem sizeT_offset {S n p : ℕ} (hn : n ≤ S) (hS : S < 2 ^ 64) (hge : S - n ≤ p) (hp : p < S) :
    sizeT ((p : ℤ) - (narrowed S - n)) = p - (S - n) ↔ narrowed S = S := by
  have hlt : narrowed S < 2 ^ 64 := sizeT_lt _
  have hcast : ((sizeT ((p : ℤ) - (narrowed S - n)) : ℕ) : ℤ)
      = ((p : ℤ) - (narrowed S - n)) % 2 ^ 64 := sizeT_cast _
  omega

/-! ### The loop -/

/-- One turn of the loop, with `S` walked over so far. -/
theorem findLoop_succ (b : AesdCircularBuffer) (p k i S : ℕ) :
    b.findLoop p (k + 1) i (int32 S)
      = if p < narrowed (S + (b.entry (Fin.ofNat 10 (b.outOffs + i))).size) then
          some (Fin.ofNat 10 (b.outOffs + i),
            sizeT ((p : ℤ) - (narrowed (S + (b.entry (Fin.ofNat 10 (b.outOffs + i))).size)
              - (b.entry (Fin.ofNat 10 (b.outOffs + i))).size)))
        else b.findLoop p k (i + 1)
          (int32 ((S + (b.entry (Fin.ofNat 10 (b.outOffs + i))).size : ℕ) : ℤ)) := by
  simp only [findLoop]
  rw [show sizeT (int32 S) = narrowed S from rfl, int32_carry]
  rfl

/-- The slot that the loop answers with is one of those it still has to visit. -/
theorem findLoop_slot {b : AesdCircularBuffer} {p k i S : ℕ}
    {q : Fin maxWriteOperationsSupported × ℕ} (h : b.findLoop p k i (int32 S) = some q) :
    ∃ j < k, q.1 = Fin.ofNat 10 (b.outOffs + (i + j)) := by
  induction k generalizing i S with
  | zero => cases h
  | succ k ih =>
      rw [findLoop_succ] at h
      split at h
      · cases h
        exact ⟨0, Nat.succ_pos k, rfl⟩
      · obtain ⟨j, hj, hq⟩ := ih h
        exact ⟨j + 1, by omega, by rw [hq, Nat.add_right_comm i 1 j, Nat.add_assoc i j 1]⟩

/-- Walking the sizes with `S` walked over so far, narrowing makes no difference: up to the position
the sum stays up to it, and the first sum beyond the position is unchanged. -/
def Walks (p : ℕ) : ℕ → List ℕ → Prop
  | _, [] => True
  | S, n :: ns =>
      if S + n ≤ p then narrowed (S + n) ≤ p ∧ Walks p (S + n) ns else narrowed (S + n) = S + n

/-- **The loop locates the position in the slots it still has to visit if and only if narrowing
makes no difference.** -/
theorem findLoop_eq_iff (b : AesdCircularBuffer) {p : ℕ} (k i S : ℕ) (hk : k ≤ 10) (hS : S ≤ p)
    (hsum : S + ((window b.entry (b.outOffs + i) k).map AesdBufferEntry.size).sum < 2 ^ 64) :
    b.findLoop p k i (int32 S)
        = (locate ((window b.entry (b.outOffs + i) k).map AesdBufferEntry.size) (p - S)).map
            (fun q => (Fin.ofNat 10 (b.outOffs + (i + q.1)), q.2)) ↔
      Walks p S ((window b.entry (b.outOffs + i) k).map AesdBufferEntry.size) := by
  induction k generalizing i S with
  | zero => exact ⟨fun _ => trivial, fun _ => rfl⟩
  | succ k ih =>
      rw [window_cons, List.map_cons, List.sum_cons] at hsum
      rw [findLoop_succ, window_cons, List.map_cons, Walks]
      set n := (b.entry (Fin.ofNat 10 (b.outOffs + i))).size with hn
      set ns := (window b.entry (b.outOffs + i + 1) k).map AesdBufferEntry.size with hns
      have hlen : ns.length = k := by simp [hns]
      -- no later slot is this one
      have hne : ∀ j, 0 < j → j ≤ k →
          Fin.ofNat 10 (b.outOffs + i + j) ≠ Fin.ofNat 10 (b.outOffs + i) :=
        fun j hj hjk => slot_ne (j := 0) (by omega) (by decide) (by omega)
      by_cases hp : S + n ≤ p
      · -- the position is behind this slot
        have hrest : (locate (n :: ns) (p - S)).map
              (fun q => (Fin.ofNat 10 (b.outOffs + (i + q.1)), q.2))
            = (locate ns (p - (S + n))).map
                (fun q => (Fin.ofNat 10 (b.outOffs + (i + 1 + q.1)), q.2)) := by
          rw [locate_cons_of_le _ (by omega), Option.map_map, Nat.sub_add_eq]
          refine congrArg (Option.map · _) (funext ?_)
          intro q
          rw [Function.comp_apply, Nat.add_right_comm i 1, Nat.add_assoc i q.1 1]
        rw [hrest, if_pos hp]
        by_cases hnar : narrowed (S + n) ≤ p
        · rw [if_neg (Nat.not_lt.2 hnar)]
          have hloop := ih (i + 1) (S + n) (by omega) hp
            (by rw [← Nat.add_assoc b.outOffs, ← hns]; omega)
          rw [← Nat.add_assoc b.outOffs, ← hns] at hloop
          rw [hloop]
          exact ⟨fun h => ⟨hnar, h⟩, fun h => h.2⟩
        · -- the loop answers with this slot, and the position is in a later one
          rw [if_pos (Nat.lt_of_not_le hnar)]
          refine ⟨?_, fun h => absurd h.1 hnar⟩
          intro h
          obtain ⟨q, hq, hslot⟩ := Option.map_eq_some_iff.1 h.symm
          obtain ⟨m, hm, -⟩ := locate_eq_some_iff.1 hq
          have hlt : q.1 < k := hlen ▸ (List.getElem?_eq_some_iff.1 hm).1
          refine absurd (Prod.mk.inj hslot).1 ?_
          rw [Nat.add_assoc i, ← Nat.add_assoc b.outOffs]
          exact hne _ (by omega) (by omega)
      · -- the position is in this slot
        have hhere : (locate (n :: ns) (p - S)).map
              (fun q => (Fin.ofNat 10 (b.outOffs + (i + q.1)), q.2))
            = some (Fin.ofNat 10 (b.outOffs + i), p - S) := by
          rw [locate_cons_of_lt _ (by omega)]
          rfl
        have hoff := sizeT_offset (S := S + n) (n := n) (p := p) (by omega) (by omega) (by omega)
          (by omega)
        rw [Nat.add_sub_cancel] at hoff
        rw [hhere, if_neg hp]
        by_cases hnar : p < narrowed (S + n)
        · rw [if_pos hnar, ← hoff]
          exact ⟨fun h => (Prod.mk.inj (Option.some.inj h)).2, fun h => by rw [h]⟩
        · -- the loop goes on, and never comes back to this slot
          rw [if_neg hnar]
          refine ⟨?_, fun h => absurd (Nat.lt_of_not_le hp) (h ▸ hnar)⟩
          intro h
          obtain ⟨j, hj, hslot⟩ := findLoop_slot h
          refine absurd hslot.symm ?_
          rw [Nat.add_assoc i, ← Nat.add_assoc b.outOffs]
          exact hne _ (by omega) (by omega)

/-! ### The whole search -/

/-- The sizes of the entries in the ring, oldest first. -/
def sizes (b : AesdCircularBuffer) : List ℕ := b.entries.map AesdBufferEntry.size

/-- **Narrowing makes no difference to the search for `p`**: of the sums of the oldest entries'
sizes, those up to `p` stay up to it when they are narrowed, and the first one beyond `p` is
unchanged. -/
def Unharmed (ns : List ℕ) (p : ℕ) : Prop :=
  ∀ j < ns.length, ((ns.take (j + 1)).sum ≤ p → narrowed (ns.take (j + 1)).sum ≤ p) ∧
    ((ns.take j).sum ≤ p → p < (ns.take (j + 1)).sum →
      narrowed (ns.take (j + 1)).sum = (ns.take (j + 1)).sum)

instance (ns : List ℕ) (p : ℕ) : Decidable (Unharmed ns p) :=
  inferInstanceAs (Decidable (∀ j < ns.length, _))

theorem walks_iff {p S : ℕ} (hS : S ≤ p) (ns : List ℕ) :
    Walks p S ns ↔ ∀ j < ns.length,
      (S + (ns.take (j + 1)).sum ≤ p → narrowed (S + (ns.take (j + 1)).sum) ≤ p) ∧
      (S + (ns.take j).sum ≤ p → p < S + (ns.take (j + 1)).sum →
        narrowed (S + (ns.take (j + 1)).sum) = S + (ns.take (j + 1)).sum) := by
  induction ns generalizing S with
  | nil => simp [Walks]
  | cons n ns ih =>
      rw [Walks, List.length_cons, Nat.forall_lt_succ_left]
      simp only [List.take_succ_cons, List.sum_cons, List.take_zero, List.sum_nil, Nat.add_zero,
        ← Nat.add_assoc]
      by_cases hp : S + n ≤ p
      · rw [if_pos hp, ih hp]
        constructor
        · rintro ⟨hnar, hrest⟩
          exact ⟨⟨fun _ => hnar, fun _ hlt => absurd hp (Nat.not_le.2 hlt)⟩, hrest⟩
        · rintro ⟨hhere, hrest⟩
          exact ⟨hhere.1 hp, hrest⟩
      · rw [if_neg hp]
        constructor
        · intro heq
          exact ⟨⟨fun hle => absurd hle hp, fun _ _ => heq⟩, fun j _ =>
            ⟨fun hle => absurd hle (by omega), fun hle => absurd hle (by omega)⟩⟩
        · intro h
          exact h.1.2 hS (Nat.lt_of_not_le hp)

/-- The unused slots, which have size zero, make no difference. -/
theorem walks_append_zeros {p S : ℕ} (hS : S ≤ p) (hnar : narrowed S ≤ p) (ns : List ℕ) (k : ℕ) :
    Walks p S (ns ++ List.replicate k 0) ↔ Walks p S ns := by
  induction ns generalizing S with
  | nil =>
      refine ⟨fun _ => trivial, ?_⟩
      intro _
      induction k with
      | zero => trivial
      | succ k ih =>
          rw [List.nil_append, List.replicate_succ, Walks, Nat.add_zero, if_pos hS]
          exact ⟨hnar, ih⟩
  | cons n ns ih =>
      rw [List.cons_append, Walks, Walks]
      by_cases hp : S + n ≤ p
      · rw [if_pos hp, if_pos hp]
        exact and_congr_right fun h => ih hp h
      · rw [if_neg hp, if_neg hp]

/-- **The search locates the position among the entries if and only if narrowing makes no
difference**: the `j`-th oldest entry is in the `j`-th slot from the read index on. -/
theorem Inv.find_eq_iff {b : AesdCircularBuffer} (h : b.Inv) (hsum : b.sizes.sum < 2 ^ 64) (p : ℕ) :
    b.findEntryOffsetForFpos p
        = (locate b.sizes p).map (fun q => (Fin.ofNat 10 (b.outOffs + q.1), q.2)) ↔
      Unharmed b.sizes p := by
  have hsizes : (window b.entry (b.outOffs + 0) 10).map AesdBufferEntry.size
      = b.sizes ++ List.replicate (10 - b.stored) 0 := by
    rw [Nat.add_zero, h.window_eq, List.map_append, List.map_replicate]
    rfl
  have hzero : narrowed 0 = 0 := by decide
  have hint : int32 ((0 : ℕ) : ℤ) = 0 := by decide
  have hloop := b.findLoop_eq_iff (p := p) 10 0 0 le_rfl (Nat.zero_le _) (by
    rw [hsizes, List.sum_append, List.sum_replicate]; simpa using hsum)
  rw [hsizes, locate_append_zeros, Nat.sub_zero,
    walks_append_zeros (Nat.zero_le _) (hzero ▸ Nat.zero_le _), walks_iff (Nat.zero_le _),
    hint] at hloop
  simp only [Nat.zero_add] at hloop
  exact hloop

theorem sum_take_le (ns : List ℕ) (j : ℕ) : (ns.take j).sum ≤ ns.sum := by
  conv_rhs => rw [← List.take_append_drop j ns, List.sum_append]
  exact Nat.le_add_right ..

/-- A total that is an `int` is not harmed. -/
theorem unharmed_of_sum_lt {ns : List ℕ} (hsum : ns.sum < 2 ^ 31) (p : ℕ) : Unharmed ns p := by
  intro j _
  have hle := sum_take_le ns (j + 1)
  have heq := (narrowed_eq_iff (S := (ns.take (j + 1)).sum) (by omega)).2 (Or.inl (by omega))
  exact ⟨fun hp => heq.symm ▸ hp, fun _ _ => heq⟩

/-- **The search locates a position in the concatenation of the stored commands**, as long as their
total size is an `int`. -/
theorem Inv.findEntryOffsetForFpos_eq {b : AesdCircularBuffer} (h : b.Inv)
    (hsum : (b.entries.map AesdBufferEntry.size).sum < 2 ^ 31) (p : ℕ) :
    b.findEntryOffsetForFpos p
      = (Segments.locate (b.entries.map AesdBufferEntry.size) p).map
          fun q => (Fin.ofNat 10 (b.outOffs + q.1), q.2) :=
  (h.find_eq_iff (hsum.trans (by decide)) p).2 (unharmed_of_sum_lt hsum p)

/-! ### Exactness, said of positions -/

/-- The `j`-th of the segments holds position `p`. -/
def Holds (ns : List ℕ) (p j : ℕ) : Prop :=
  (ns.take j).sum ≤ p ∧ ∃ n, ns[j]? = some n ∧ p < (ns.take j).sum + n

/-- **The search is exact at `p`**: it finds nothing exactly from the total size on, and otherwise
it finds the one entry that holds the position, and the offset of the position in it. -/
def Exact (b : AesdCircularBuffer) (p : ℕ) : Prop :=
  (b.findEntryOffsetForFpos p = none ↔ b.sizes.sum ≤ p) ∧
  (p < b.sizes.sum → ∃ j, (∀ j', Holds b.sizes p j' ↔ j' = j) ∧
    b.findEntryOffsetForFpos p
      = some (Fin.ofNat 10 (b.outOffs + j), p - (b.sizes.take j).sum))

theorem holds_iff {ns : List ℕ} {p j : ℕ} :
    Holds ns p j ↔ locate ns p = some (j, p - (ns.take j).sum) := by
  rw [locate_eq_some_iff]
  constructor
  · rintro ⟨hle, n, hn, hlt⟩
    exact ⟨n, hn, by omega, by omega⟩
  · rintro ⟨n, hn, hlt, hsum⟩
    exact ⟨by omega, n, hn, by omega⟩

/-- Being exact is locating. -/
theorem exact_iff_locate (b : AesdCircularBuffer) (p : ℕ) :
    Exact b p ↔ b.findEntryOffsetForFpos p
      = (locate b.sizes p).map (fun q => (Fin.ofNat 10 (b.outOffs + q.1), q.2)) := by
  cases hloc : locate b.sizes p with
  | none =>
      have hle := locate_eq_none_iff.1 hloc
      constructor
      · intro h
        exact h.1.2 hle
      · intro h
        exact ⟨⟨fun _ => hle, fun _ => h⟩, fun hlt => absurd hle (Nat.not_le.2 hlt)⟩
  | some q =>
      obtain ⟨j, o⟩ := q
      have hlt := lt_of_locate hloc
      obtain ⟨n, hn, ho, hsum⟩ := locate_eq_some_iff.1 hloc
      have hoff : o = p - (b.sizes.take j).sum := by omega
      subst hoff
      constructor
      · intro h
        obtain ⟨j', hj', hfind⟩ := h.2 hlt
        obtain rfl := (hj' j).1 (holds_iff.2 hloc)
        exact hfind
      · intro h
        rw [Option.map_some] at h
        refine ⟨⟨?_, fun hle => absurd hle (Nat.not_le.2 hlt)⟩, fun _ =>
          ⟨j, fun j' => ⟨?_, fun hj' => hj' ▸ holds_iff.2 hloc⟩, h⟩⟩
        · intro hnone
          rw [hnone] at h
          cases h
        · intro hj'
          rw [holds_iff, hloc] at hj'
          exact (Prod.mk.inj (Option.some.inj hj')).1.symm

/-- **When the search is exact**, for any sequence of additions and any position. -/
theorem search_exact_iff (es : List AesdBufferEntry)
    (hsum : (init.addAll es).1.sizes.sum < 2 ^ 64) (p : ℕ) :
    Exact (init.addAll es).1 p ↔ Unharmed (init.addAll es).1.sizes p := by
  rw [exact_iff_locate]
  exact (addAll_history es).inv.find_eq_iff hsum p

/-- A position before an entry whose size no `int` can hold. -/
theorem search_exact_iff_two :
    Exact (init.addAll [⟨.block 0, 3⟩, ⟨.block 1, 2 ^ 33⟩]).1 2 :=
  (search_exact_iff [⟨.block 0, 3⟩, ⟨.block 1, 2 ^ 33⟩] (by decide) 2).2 (by decide)

/-- **The search is not exact for an entry of `2 ^ 31` bytes**: position zero is found in it at
offset `2 ^ 32`. -/
theorem search_not_exact :
    ¬ ∀ es : List AesdBufferEntry, (init.addAll es).1.sizes.sum < 2 ^ 64 → ∀ p < 2 ^ 64,
      Exact (init.addAll es).1 p := by
  intro h
  have hsum : (init.addAll [⟨.block 0, 2 ^ 31⟩]).1.sizes.sum < 2 ^ 64 := by decide
  have hfind := (exact_iff_locate _ 0).1 (h [⟨.block 0, 2 ^ 31⟩] hsum 0 (by decide))
  rw [(addAll_history _).inv.find_eq_iff hsum] at hfind
  exact absurd hfind (by decide)

end AesdCircularBuffer

end Aesd
