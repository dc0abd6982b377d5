/-
**The kernel's memory, as the driver uses it.**

The driver obtains one block of memory for the command it is assembling, hands it over to a slot of
the ring when the command is complete, and frees it when the command is evicted.  It reaches the
blocks through pointers only, so whether a block is still allocated and how long it is matters at
every access.  The heap here keeps the driver's blocks with their bytes; an access outside a block
and the use of a block that is not allocated are *faults*, after which the code has no behaviour.

What the environment decides is an argument of the operation: where a new block is placed, what its
fresh bytes hold, how many bytes of a user copy fail.

Main definitions:

* `KPtr`, `Heap`, `Heap.contents` — pointers, the allocated blocks, the bytes behind a pointer;
* `krealloc`, `kfree` — the allocator; a request above the bound `M` fails, and so does one that
  would be placed in a block that is in use;
* `copyFromUser`, `copyToUser` — the user copies, which return the number of bytes not copied.

Main results:

* `krealloc_cases`, `krealloc_ok` — everything a reallocation of a valid pointer can do;
* `copyFromUser_cases`, `copyFromUser_ok` — everything a copy into a block can do;
* `Heap.contents_release_of_ne`, `Heap.contents_store_of_ne` — the other blocks keep their bytes.
-/

import Aesd.CInt
import Mathlib.Data.List.TakeDrop
import Mathlib.Logic.Function.Basic

set_option relaxedAutoImplicit false
set_option autoImplicit false

namespace Aesd

/-! ### Machine types and error numbers -/

/-- Conversion to `size_t`. -/
def sizeT (x : ℤ) : ℕ := CInt.unsigned 64 x

/-- Conversion to `int`. -/
def int32 (x : ℤ) : ℤ := CInt.signed 32 x

theorem sizeT_of_lt {n : ℕ} (h : n < 2 ^ 64) : sizeT (n : ℤ) = n := CInt.unsigned_of_lt h

theorem sizeT_lt (x : ℤ) : sizeT x < 2 ^ 64 := CInt.unsigned_lt 64 x

theorem sizeT_cast (x : ℤ) : (sizeT x : ℤ) = x % 2 ^ 64 := CInt.unsigned_cast 64 x

/-- Sums of type `size_t` are sums modulo `2 ^ 64`. -/
theorem sizeT_add (x : ℤ) (n : ℕ) : sizeT ((sizeT x : ℤ) + n) = sizeT (x + n) := by
  have h₀ := sizeT_cast x
  have h₁ := sizeT_cast ((sizeT x : ℤ) + n)
  have h₂ := sizeT_cast (x + n)
  omega

def EFAULT : ℤ := 14
def ENOMEM : ℤ := 12
def ENODEV : ℤ := 19
def EINVAL : ℤ := 22
def ENOTTY : ℤ := 25
def ERESTARTSYS : ℤ := 512

/-- The largest count a user copy accepts. -/
def INT_MAX : ℕ := 2 ^ 31 - 1

/-- What ends the execution of the code without a result. -/
inductive Fault where
  /-- A pointer that is neither `NULL` nor a live block was freed or reallocated. -/
  | badFree
  /-- A byte outside the live blocks was read or written. -/
  | badAccess
  /-- A loop did not come to its end. -/
  | stuck
  deriving DecidableEq, Repr

/-! ### Pointers and blocks -/

/-- A pointer to a block of bytes: `NULL`, the address that stands for a block of size zero, or a
block. -/
inductive KPtr where
  | null
  | zeroSize
  | block (a : ℕ)
  deriving DecidableEq, Repr

/-- The allocated blocks, with their bytes.  Addresses from `top` on have never been used. -/
structure Heap where
  /-- The block at an address, if it is allocated. -/
  block : ℕ → Option (List UInt8)
  /-- A bound of the addresses in use. -/
  top : ℕ
  /-- No block is allocated from `top` on. -/
  block_top : ∀ a, top ≤ a → block a = none

namespace Heap

/-- The heap before the first allocation. -/
def empty : Heap := ⟨fun _ => none, 0, fun _ _ => rfl⟩

/-- The bytes behind a pointer; there are none behind `NULL` or a pointer of size zero. -/
def contents (h : Heap) : KPtr → List UInt8
  | .block a => (h.block a).getD []
  | _ => []

/-- A pointer that may be given back to the allocator: it is not dangling. -/
def Valid (h : Heap) : KPtr → Prop
  | .block a => (h.block a).isSome
  | _ => True

instance (h : Heap) : (p : KPtr) → Decidable (h.Valid p)
  | .block a => inferInstanceAs (Decidable ((h.block a).isSome = true))
  | .null => isTrue trivial
  | .zeroSize => isTrue trivial

/-- Giving a block back; there is nothing to give back for the other pointers. -/
def release (h : Heap) : KPtr → Heap
  | .block a =>
      { block := Function.update h.block a none
        top := h.top
        block_top := fun b hb => by
          by_cases hab : b = a
          · subst hab; exact Function.update_self ..
          · rw [Function.update_of_ne hab]; exact h.block_top b hb }
  | _ => h

/-- Setting the bytes of the block at `a`. -/
def store (h : Heap) (a : ℕ) (bytes : List UInt8) : Heap :=
  { block := Function.update h.block a (some bytes)
    top := max h.top (a + 1)
    block_top := fun b hb => by
      rw [Function.update_of_ne (by omega)]
      exact h.block_top b (by omega) }

@[simp] theorem contents_null (h : Heap) : h.contents .null = [] := rfl

@[simp] theorem contents_zeroSize (h : Heap) : h.contents .zeroSize = [] := rfl

theorem contents_of_block {h : Heap} {a : ℕ} {bs : List UInt8} (ha : h.block a = some bs) :
    h.contents (.block a) = bs := by simp [contents, ha]

@[simp] theorem store_block_self (h : Heap) (a : ℕ) (bs : List UInt8) :
    (h.store a bs).block a = some bs := Function.update_self ..

theorem store_block_of_ne (h : Heap) {a b : ℕ} (bs : List UInt8) (hab : b ≠ a) :
    (h.store a bs).block b = h.block b := Function.update_of_ne hab ..

@[simp] theorem release_block_self (h : Heap) (a : ℕ) : (h.release (.block a)).block a = none :=
  Function.update_self ..

theorem release_block_of_ne (h : Heap) {p : KPtr} {b : ℕ} (hp : p ≠ .block b) :
    (h.release p).block b = h.block b := by
  cases p with
  | null => rfl
  | zeroSize => rfl
  | block a => exact Function.update_of_ne (fun hab => hp (by rw [hab])) ..

/-- Releasing never makes a block appear. -/
theorem release_block_eq_some {h : Heap} {p : KPtr} {b : ℕ} {bs : List UInt8}
    (hb : (h.release p).block b = some bs) : h.block b = some bs ∧ p ≠ .block b := by
  have hp : p ≠ .block b := by rintro rfl; simp at hb
  exact ⟨by rwa [release_block_of_ne h hp] at hb, hp⟩

@[simp] theorem contents_store_self (h : Heap) (a : ℕ) (bs : List UInt8) :
    (h.store a bs).contents (.block a) = bs := contents_of_block (store_block_self ..)

/-- Storing leaves the bytes behind the other pointers alone. -/
theorem contents_store_of_ne (h : Heap) {a : ℕ} {q : KPtr} (bs : List UInt8) (hq : q ≠ .block a) :
    (h.store a bs).contents q = h.contents q := by
  cases q with
  | null => rfl
  | zeroSize => rfl
  | block b =>
      have hab : b ≠ a := by rintro rfl; exact hq rfl
      simp only [contents, store_block_of_ne h bs hab]

/-- Releasing leaves the bytes behind the other pointers alone. -/
theorem contents_release_of_ne (h : Heap) {p q : KPtr} (hpq : p ≠ q) :
    (h.release p).contents q = h.contents q := by
  cases q with
  | null => rfl
  | zeroSize => rfl
  | block b => simp only [contents, release_block_of_ne h hpq]

/-- An address that has never been used. -/
theorem exists_fresh (h : Heap) : h.block h.top = none := h.block_top _ le_rfl

/-! ### Access to the bytes -/

/-- Replacing the bytes from offset `off` on. -/
def overwrite (old : List UInt8) (off : ℕ) (bs : List UInt8) : List UInt8 :=
  old.take off ++ bs ++ old.drop (off + bs.length)

/-- Writing bytes at an offset of a block.  Writing no byte touches nothing. -/
def write (h : Heap) (p : KPtr) (off : ℕ) (bs : List UInt8) : Except Fault Heap :=
  if bs = [] then .ok h
  else
    match p with
    | .block a =>
        match h.block a with
        | some old =>
            if off + bs.length ≤ old.length then .ok (h.store a (overwrite old off bs))
            else .error .badAccess
        | none => .error .badAccess
    | _ => .error .badAccess

/-- Reading `n` bytes at an offset of a block.  Reading no byte touches nothing. -/
def read (h : Heap) (p : KPtr) (off n : ℕ) : Except Fault (List UInt8) :=
  if n = 0 then .ok []
  else if off + n ≤ (h.contents p).length then .ok (((h.contents p).drop off).take n)
  else .error .badAccess

/-- Reading one byte of a block. -/
def load (h : Heap) (p : KPtr) (i : ℕ) : Except Fault UInt8 :=
  match (h.contents p)[i]? with
  | some b => .ok b
  | none => .error .badAccess

theorem read_of_le {h : Heap} {p : KPtr} {off n : ℕ} (hle : off + n ≤ (h.contents p).length) :
    h.read p off n = .ok (((h.contents p).drop off).take n) := by
  rcases eq_or_ne n 0 with rfl | hn
  · rw [read, if_pos rfl, List.take_zero]
  · rw [read, if_neg hn, if_pos hle]

end Heap

/-! ### The allocator -/

/-- What the allocator decides about one request: an address, unless it finds none, and the bytes
that the fresh part of the block holds. -/
structure Alloc where
  addr : Option ℕ
  fill : ℕ → UInt8

/-- A block of length `n` that starts with the bytes of the old one. -/
def resize (old : List UInt8) (n : ℕ) (fill : ℕ → UInt8) : List UInt8 :=
  old.take n ++ (List.range' old.length (n - old.length)).map fill

@[simp] theorem resize_length (old : List UInt8) (n : ℕ) (fill : ℕ → UInt8) :
    (resize old n fill).length = n := by
  simp [resize]; omega

/-- The bytes of the old block survive. -/
theorem take_resize (old : List UInt8) (fill : ℕ → UInt8) {m n : ℕ} (hm : m ≤ old.length)
    (hmn : m ≤ n) : (resize old n fill).take m = old.take m := by
  rw [resize, List.take_append_of_le_length (by simp; omega), List.take_take, min_eq_left hmn]

/-- `krealloc`: the new pointer, `NULL` if there is no memory.  Requests above `M` find none, and a
proposed address that is in use is no address.  A failed request leaves the old block as it was; a
successful one retires it.  A request of size zero gives back the pointer of size zero. -/
def krealloc (M : ℕ) (env : Alloc) (h : Heap) (p : KPtr) (n : ℕ) : Except Fault (Heap × KPtr) :=
  if ¬ h.Valid p then .error .badFree
  else if n = 0 then .ok (h.release p, .zeroSize)
  else
    match env.addr with
    | none => .ok (h, .null)
    | some a =>
        if n ≤ M ∧ (h.release p).block a = none then
          .ok ((h.release p).store a (resize (h.contents p) n env.fill), .block a)
        else .ok (h, .null)

/-- `kfree`. -/
def kfree (h : Heap) (p : KPtr) : Except Fault Heap :=
  if h.Valid p then .ok (h.release p) else .error .badFree

/-- The request for `n` bytes is granted. -/
def Granted (M : ℕ) (env : Alloc) (h : Heap) (p : KPtr) (n : ℕ) : Prop :=
  n = 0 ∨ ∃ a, env.addr = some a ∧ n ≤ M ∧ (h.release p).block a = none

instance (M : ℕ) (env : Alloc) (h : Heap) (p : KPtr) (n : ℕ) : Decidable (Granted M env h p n) :=
  match haddr : env.addr with
  | none => if hn : n = 0 then isTrue (Or.inl hn) else isFalse (by simp [Granted, haddr, hn])
  | some a =>
      if hn : n = 0 ∨ (n ≤ M ∧ ((h.release p).block a).isNone = true) then
        isTrue (by rw [Option.isNone_iff_eq_none] at hn; simpa [Granted, haddr] using hn)
      else isFalse (by rw [Option.isNone_iff_eq_none] at hn; simpa [Granted, haddr] using hn)

/-- A granted request for a positive number of bytes retires the old block and returns a new one
that starts with the bytes of the old one. -/
theorem krealloc_ok {M : ℕ} {env : Alloc} {h : Heap} {p : KPtr} {n : ℕ} (hp : h.Valid p)
    (hn : 0 < n) (hg : Granted M env h p n) :
    ∃ a, env.addr = some a ∧ n ≤ M ∧ (h.release p).block a = none ∧ krealloc M env h p n
      = .ok ((h.release p).store a (resize (h.contents p) n env.fill), .block a) := by
  rcases hg with rfl | ⟨a, haddr, hM, hfree⟩
  · omega
  · refine ⟨a, haddr, hM, hfree, ?_⟩
    rw [krealloc, if_neg (not_not.2 hp), if_neg (by omega), haddr]
    exact if_pos ⟨hM, hfree⟩

/-- A request that is not granted returns `NULL` and leaves the heap as it was. -/
theorem krealloc_null {M : ℕ} {env : Alloc} {h : Heap} {p : KPtr} {n : ℕ} (hp : h.Valid p)
    (hg : ¬ Granted M env h p n) : krealloc M env h p n = .ok (h, .null) := by
  have hn : n ≠ 0 := fun hn => hg (Or.inl hn)
  rw [krealloc, if_neg (not_not.2 hp), if_neg hn]
  cases haddr : env.addr with
  | none => rfl
  | some a => exact if_neg fun hc => hg (Or.inr ⟨a, haddr, hc.1, hc.2⟩)

/-- **Everything a reallocation of a valid pointer can do.** -/
theorem krealloc_cases (M : ℕ) (env : Alloc) {h : Heap} {p : KPtr} (n : ℕ) (hp : h.Valid p) :
    (¬ Granted M env h p n ∧ 0 < n ∧ krealloc M env h p n = .ok (h, .null)) ∨
    (n = 0 ∧ krealloc M env h p n = .ok (h.release p, .zeroSize)) ∨
    (∃ a, env.addr = some a ∧ 0 < n ∧ n ≤ M ∧ (h.release p).block a = none ∧ krealloc M env h p n
      = .ok ((h.release p).store a (resize (h.contents p) n env.fill), .block a)) := by
  by_cases hg : Granted M env h p n
  · rcases Nat.eq_zero_or_pos n with rfl | hn
    · exact Or.inr (Or.inl ⟨rfl, by rw [krealloc, if_neg (not_not.2 hp), if_pos rfl]⟩)
    · obtain ⟨a, haddr, hM, hfree, heq⟩ := krealloc_ok hp hn hg
      exact Or.inr (Or.inr ⟨a, haddr, hn, hM, hfree, heq⟩)
  · exact Or.inl ⟨hg, Nat.pos_of_ne_zero fun hn => hg (Or.inl hn), krealloc_null hp hg⟩

theorem kfree_ok {h : Heap} {p : KPtr} (hp : h.Valid p) : kfree h p = .ok (h.release p) :=
  if_pos hp

/-! ### User copies -/

/-- The number of bytes that a user copy of `n` bytes leaves uncopied, when the user's memory ends
`left` bytes early.  A count above `INT_MAX` is refused as a whole. -/
def uncopied (left n : ℕ) : ℕ := if INT_MAX < n then n else min left n

/-- `copy_from_user` to offset `off` of a block; the bytes it cannot read arrive as zeros, except
that a refused count touches nothing. -/
def copyFromUser (left : ℕ) (h : Heap) (p : KPtr) (off : ℕ) (src : List UInt8) :
    Except Fault (Heap × ℕ) :=
  let u := uncopied left src.length
  if INT_MAX < src.length then .ok (h, u)
  else
    match h.write p off (src.take (src.length - u) ++ List.replicate u 0) with
    | .error f => .error f
    | .ok h' => .ok (h', u)

/-- `copy_to_user` of `n` bytes at an offset of a block: the number of bytes not copied, and the
bytes that arrived. -/
def copyToUser (left : ℕ) (h : Heap) (p : KPtr) (off n : ℕ) : Except Fault (ℕ × List UInt8) :=
  let u := uncopied left n
  if INT_MAX < n then .ok (u, [])
  else
    match h.read p off n with
    | .error f => .error f
    | .ok bs => .ok (u, bs.take (n - u))

theorem uncopied_le (left n : ℕ) : uncopied left n ≤ n := by
  rw [uncopied]; split <;> omega

theorem uncopied_eq_zero {left n : ℕ} (h : uncopied left n = 0) : n ≤ INT_MAX := by
  by_contra hn
  rw [uncopied, if_pos (by omega)] at h
  omega

/-- **Everything a copy into a block can do**: it leaves the bytes before the offset and the length
of the block alone, and if it is complete and fills the rest of the block, the block ends with the
user's bytes. -/
theorem copyFromUser_cases {left : ℕ} {h h' : Heap} {a off u : ℕ} {old src : List UInt8}
    (ha : h.block a = some old) (hc : copyFromUser left h (.block a) off src = .ok (h', u)) :
    u = uncopied left src.length ∧ ∃ bs, (h' = h ∧ bs = old ∨ h' = h.store a bs) ∧
      bs.length = old.length ∧ bs.take off = old.take off ∧
      (u = 0 → src ≠ [] → off + src.length ≤ old.length) ∧
      (u = 0 → off + src.length = old.length → bs = old.take off ++ src) := by
  have hule : uncopied left src.length ≤ src.length := uncopied_le ..
  by_cases hbig : INT_MAX < src.length
  · rw [copyFromUser, if_pos hbig] at hc
    cases hc
    have hpos : ¬ uncopied left src.length = 0 := fun h0 => by
      have := uncopied_eq_zero h0
      omega
    exact ⟨rfl, old, Or.inl ⟨rfl, rfl⟩, rfl, rfl, fun h0 => absurd h0 hpos,
      fun h0 => absurd h0 hpos⟩
  · simp only [copyFromUser, if_neg hbig] at hc
    set v := uncopied left src.length with hv
    set bytes := src.take (src.length - v) ++ List.replicate v 0 with hbytes
    have hlen : bytes.length = src.length := by simp [hbytes]; omega
    rcases eq_or_ne bytes [] with hnil | hnil
    · have hsrc : src = [] := by rw [← List.length_eq_zero_iff, ← hlen, hnil]; rfl
      simp only [Heap.write, if_pos hnil] at hc
      obtain ⟨rfl, rfl⟩ := Prod.mk.inj (Except.ok.inj hc)
      refine ⟨rfl, old, Or.inl ⟨rfl, rfl⟩, rfl, rfl, fun _ hne => absurd hsrc hne, ?_⟩
      intro _ hoff
      rw [hsrc, List.length_nil] at hoff
      rw [hsrc, List.append_nil, List.take_of_length_le (by omega)]
    · by_cases hle : off + bytes.length ≤ old.length
      · simp only [Heap.write, if_neg hnil, ha, if_pos hle] at hc
        obtain ⟨rfl, rfl⟩ := Prod.mk.inj (Except.ok.inj hc)
        refine ⟨rfl, Heap.overwrite old off bytes, Or.inr rfl, ?_, ?_, fun _ _ => by omega,
          ?_⟩
        · simp [Heap.overwrite]; omega
        · rw [Heap.overwrite, List.append_assoc, List.take_append_of_le_length (by simp; omega),
            List.take_take, min_self]
        · intro h0 hoff
          rw [Heap.overwrite, List.drop_of_length_le (by omega), List.append_nil, hbytes, h0]
          simp
      · simp only [Heap.write, if_neg hnil, ha, if_neg hle] at hc
        cases hc

/-- A copy into a block with enough room ends without a fault. -/
theorem copyFromUser_ok (left off : ℕ) (src : List UInt8) {h : Heap} {a : ℕ} {old : List UInt8}
    (ha : h.block a = some old) (hle : off + src.length ≤ old.length) :
    ∃ h' u, copyFromUser left h (.block a) off src = .ok (h', u) := by
  have hule : uncopied left src.length ≤ src.length := uncopied_le ..
  by_cases hbig : INT_MAX < src.length
  · exact ⟨_, _, if_pos hbig⟩
  · have hlen : (src.take (src.length - uncopied left src.length)
        ++ List.replicate (uncopied left src.length) (0 : UInt8)).length = src.length := by
      simp; omega
    by_cases hnil : src.take (src.length - uncopied left src.length)
        ++ List.replicate (uncopied left src.length) (0 : UInt8) = []
    · simp only [copyFromUser, if_neg hbig, Heap.write, if_pos hnil]
      exact ⟨_, _, rfl⟩
    · simp only [copyFromUser, if_neg hbig, Heap.write, if_neg hnil, ha, hlen, if_pos hle]
      exact ⟨_, _, rfl⟩

/-- A copy through the pointer of size zero touches nothing: it is incomplete or has no byte to
copy. -/
theorem copyFromUser_zeroSize {left : ℕ} {h h' : Heap} {off u : ℕ} {src : List UInt8}
    (hc : copyFromUser left h .zeroSize off src = .ok (h', u)) :
    h' = h ∧ u = uncopied left src.length ∧ (u = 0 → src = []) := by
  have hule : uncopied left src.length ≤ src.length := uncopied_le ..
  by_cases hbig : INT_MAX < src.length
  · rw [copyFromUser, if_pos hbig] at hc
    cases hc
    refine ⟨rfl, rfl, ?_⟩
    intro h0
    have := uncopied_eq_zero h0
    omega
  · by_cases hnil : src.take (src.length - uncopied left src.length)
        ++ List.replicate (uncopied left src.length) (0 : UInt8) = []
    · simp only [copyFromUser, if_neg hbig, Heap.write, if_pos hnil] at hc
      cases hc
      refine ⟨rfl, rfl, ?_⟩
      intro h0
      simpa [h0] using hnil
    · simp only [copyFromUser, if_neg hbig, Heap.write, if_neg hnil] at hc
      cases hc

end Aesd
