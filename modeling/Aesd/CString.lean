/-
**C strings in a memory object.**

The functions of the C library that take a string walk along it until they meet a byte that ends the
walk.  Nothing but the bytes themselves keeps the walk inside the object that holds the string, so
the object is a list of bytes here, a pointer into it an index, and every function answers `none`
when it would read outside the list.

* `CString.spn` — the length of the longest start whose bytes satisfy a predicate (`strspn`,
  `strcspn`);
* `CString.strtokR` — `strtok_r`, which writes into the object; `CString.strtokR_token` and
  `CString.strtokR_last` are its results on a token that a delimiter or the end of the string ends;
* `CString.atoi` — `atoi`, that is `strtol` converted to `int`; `CString.atoi_decimal` is its value
  on a decimal numeral;
* `CString.strncmpEq`, `CString.memchr` — `strncmp(..) == 0` and `memchr`.
-/

import Aesd.CInt
import Mathlib.Data.List.TakeWhile

set_option relaxedAutoImplicit false
set_option autoImplicit false

namespace CString

/-! ### Walks -/

/-- The length of the longest start of `mem` whose bytes satisfy `p`; `none` if the walk leaves the
object. -/
def spn (p : UInt8 → Bool) : List UInt8 → Option ℕ
  | [] => none
  | b :: mem => if p b then (spn p mem).map (· + 1) else some 0

theorem spn_append {p : UInt8 → Bool} {xs : List UInt8} {y : UInt8} (ys : List UInt8)
    (hxs : ∀ x ∈ xs, p x = true) (hy : p y = false) :
    spn p (xs ++ y :: ys) = some xs.length := by
  induction xs with
  | nil => simp [spn, hy]
  | cons x xs ih =>
      rw [List.cons_append, spn, if_pos (hxs x (by simp)), ih fun z hz => hxs z (by simp [hz])]
      rfl

/-- A walk that nothing ends leaves the object. -/
theorem spn_eq_none {p : UInt8 → Bool} {mem : List UInt8} (h : ∀ x ∈ mem, p x = true) :
    spn p mem = none := by
  induction mem with
  | nil => rfl
  | cons x mem ih => rw [spn, if_pos (h x (by simp)), ih fun y hy => h y (by simp [hy])]; rfl

/-- A walk that a byte of the object ends does not leave it. -/
theorem spn_isSome {p : UInt8 → Bool} {mem : List UInt8} {b : UInt8} (hb : b ∈ mem)
    (hp : p b = false) : ∃ n, spn p mem = some n ∧ n < mem.length := by
  induction mem with
  | nil => cases hb
  | cons x mem ih =>
      rw [spn]
      split
      · next hx =>
          obtain ⟨n, hn, hlt⟩ := ih ((List.mem_cons.1 hb).resolve_left fun hbx => by
            rw [hbx, hx] at hp
            cases hp)
          exact ⟨n + 1, by rw [hn]; rfl, by simpa using hlt⟩
      · exact ⟨0, rfl, by simp⟩

/-- A walk that ends does so at a byte of the object. -/
theorem spn_eq_some {p : UInt8 → Bool} {mem : List UInt8} {n : ℕ} (h : spn p mem = some n) :
    ∃ b, mem[n]? = some b ∧ p b = false := by
  induction mem generalizing n with
  | nil => cases h
  | cons x mem ih =>
      rw [spn] at h
      split at h
      · obtain ⟨m, hm, rfl⟩ := Option.map_eq_some_iff.1 h
        exact ih hm
      · next hx =>
          cases h
          exact ⟨x, rfl, by simpa using hx⟩

/-- The bytes a walk passes. -/
theorem spn_take {p : UInt8 → Bool} {mem : List UInt8} {n : ℕ} (h : spn p mem = some n) :
    ∀ x ∈ mem.take n, p x = true := by
  induction mem generalizing n with
  | nil => cases h
  | cons x mem ih =>
      rw [spn] at h
      split at h
      · next hx =>
          obtain ⟨m, hm, rfl⟩ := Option.map_eq_some_iff.1 h
          intro y hy
          rw [List.take_succ_cons, List.mem_cons] at hy
          rcases hy with rfl | hy
          · exact hx
          · exact ih hm y hy
      · cases h
        intro y hy
        cases hy

/-! ### Comparison and search -/

/-- `strncmp(a, b, n) == 0`, for objects of at least `n` bytes. -/
def strncmpEq : ℕ → List UInt8 → List UInt8 → Bool
  | 0, _, _ => true
  | n + 1, a :: as, b :: bs => if a = b then (if a = 0 then true else strncmpEq n as bs) else false
  | _ + 1, _, _ => false

/-- Against a string of `n` bytes that are not zero, the comparison is one of the first `n`
bytes. -/
theorem strncmpEq_iff {key mem : List UInt8} (hkey : (0 : UInt8) ∉ key) :
    strncmpEq key.length mem key = true ↔ key <+: mem := by
  induction key generalizing mem with
  | nil => simp [strncmpEq]
  | cons k key ih =>
      simp only [List.mem_cons, not_or] at hkey
      cases mem with
      | nil => simp [strncmpEq]
      | cons b mem =>
          rw [List.length_cons, strncmpEq, List.cons_prefix_cons]
          by_cases hb : b = k
          · subst hb
            rw [if_pos rfl, if_neg (Ne.symm hkey.1), ih hkey.2]
            simp
          · rw [if_neg hb]
            simp [Ne.symm hb]

/-- `memchr(mem, c, n)`: the index of the first `c` among the first `n` bytes. -/
def memchr (mem : List UInt8) (c : UInt8) (n : ℕ) : Option ℕ := (mem.take n).idxOf? c

theorem memchr_isSome {mem : List UInt8} {c : UInt8} {n : ℕ} :
    (memchr mem c n).isSome = true ↔ c ∈ mem.take n := by
  rw [memchr, List.isSome_idxOf?]

/-! ### Tokens -/

/-- `strtok_r(s, delim, &save)` on the string that starts at index `s` of the object: the start of
the token or `NULL`, the object with the token terminated, and the new saved pointer. -/
def strtokR (delim mem : List UInt8) (s : ℕ) : Option (Option ℕ × List UInt8 × ℕ) := do
  let first ← mem[s]?
  if first = 0 then some (none, mem, s)
  else
    let skipped ← spn (fun b => b ∈ delim) (mem.drop s)
    let head ← mem[s + skipped]?
    if head = 0 then some (none, mem, s + skipped)
    else
      let length ← spn (fun b => b ≠ 0 ∧ b ∉ delim) (mem.drop (s + skipped))
      let stop := s + skipped + length
      let last ← mem[stop]?
      if last = 0 then some (some (s + skipped), mem, stop)
      else some (some (s + skipped), mem.set stop 0, stop + 1)

/-- The bytes of a token. -/
def Token (delim tok : List UInt8) : Prop := tok ≠ [] ∧ ∀ b ∈ tok, b ≠ 0 ∧ b ∉ delim

instance (delim tok : List UInt8) : Decidable (Token delim tok) :=
  inferInstanceAs (Decidable (_ ∧ _))

/-- The first token of a string: delimiters are skipped, then the bytes up to the next delimiter or
the end of the string. -/
def token (delim mem : List UInt8) : List UInt8 :=
  (mem.dropWhile fun b => b ∈ delim).takeWhile fun b => b ≠ 0 ∧ b ∉ delim

/-- What is behind the first token of a string, the byte that ends it included; nothing, if the walk
along the token leaves the object. -/
def behind (delim mem : List UInt8) : List UInt8 :=
  (mem.dropWhile fun b => b ∈ delim).dropWhile fun b => b ≠ 0 ∧ b ∉ delim

section Strtok

variable {delim ds tok : List UInt8} {d : UInt8}

/-- Behind the delimiters, a string is its first token and what is behind it. -/
theorem token_append_behind (delim mem : List UInt8) :
    token delim mem ++ behind delim mem = mem.dropWhile fun b => b ∈ delim :=
  List.takeWhile_append_dropWhile

/-- The delimiters in front of a string, and the rest. -/
theorem exists_delimiters (delim mem : List UInt8) :
    ∃ ds, (∀ b ∈ ds, b ∈ delim) ∧ mem = ds ++ (token delim mem ++ behind delim mem) := by
  refine ⟨mem.takeWhile fun b => b ∈ delim, ?_, ?_⟩
  · intro b hb
    simpa using List.mem_takeWhile_imp hb
  · rw [token_append_behind, List.takeWhile_append_dropWhile]

/-- What is not a delimiter follows on the delimiters. -/
theorem head_dropWhile {mem rest : List UInt8}
    (h : (mem.dropWhile fun b => b ∈ delim) = d :: rest) : d ∉ delim := by
  have hnot := List.head?_dropWhile_not (fun b => decide (b ∈ delim)) mem
  rw [h] at hnot
  simpa using hnot

/-- The byte behind the first token ends it. -/
theorem head_behind {mem rest : List UInt8} (h : behind delim mem = d :: rest) :
    d = 0 ∨ d ∈ delim := by
  have hnot := List.head?_dropWhile_not (fun b => decide (b ≠ 0 ∧ b ∉ delim))
    (mem.dropWhile fun b => b ∈ delim)
  rw [show (mem.dropWhile fun b => decide (b ∈ delim)).dropWhile
    (fun b => decide (b ≠ 0 ∧ b ∉ delim)) = d :: rest from h] at hnot
  by_contra hne
  simp only [not_or] at hne
  simp [hne.1, hne.2] at hnot

/-- The first token, if there is one, is a token. -/
theorem token_token {mem : List UInt8} (h : token delim mem ≠ []) :
    Token delim (token delim mem) :=
  ⟨h, fun b hb => by simpa using List.mem_takeWhile_imp hb⟩

/-- The delimiter behind a token is skipped with the others. -/
theorem token_cons_of_mem (mem : List UInt8) (hd : d ∈ delim) :
    token delim (d :: mem) = token delim mem ∧ behind delim (d :: mem) = behind delim mem := by
  have hskip : (d :: mem).dropWhile (fun b => decide (b ∈ delim))
      = mem.dropWhile fun b => decide (b ∈ delim) :=
    List.dropWhile_cons_of_pos (by simpa using hd)
  exact ⟨by rw [token, token, hskip], by rw [behind, behind, hskip]⟩

/-- The first byte of a string that starts with delimiters and a token. -/
theorem strtokR_first (pre rest : List UInt8) (h₀ : (0 : UInt8) ∉ delim) (hds : ∀ b ∈ ds, b ∈ delim)
    (htok : Token delim tok) :
    ∃ first, (pre ++ (ds ++ (tok ++ rest)))[pre.length]? = some first ∧ first ≠ 0 := by
  obtain ⟨b, tok', hb⟩ := List.exists_cons_of_ne_nil htok.1
  rw [List.getElem?_append_right le_rfl, Nat.sub_self]
  cases ds with
  | nil => exact ⟨b, by rw [hb]; rfl, (htok.2 b (by rw [hb]; simp)).1⟩
  | cons x ds => exact ⟨x, rfl, fun hx => h₀ (hx ▸ hds x (by simp))⟩

/-- Where the first token starts. -/
theorem strtokR_head (pre rest : List UInt8) (hds : ∀ b ∈ ds, b ∈ delim) (htok : Token delim tok) :
    spn (fun b => b ∈ delim) ((pre ++ (ds ++ (tok ++ rest))).drop pre.length) = some ds.length ∧
    ∃ head, (pre ++ (ds ++ (tok ++ rest)))[pre.length + ds.length]? = some head ∧ head ≠ 0 := by
  obtain ⟨b, tok', hb⟩ := List.exists_cons_of_ne_nil htok.1
  have hbtok := htok.2 b (by rw [hb]; simp)
  constructor
  · rw [List.drop_left, hb]
    exact spn_append _ (fun x hx => by simpa using hds x hx) (by simpa using hbtok.2)
  · refine ⟨b, ?_, hbtok.1⟩
    rw [← List.append_assoc, ← List.length_append, List.getElem?_append_right le_rfl, Nat.sub_self,
      hb]
    rfl

/-- **The result of `strtok_r`** on a string of delimiters and a token that a delimiter or the end
of the string ends: the byte behind the token becomes a zero, and if it was none before, the next
string starts behind it. -/
theorem strtokR_eq (pre rest : List UInt8) (h₀ : (0 : UInt8) ∉ delim) (hds : ∀ b ∈ ds, b ∈ delim)
    (htok : Token delim tok) (hd : d = 0 ∨ d ∈ delim) :
    strtokR delim (pre ++ (ds ++ (tok ++ d :: rest))) pre.length
      = some (some (pre.length + ds.length), pre ++ (ds ++ (tok ++ 0 :: rest)),
          pre.length + ds.length + tok.length + if d = 0 then 0 else 1) := by
  obtain ⟨first, hfirst, hfirst₀⟩ := strtokR_first pre (d :: rest) h₀ hds htok
  obtain ⟨hskip, head, hhead, hhead₀⟩ := strtokR_head pre (d :: rest) hds htok
  have hlen : spn (fun b => b ≠ 0 ∧ b ∉ delim)
      ((pre ++ (ds ++ (tok ++ d :: rest))).drop (pre.length + ds.length)) = some tok.length := by
    rw [← List.append_assoc, ← List.length_append, List.drop_left]
    refine spn_append rest (fun x hx => by simpa using htok.2 x hx) ?_
    rcases hd with rfl | hd
    · simp
    · simp [hd]
  have hlast : (pre ++ (ds ++ (tok ++ d :: rest)))[pre.length + ds.length + tok.length]?
      = some d := by
    rw [← List.append_assoc, ← List.append_assoc, ← List.length_append, ← List.length_append,
      List.getElem?_append_right le_rfl, Nat.sub_self]
    rfl
  have hset : (pre ++ (ds ++ (tok ++ d :: rest))).set (pre.length + ds.length + tok.length) 0
      = pre ++ (ds ++ (tok ++ 0 :: rest)) := by
    rw [← List.append_assoc, ← List.append_assoc, ← List.length_append, ← List.length_append,
      List.set_append_right _ _ le_rfl, Nat.sub_self, List.set_cons_zero, List.append_assoc,
      List.append_assoc]
  simp only [strtokR, hfirst, hskip, hhead, hlen, hlast, hset, Option.bind_eq_bind,
    Option.bind_some, hfirst₀, hhead₀, if_false]
  by_cases hd₀ : d = 0
  · subst hd₀
    rfl
  · rw [if_neg hd₀, if_neg hd₀]

/-- **A token that a delimiter ends**: the delimiter is overwritten, and the next string starts
behind it. -/
theorem strtokR_token (pre rest : List UInt8) (h₀ : (0 : UInt8) ∉ delim) (htok : Token delim tok)
    (hd : d ∈ delim) :
    strtokR delim (pre ++ tok ++ d :: rest) pre.length
      = some (some pre.length, pre ++ tok ++ 0 :: rest, pre.length + tok.length + 1) := by
  have hd₀ : d ≠ 0 := fun hd₀ => h₀ (hd₀ ▸ hd)
  have h := strtokR_eq pre rest h₀ (fun b hb => absurd hb List.not_mem_nil) htok (Or.inr hd)
  rw [if_neg hd₀] at h
  rw [List.append_assoc, List.append_assoc]
  exact h

/-- **A token that the end of the string ends**: nothing is written. -/
theorem strtokR_last (pre rest : List UInt8) (h₀ : (0 : UInt8) ∉ delim) (htok : Token delim tok) :
    strtokR delim (pre ++ tok ++ 0 :: rest) pre.length
      = some (some pre.length, pre ++ tok ++ 0 :: rest, pre.length + tok.length) := by
  have h := strtokR_eq pre rest h₀ (fun b hb => absurd hb List.not_mem_nil) htok (Or.inl rfl)
  rw [List.append_assoc]
  exact h

/-- **There is no token**: the string ends behind the delimiters, or the walk along them leaves the
object. -/
theorem strtokR_none (pre : List UInt8) {mem : List UInt8} (h₀ : (0 : UInt8) ∉ delim)
    (h : token delim mem = []) (i : ℕ) (mem' : List UInt8) (save : ℕ) :
    strtokR delim (pre ++ mem) pre.length ≠ some (some i, mem', save) := by
  obtain ⟨ds, hds, hmem⟩ := exists_delimiters delim mem
  have hdrop := token_append_behind delim mem
  rw [h, List.nil_append] at hmem hdrop
  have hspn : ∀ x ∈ ds, decide (x ∈ delim) = true := fun x hx => by simpa using hds x hx
  intro hres
  cases hbehind : behind delim mem with
  | nil =>
      rw [hbehind, List.append_nil] at hmem
      rw [hmem] at hres
      simp only [strtokR, List.drop_left, spn_eq_none hspn] at hres
      cases hfirst : (pre ++ ds)[pre.length]? with
      | none => simp [hfirst] at hres
      | some first =>
          simp only [hfirst, Option.bind_eq_bind, Option.bind_some, Option.bind_none] at hres
          split at hres <;> cases hres
  | cons d rest =>
      rw [hbehind] at hmem hdrop
      have hd : d = 0 := (head_behind hbehind).resolve_right (head_dropWhile hdrop.symm)
      subst hd
      have hskip : spn (fun b => b ∈ delim) ((pre ++ mem).drop pre.length) = some ds.length := by
        rw [List.drop_left, hmem]
        exact spn_append _ hspn (by simpa using h₀)
      have hhead : (pre ++ mem)[pre.length + ds.length]? = some 0 := by
        rw [hmem, ← List.append_assoc, ← List.length_append, List.getElem?_append_right le_rfl,
          Nat.sub_self]
        rfl
      cases hfirst : (pre ++ mem)[pre.length]? with
      | none => simp [strtokR, hfirst] at hres
      | some first =>
          simp only [strtokR, hfirst, hskip, hhead, Option.bind_eq_bind, Option.bind_some, if_true]
            at hres
          split at hres <;> cases hres

/-- **Everything `strtok_r` can do**: it finds the first token, and goes on behind it; there is
none; or the walk along it leaves the object. -/
theorem strtokR_cases (pre mem : List UInt8) (h₀ : (0 : UInt8) ∉ delim) :
    (token delim mem ≠ [] ∧ behind delim mem ≠ [] ∧ ∃ i pre' mem' rest,
        strtokR delim (pre ++ mem) pre.length = some (some i, pre' ++ mem', pre'.length) ∧
        (pre' ++ mem').drop i = token delim mem ++ 0 :: rest ∧
        token delim mem' = token delim (behind delim mem) ∧
        behind delim mem' = behind delim (behind delim mem)) ∨
    (token delim mem = [] ∧ ∀ i mem' save,
        strtokR delim (pre ++ mem) pre.length ≠ some (some i, mem', save)) ∨
    (behind delim mem = [] ∧ strtokR delim (pre ++ mem) pre.length = none) := by
  by_cases htok : token delim mem = []
  · exact Or.inr (Or.inl ⟨htok, strtokR_none pre h₀ htok⟩)
  · obtain ⟨ds, hds, hmem⟩ := exists_delimiters delim mem
    have htoken := token_token htok
    cases hbehind : behind delim mem with
    | nil =>
        -- nothing ends the token
        refine Or.inr (Or.inr ⟨rfl, ?_⟩)
        rw [hbehind] at hmem
        obtain ⟨first, hfirst, hfirst₀⟩ := strtokR_first pre [] h₀ hds htoken
        obtain ⟨hskip, head, hhead, hhead₀⟩ := strtokR_head pre [] hds htoken
        rw [← hmem] at hfirst hskip hhead
        have hlen : spn (fun b => b ≠ 0 ∧ b ∉ delim) ((pre ++ mem).drop (pre.length + ds.length))
            = none := by
          rw [hmem, ← List.append_assoc, ← List.length_append, List.drop_left, List.append_nil]
          exact spn_eq_none fun x hx => by simpa using htoken.2 x hx
        simp only [strtokR, hfirst, hskip, hhead, hlen, Option.bind_eq_bind, Option.bind_some,
          hfirst₀, hhead₀, if_false, Option.bind_none]
    | cons d rest =>
        rw [hbehind] at hmem
        have hd := head_behind hbehind
        have heq := strtokR_eq pre rest h₀ hds htoken hd
        rw [← hmem] at heq
        refine Or.inl ⟨htok, by simp, pre.length + ds.length, ?_⟩
        have hdrop : (pre ++ (ds ++ (token delim mem ++ 0 :: rest))).drop (pre.length + ds.length)
            = token delim mem ++ 0 :: rest := by
          rw [← List.append_assoc, ← List.length_append, List.drop_left]
        by_cases hd₀ : d = 0
        · subst hd₀
          refine ⟨pre ++ (ds ++ token delim mem), 0 :: rest, rest, ?_, ?_, rfl, rfl⟩
          · rw [heq]
            simp [Nat.add_assoc]
          · rw [← hdrop]
            simp
        · obtain ⟨htok', hbehind'⟩ := token_cons_of_mem rest (hd.resolve_left hd₀)
          refine ⟨pre ++ (ds ++ (token delim mem ++ [0])), rest, rest, ?_, ?_, htok'.symm,
            hbehind'.symm⟩
          · rw [heq, if_neg hd₀]
            simp [Nat.add_assoc]
          · rw [← hdrop]
            simp

/-- Of all bytes but zero, `strtok_r` overwrites the delimiters only. -/
theorem strtokR_getElem? {mem mem' : List UInt8} {s save : ℕ} {r : Option ℕ} {c : UInt8}
    (h : strtokR delim mem s = some (r, mem', save)) (hc : c ≠ 0) (hdelim : c ∉ delim) (i : ℕ) :
    mem'[i]? = some c ↔ mem[i]? = some c := by
  obtain ⟨first, -, h⟩ := Option.bind_eq_some_iff.1 h
  split at h
  · cases h
    rfl
  obtain ⟨skipped, -, h⟩ := Option.bind_eq_some_iff.1 h
  obtain ⟨head, -, h⟩ := Option.bind_eq_some_iff.1 h
  split at h
  · cases h
    rfl
  obtain ⟨length, hlength, h⟩ := Option.bind_eq_some_iff.1 h
  obtain ⟨last, hlast, h⟩ := Option.bind_eq_some_iff.1 h
  split at h
  · cases h
    rfl
  next hlast₀ =>
    cases h
    -- the byte that is overwritten ended the token
    obtain ⟨b, hb, hends⟩ := spn_eq_some hlength
    rw [List.getElem?_drop] at hb
    obtain rfl : last = b := Option.some.inj (hlast.symm.trans hb)
    have hmem : last ∈ delim := by simpa [hlast₀] using hends
    rw [List.getElem?_set]
    split
    · next heq =>
        subst heq
        rw [hlast]
        constructor
        · intro hzero
          split at hzero
          · exact absurd (Option.some.inj hzero).symm hc
          · cases hzero
        · intro hlast'
          exact absurd (Option.some.inj hlast' ▸ hmem) hdelim
    · rfl

/-- The zero that ends a string is behind its first token. -/
theorem zero_mem_behind {mem : List UInt8} (h₀ : (0 : UInt8) ∉ delim) (h : (0 : UInt8) ∈ mem) :
    (0 : UInt8) ∈ behind delim mem := by
  obtain ⟨ds, hds, hmem⟩ := exists_delimiters delim mem
  rw [hmem, List.mem_append, List.mem_append] at h
  rcases h with h | h | h
  · exact absurd (hds 0 h) h₀
  · have hzero := List.mem_takeWhile_imp h
    simp at hzero
  · exact h

end Strtok

/-! ### Numerals -/

/-- `isspace` in the C locale. -/
def isSpace (b : UInt8) : Bool := b = 32 ∨ (9 ≤ b ∧ b ≤ 13)

/-- `isdigit`. -/
def isDigit (b : UInt8) : Bool := 48 ≤ b ∧ b ≤ 57

/-- The value of a numeral. -/
def numeral (digits : List UInt8) : ℕ := digits.foldl (fun v b => 10 * v + (b.toNat - 48)) 0

/-- `strtol(s, NULL, 10)` on the string that the list starts with: leading blanks and one sign are
skipped, the longest numeral is read, and a value outside `long` is replaced by the nearest one. -/
def strtol (mem : List UInt8) : Option ℤ := do
  let blanks ← spn isSpace mem
  let sign ← mem[blanks]?
  let start := if sign = 43 ∨ sign = 45 then blanks + 1 else blanks
  let length ← spn isDigit (mem.drop start)
  let value : ℤ := numeral ((mem.drop start).take length)
  if sign = 45 then some (max (-value) (-2 ^ 63)) else some (min value (2 ^ 63 - 1))

/-- `atoi`. -/
def atoi (mem : List UInt8) : Option ℤ := (strtol mem).map (CInt.signed 32)

/-- On a string that ends inside the object, `atoi` does not leave it. -/
theorem atoi_terminated (mem : List UInt8) (h : (0 : UInt8) ∈ mem) : ∃ x, atoi mem = some x := by
  obtain ⟨blanks, hblanks, -⟩ := spn_isSome (p := isSpace) h (by decide)
  obtain ⟨sign, hsign, hspace⟩ := spn_eq_some hblanks
  obtain ⟨hlt, hget⟩ := List.getElem?_eq_some_iff.1 hsign
  -- the zero is not among the blanks, and not the sign
  have hzero : (0 : UInt8) ∈ mem.drop (if sign = 43 ∨ sign = 45 then blanks + 1 else blanks) := by
    have htake := spn_take hblanks
    have hdrop : (0 : UInt8) ∈ mem.drop blanks := by
      rw [← List.take_append_drop blanks mem, List.mem_append] at h
      refine h.resolve_left ?_
      intro hmem
      have := htake 0 hmem
      revert this
      decide
    split
    · next hpm =>
        rw [List.drop_eq_getElem_cons hlt, hget, List.mem_cons] at hdrop
        refine hdrop.resolve_left ?_
        intro hs
        rw [← hs] at hpm
        revert hpm
        decide
    · exact hdrop
  obtain ⟨length, hlength, -⟩ := spn_isSome (p := isDigit) hzero (by decide)
  simp only [atoi, strtol, hblanks, hsign, hlength, Option.bind_eq_bind, Option.bind_some]
  split
  · exact ⟨_, rfl⟩
  · exact ⟨_, rfl⟩

/-- The decimal numeral of a number. -/
def decimal (n : ℕ) : List UInt8 := (Nat.toDigits 10 n).map fun c => c.toNat.toUInt8

/-- The bytes of a decimal numeral are those of its digits. -/
theorem toNat_digit {n : ℕ} {c : Char} (hc : c ∈ Nat.toDigits 10 n) :
    48 ≤ c.toNat ∧ c.toNat ≤ 57 ∧ c.toNat.toUInt8.toNat = c.toNat := by
  have hdigit := Nat.isDigit_of_mem_toDigits (by decide) (by decide) hc
  simp only [Char.isDigit, Bool.and_eq_true, decide_eq_true_eq, ge_iff_le, UInt32.le_iff_toNat_le]
    at hdigit
  have h₀ : 48 ≤ c.toNat := hdigit.1
  have h₁ : c.toNat ≤ 57 := hdigit.2
  refine ⟨h₀, h₁, ?_⟩
  simp only [Nat.toUInt8_eq, UInt8.toNat_ofNat']
  omega

theorem isDigit_of_mem_decimal {n : ℕ} {b : UInt8} (hb : b ∈ decimal n) : isDigit b = true := by
  obtain ⟨c, hc, rfl⟩ := List.mem_map.1 hb
  obtain ⟨h₀, h₁, h₂⟩ := toNat_digit hc
  simp only [isDigit, decide_eq_true_eq, UInt8.le_iff_toNat_le, h₂]
  exact ⟨h₀, h₁⟩

theorem decimal_ne_nil (n : ℕ) : decimal n ≠ [] := by
  rw [decimal, ne_eq, List.map_eq_nil_iff]
  exact Nat.toDigits_ne_nil

theorem length_decimal_le {n k : ℕ} (hk : 0 < k) (hn : n < 10 ^ k) : (decimal n).length ≤ k := by
  rw [decimal, List.length_map]
  exact (Nat.length_toDigits_le_iff (by decide) hk).2 hn

theorem numeral_decimal (n : ℕ) : numeral (decimal n) = n := by
  have hfold : ∀ (cs : List Char) (v : ℕ), (∀ c ∈ cs, c.toNat.toUInt8.toNat = c.toNat) →
      (cs.map fun c => c.toNat.toUInt8).foldl (fun v b => 10 * v + (b.toNat - 48)) v
        = Nat.ofDigitChars 10 cs v := by
    intro cs
    induction cs with
    | nil => intro v _; rfl
    | cons c cs ih =>
        intro v hcs
        rw [List.map_cons, List.foldl_cons, hcs c (by simp), Nat.ofDigitChars_cons]
        exact ih _ fun d hd => hcs d (by simp [hd])
  rw [numeral, decimal, hfold _ _ fun c hc => (toNat_digit hc).2.2, Nat.ofDigitChars_ten_toDigits]

/-- A digit is neither a blank nor a sign. -/
theorem isDigit_ne {b : UInt8} (hb : isDigit b = true) :
    isSpace b = false ∧ b ≠ 43 ∧ b ≠ 45 ∧ b ≠ 0 := by
  simp only [isDigit, decide_eq_true_eq, UInt8.le_iff_toNat_le] at hb
  have h48 : (48 : UInt8).toNat = 48 := rfl
  refine ⟨?_, ?_, ?_, ?_⟩
  · simp only [isSpace, decide_eq_false_iff_not, not_or, not_and, not_le, UInt8.le_iff_toNat_le]
    refine ⟨?_, ?_⟩
    · rintro rfl
      exact absurd hb.1 (by decide)
    · intro _
      have : (13 : UInt8).toNat = 13 := rfl
      omega
  · rintro rfl
    exact absurd hb.1 (by decide)
  · rintro rfl
    exact absurd hb.1 (by decide)
  · rintro rfl
    exact absurd hb.1 (by decide)

/-- **The value of a decimal numeral**, read up to a byte that is no digit. -/
theorem atoi_decimal {n : ℕ} {d : UInt8} (rest : List UInt8) (hn : n < 2 ^ 63)
    (hd : isDigit d = false) : atoi (decimal n ++ d :: rest) = some (CInt.signed 32 n) := by
  have hlen : spn isDigit (decimal n ++ d :: rest) = some (decimal n).length :=
    spn_append rest (fun b hb => isDigit_of_mem_decimal hb) hd
  have htake : (decimal n ++ d :: rest).take (decimal n).length = decimal n := List.take_left
  have hvalue := numeral_decimal n
  obtain ⟨b, bs, hb⟩ := List.exists_cons_of_ne_nil (decimal_ne_nil n)
  have hdigit : isDigit b = true := isDigit_of_mem_decimal (by rw [hb]; simp)
  obtain ⟨hspace, hplus, hminus, -⟩ := isDigit_ne hdigit
  have hblanks : spn isSpace (decimal n ++ d :: rest) = some 0 := by
    rw [hb, List.cons_append, spn, if_neg (by rw [hspace]; decide)]
  have hsign : (decimal n ++ d :: rest)[0]? = some b := by rw [hb]; rfl
  have hmin : min (n : ℤ) (2 ^ 63 - 1) = n := min_eq_left (by omega)
  simp only [atoi, strtol, hblanks, hsign, Option.bind_eq_bind, Option.bind_some, hplus, hminus,
    or_self, if_false, List.drop_zero, hlen, htake, hvalue, hmin, Option.map_some]

end CString
