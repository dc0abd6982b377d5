/-
**Logs of terminated commands, of bounded length.**

A component that receives a stream in pieces of arbitrary length and stores it command by command,
where a command ends with a terminator, has an abstract state of two parts: the pending bytes, and
the last `n` commands.  A piece is appended to the pending bytes; if what results ends with the
terminator it becomes a command.  Only the last byte is looked at, so a terminator inside a piece
does not end a command, and what is stored depends in general on how the stream was cut.

This module has the abstract state and the one condition under which the cut does not matter: that
a terminator occurs in a piece only as its last byte.  Then the log is a function of the bytes
alone — the lines of the history, of which the last `n` are kept.

Main definitions:

* `TermLog`, `TermLog.push`, `TermLog.feed`, `TermLog.feeds` — the abstract state and its steps;
* `TermLog.Good` — commands end with the terminator, the pending bytes do not;
* `TermLog.history` — the complete lines of a byte history, and its incomplete last line;
* `TermLog.records` — the log that keeps every command.

Main results:

* `TermLog.Good.feed` — a step keeps the discipline;
* `TermLog.feeds_pieces` — a stream whose only terminator is its last byte may be cut anywhere;
* `TermLog.feeds_eq_history` — with terminators at piece ends only, the log is the last `n` lines;
* `TermLog.feed_keep_record` — in any case it is the last `n` commands of all.
-/

import Mathlib.Data.List.DropRight

set_option relaxedAutoImplicit false
set_option autoImplicit false

/-- The bytes of a command that is not complete yet, and the commands kept, oldest first. -/
structure TermLog (α : Type) where
  /-- The bytes of the command that is not complete yet. -/
  pending : List α
  /-- The commands kept, oldest first. -/
  entries : List (List α)
  deriving DecidableEq

namespace TermLog

variable {α : Type}

/-! ### Keeping the last commands -/

section Push

variable {β : Type}

/-- Appending a command, and dropping the oldest one when there would be more than `n`. -/
def push (n : ℕ) (L : List β) (c : β) : List β :=
  if n < (L ++ [c]).length then (L ++ [c]).tail else L ++ [c]

theorem push_of_lt {n : ℕ} {L : List β} (c : β) (h : L.length < n) :
    push n L c = L ++ [c] := by
  rw [push, if_neg (by simp; omega)]

theorem push_of_eq {n : ℕ} {L : List β} (c : β) (hn : 0 < n) (h : L.length = n) :
    push n L c = L.tail ++ [c] := by
  have hL : L ≠ [] := by rintro rfl; simp at h; omega
  rw [push, if_pos (by simp; omega), List.tail_append_of_ne_nil hL]

theorem length_push_le {n : ℕ} {L : List β} (c : β) (h : L.length ≤ n) :
    (push n L c).length ≤ n := by
  rw [push]
  split
  · simp; omega
  · omega

/-- The newest command is always kept. -/
theorem push_eq_append {n : ℕ} (L : List β) (c : β) (hn : 0 < n) :
    ∃ K, push n L c = K ++ [c] ∧ ∀ d ∈ K, d ∈ L := by
  rw [push]
  split
  · cases L with
    | nil => simp at *; omega
    | cons d L => exact ⟨L, rfl, fun _ h => List.mem_cons_of_mem _ h⟩
  · exact ⟨L, rfl, fun _ h => h⟩

theorem mem_push {n : ℕ} {L : List β} {c d : β} (h : d ∈ push n L c) :
    d ∈ L ∨ d = c := by
  rw [push] at h
  split at h
  · simpa using List.mem_of_mem_tail h
  · simpa using h

/-- Pushing a command adds its bytes at most. -/
theorem length_flatten_push_le {α : Type} {n : ℕ} (L : List (List α)) (c : List α) :
    (push n L c).flatten.length ≤ L.flatten.length + c.length := by
  have hall : (L ++ [c]).flatten.length = L.flatten.length + c.length := by simp
  rw [push, ← hall]
  split
  · cases L with
    | nil => simp
    | cons l L => simp
  · exact le_rfl

theorem push_map {γ : Type} (f : β → γ) (n : ℕ) (L : List β) (c : β) :
    push n (L.map f) (f c) = (push n L c).map f := by
  rw [push, push, ← List.map_singleton, ← List.map_append, List.length_map]
  split
  · rw [List.map_tail]
  · rfl

/-- Keeping the last `n` and pushing is pushing and keeping the last `n`. -/
theorem push_rtake {n : ℕ} (L : List β) (c : β) (hn : 0 < n) :
    push n (L.rtake n) c = (L ++ [c]).rtake n := by
  rcases Nat.lt_or_ge L.length n with h | h
  · have hL : L.rtake n = L := by rw [List.rtake, show L.length - n = 0 by omega, List.drop_zero]
    rw [hL, push_of_lt c h, List.rtake, show (L ++ [c]).length - n = 0 by simp; omega,
      List.drop_zero]
  · have hlen : (L.rtake n).length = n := by rw [List.rtake, List.length_drop]; omega
    rw [push_of_eq c hn hlen, List.rtake, List.tail_drop, List.rtake,
      List.drop_append_of_le_length (by simp; omega), List.length_append,
      show L.length + [c].length - n = L.length - n + 1 by simp; omega]

end Push

/-! ### Feeding pieces -/

variable [DecidableEq α]

/-- The log with nothing in it. -/
def empty : TermLog α := ⟨[], []⟩

/-- **One piece**: it is appended to the pending bytes, which become a command if they then end
with the terminator `t`. -/
def feed (n : ℕ) (t : α) (s : TermLog α) (d : List α) : TermLog α :=
  if (s.pending ++ d).getLast? = some t then ⟨[], push n s.entries (s.pending ++ d)⟩
  else ⟨s.pending ++ d, s.entries⟩

/-- A sequence of pieces. -/
def feeds (n : ℕ) (t : α) (s : TermLog α) (ds : List (List α)) : TermLog α :=
  ds.foldl (feed n t) s

@[simp] theorem feeds_nil (n : ℕ) (t : α) (s : TermLog α) : feeds n t s [] = s := rfl

@[simp] theorem feeds_cons (n : ℕ) (t : α) (s : TermLog α) (d : List α) (ds : List (List α)) :
    feeds n t s (d :: ds) = feeds n t (feed n t s d) ds := rfl

theorem feeds_append (n : ℕ) (t : α) (s : TermLog α) (ds es : List (List α)) :
    feeds n t s (ds ++ es) = feeds n t (feeds n t s ds) es := List.foldl_append ..

theorem feed_of_eq {n : ℕ} {t : α} {s : TermLog α} {d : List α}
    (h : (s.pending ++ d).getLast? = some t) :
    feed n t s d = ⟨[], push n s.entries (s.pending ++ d)⟩ := if_pos h

theorem feed_of_ne {n : ℕ} {t : α} {s : TermLog α} {d : List α}
    (h : (s.pending ++ d).getLast? ≠ some t) : feed n t s d = ⟨s.pending ++ d, s.entries⟩ :=
  if_neg h

/-- A piece adds its bytes to the log at most, and to the pending command at most. -/
theorem length_feed_le (n : ℕ) (t : α) (s : TermLog α) (d : List α) :
    (feed n t s d).pending.length ≤ s.pending.length + d.length ∧
      (feed n t s d).entries.flatten.length + (feed n t s d).pending.length
        ≤ s.entries.flatten.length + s.pending.length + d.length := by
  by_cases hlast : (s.pending ++ d).getLast? = some t
  · have hle := length_flatten_push_le (n := n) s.entries (s.pending ++ d)
    rw [feed_of_eq hlast]
    simp only [List.length_append, List.length_nil] at hle ⊢
    omega
  · rw [feed_of_ne hlast]
    simp only [List.length_append]
    omega

/-- A piece without terminator stays pending. -/
theorem feed_of_notMem {n : ℕ} {t : α} {s : TermLog α} {d : List α} (hd : d ≠ [])
    (ht : t ∉ d) : feed n t s d = ⟨s.pending ++ d, s.entries⟩ := by
  refine feed_of_ne fun h => ht ?_
  rw [List.getLast?_append_of_ne_nil _ hd] at h
  exact List.mem_of_getLast? h

/-- And so do any number of them. -/
theorem feeds_of_notMem {n : ℕ} {t : α} {s : TermLog α} {ds : List (List α)}
    (hne : ∀ d ∈ ds, d ≠ []) (ht : t ∉ ds.flatten) :
    feeds n t s ds = ⟨s.pending ++ ds.flatten, s.entries⟩ := by
  induction ds generalizing s with
  | nil => simp
  | cons d ds ih =>
      rw [List.flatten_cons, List.mem_append, not_or] at ht
      rw [feeds_cons, feed_of_notMem (hne d (List.mem_cons_self ..)) ht.1,
        ih (fun e he => hne e (List.mem_cons_of_mem _ he)) ht.2, List.flatten_cons,
        List.append_assoc]

/-- A piece that ends with the terminator completes a command. -/
theorem feed_concat (n : ℕ) (t : α) (s : TermLog α) (d : List α) :
    feed n t s (d ++ [t]) = ⟨[], push n s.entries (s.pending ++ (d ++ [t]))⟩ :=
  feed_of_eq (by simp [← List.append_assoc])

/-- The command that a terminator completes is the newest one. -/
theorem feed_concat_entries {n : ℕ} (hn : 0 < n) (t : α) (s : TermLog α) (d : List α) :
    ∃ K, (feed n t s (d ++ [t])).entries = K ++ [s.pending ++ (d ++ [t])] := by
  obtain ⟨K, hK, -⟩ := push_eq_append s.entries (s.pending ++ (d ++ [t])) hn
  exact ⟨K, by rw [feed_concat, hK]⟩

/-- What follows a terminator in the same piece makes a difference. -/
theorem feed_terminator_ne {n : ℕ} (hn : 0 < n) (t : α) (s : TermLog α) (d : List α) (b : α) :
    feed n t s (d ++ [t]) ≠ feed n t s (d ++ [t, b]) := by
  intro heq
  by_cases hb : b = t
  · -- both complete a command, of different lengths
    subst hb
    obtain ⟨K, hK⟩ := feed_concat_entries hn b s d
    obtain ⟨K', hK'⟩ := feed_concat_entries hn b s (d ++ [b])
    rw [heq, show d ++ [b, b] = d ++ [b] ++ [b] by simp, hK'] at hK
    have hlast := (List.append_inj' hK rfl).2
    simpa using congrArg (fun c => c.map List.length) hlast
  · -- only the first does
    have hpending : (feed n t s (d ++ [t, b])).pending = s.pending ++ (d ++ [t, b]) := by
      rw [feed_of_ne]
      simp [← List.append_assoc, List.getLast?_cons_cons, hb]
    rw [← heq, feed_concat] at hpending
    simp at hpending

/-- Every byte of a log was fed to it. -/
theorem mem_feed {n : ℕ} {t : α} {s : TermLog α} {d : List α} {b : α}
    (h : b ∈ (s.feed n t d).pending ∨ ∃ c ∈ (s.feed n t d).entries, b ∈ c) :
    b ∈ d ∨ b ∈ s.pending ∨ ∃ c ∈ s.entries, b ∈ c := by
  by_cases hlast : (s.pending ++ d).getLast? = some t
  · rw [feed_of_eq hlast] at h
    obtain ⟨c, hc, hb⟩ := h.resolve_left List.not_mem_nil
    rcases mem_push hc with hc | rfl
    · exact Or.inr (Or.inr ⟨c, hc, hb⟩)
    · rcases List.mem_append.1 hb with hb | hb
      · exact Or.inr (Or.inl hb)
      · exact Or.inl hb
  · rw [feed_of_ne hlast] at h
    rcases h with hb | hc
    · rcases List.mem_append.1 hb with hb | hb
      · exact Or.inr (Or.inl hb)
      · exact Or.inl hb
    · exact Or.inr (Or.inr hc)

theorem mem_feeds {n : ℕ} {t : α} {s : TermLog α} {ds : List (List α)} {b : α}
    (h : b ∈ (s.feeds n t ds).pending ∨ ∃ c ∈ (s.feeds n t ds).entries, b ∈ c) :
    (∃ d ∈ ds, b ∈ d) ∨ b ∈ s.pending ∨ ∃ c ∈ s.entries, b ∈ c := by
  induction ds generalizing s with
  | nil => exact Or.inr h
  | cons d ds ih =>
      rcases ih h with ⟨e, he, hb⟩ | hs
      · exact Or.inl ⟨e, List.mem_cons_of_mem _ he, hb⟩
      · rcases mem_feed hs with hb | hs
        · exact Or.inl ⟨d, List.mem_cons_self .., hb⟩
        · exact Or.inr hs

/-! ### The discipline of the terminator -/

/-- At most `n` commands, all of which end with the terminator; the pending bytes do not. -/
structure Good (n : ℕ) (t : α) (s : TermLog α) : Prop where
  /-- Every command ends with the terminator; in particular it is not empty. -/
  ends : ∀ c ∈ s.entries, c.getLast? = some t
  /-- The pending bytes do not end with the terminator. -/
  pending : s.pending.getLast? ≠ some t
  /-- At most `n` commands are kept. -/
  bounded : s.entries.length ≤ n

omit [DecidableEq α] in
theorem Good.empty (n : ℕ) (t : α) : Good n t (empty : TermLog α) where
  ends := by simp [TermLog.empty]
  pending := by simp [TermLog.empty]
  bounded := by simp [TermLog.empty]

/-- **A step keeps the discipline.** -/
theorem Good.feed {n : ℕ} {t : α} {s : TermLog α} (h : Good n t s) (d : List α) :
    Good n t (s.feed n t d) := by
  by_cases hlast : (s.pending ++ d).getLast? = some t
  · rw [feed_of_eq hlast]
    refine ⟨?_, by simp, length_push_le _ h.bounded⟩
    intro c hc
    rcases mem_push hc with hc | rfl
    · exact h.ends c hc
    · exact hlast
  · rw [feed_of_ne hlast]
    exact ⟨h.ends, hlast, h.bounded⟩

/-- Feeding nothing changes nothing. -/
theorem Good.feed_nil {n : ℕ} {t : α} {s : TermLog α} (h : Good n t s) : s.feed n t [] = s := by
  rw [feed_of_ne (by rw [List.append_nil]; exact h.pending), List.append_nil]

theorem Good.feeds {n : ℕ} {t : α} {s : TermLog α} (h : Good n t s) (ds : List (List α)) :
    Good n t (s.feeds n t ds) := by
  induction ds generalizing s with
  | nil => exact h
  | cons d ds ih => exact ih (h.feed d)

/-! ### When the cut does not matter -/

/-- A non-empty piece with a terminator at most at its end. -/
def Piece (t : α) (d : List α) : Prop := d ≠ [] ∧ t ∉ d.dropLast

instance (t : α) (d : List α) : Decidable (Piece t d) :=
  inferInstanceAs (Decidable (_ ∧ _))

omit [DecidableEq α] in
/-- The bytes of a piece before the last one hold no terminator. -/
theorem Piece.cons_of_ne_nil {t : α} {d e : List α} (h : Piece t (d ++ e)) (he : e ≠ []) :
    t ∉ d ∧ Piece t e := by
  have hmem : t ∉ d ++ e.dropLast := by simpa [List.dropLast_append_of_ne_nil he] using h.2
  simp only [List.mem_append, not_or] at hmem
  exact ⟨hmem.1, he, hmem.2⟩

/-- **A stream whose only terminator is its last byte may be cut anywhere.** -/
theorem feeds_pieces {n : ℕ} {t : α} {ds : List (List α)} (hne : ∀ d ∈ ds, d ≠ [])
    (hd : Piece t ds.flatten) (s : TermLog α) : feeds n t s ds = feed n t s ds.flatten := by
  induction ds generalizing s with
  | nil => exact absurd rfl hd.1
  | cons d ds ih =>
      have hd₀ : d ≠ [] := hne d (by simp)
      rw [feeds_cons, List.flatten_cons]
      rcases List.eq_nil_or_concat ds with rfl | ⟨ds', e, rfl⟩
      · simp
      · have he : e ≠ [] := hne e (by simp)
        have hne' : (ds' ++ [e]).flatten ≠ [] := by simp [he]
        rw [List.concat_eq_append] at *
        obtain ⟨ht, hrest⟩ := Piece.cons_of_ne_nil hd hne'
        rw [ih (fun x hx => hne x (List.mem_cons_of_mem _ hx)) hrest, feed_of_notMem hd₀ ht,
          TermLog.feed, TermLog.feed, List.append_assoc]

/-- Two ways to cut such a stream leave the same log. -/
theorem feeds_congr {n : ℕ} {t : α} {ds es : List (List α)} (hds : ∀ d ∈ ds, d ≠ [])
    (hes : ∀ e ∈ es, e ≠ []) (heq : ds.flatten = es.flatten) (ht : t ∉ ds.flatten.dropLast)
    (s : TermLog α) : feeds n t s ds = feeds n t s es := by
  by_cases hnil : ds.flatten = []
  · -- nothing was fed
    have hempty : ∀ xs : List (List α), (∀ x ∈ xs, x ≠ []) → xs.flatten = [] → xs = [] := by
      intro xs hxs hflat
      cases xs with
      | nil => rfl
      | cons x xs => exact absurd (List.append_eq_nil_iff.1 hflat).1 (hxs x (by simp))
    rw [hempty ds hds hnil, hempty es hes (heq ▸ hnil)]
  · rw [feeds_pieces hds ⟨hnil, ht⟩, feeds_pieces hes ⟨heq ▸ hnil, heq ▸ ht⟩, heq]

/-! ### The lines of a history -/

/-- One more byte of a history of which everything is kept. -/
def put (t : α) (s : TermLog α) (b : α) : TermLog α :=
  if b = t then ⟨[], s.entries ++ [s.pending ++ [b]]⟩ else ⟨s.pending ++ [b], s.entries⟩

/-- **The lines of a byte history**: all complete ones, and the incomplete last one. -/
def history (t : α) (h : List α) : TermLog α := h.foldl (put t) empty

/-- The log that keeps the last `n` commands of a log. -/
def keep (n : ℕ) (s : TermLog α) : TermLog α := ⟨s.pending, s.entries.rtake n⟩

theorem foldl_put_of_notMem {t : α} {d : List α} (ht : t ∉ d) (s : TermLog α) :
    d.foldl (put t) s = ⟨s.pending ++ d, s.entries⟩ := by
  induction d generalizing s with
  | nil => simp
  | cons b d ih =>
      simp only [List.mem_cons, not_or] at ht
      rw [List.foldl_cons, ih ht.2, put, if_neg (Ne.symm ht.1)]
      simp

/-- The incomplete last line of a history has no terminator. -/
theorem notMem_pending_history (t : α) (h : List α) : t ∉ (history t h).pending := by
  have key : ∀ s : TermLog α, t ∉ s.pending → t ∉ (h.foldl (put t) s).pending := by
    induction h with
    | nil => exact fun s hs => hs
    | cons b h ih =>
        intro s hs
        refine ih _ ?_
        unfold put
        split
        · exact List.not_mem_nil
        · next hb =>
            rw [List.mem_append, List.mem_singleton, not_or]
            exact ⟨hs, Ne.symm hb⟩
  exact key empty List.not_mem_nil

/-- A piece moves the log as its bytes, one by one, move the history. -/
theorem feed_keep {n : ℕ} {t : α} {d : List α} (hn : 0 < n) (hd : Piece t d) (s : TermLog α) :
    feed n t (s.keep n) d = (d.foldl (put t) s).keep n := by
  obtain ⟨d', b, rfl⟩ : ∃ d' b, d = d' ++ [b] :=
    ⟨d.dropLast, d.getLast hd.1, (List.dropLast_append_getLast hd.1).symm⟩
  have ht : t ∉ d' := by simpa using hd.2
  rw [List.foldl_append, foldl_put_of_notMem ht, List.foldl_cons, List.foldl_nil, put]
  by_cases hb : b = t
  · subst hb
    rw [feed_concat, if_pos rfl, keep, keep, push_rtake _ _ hn, List.append_assoc]
  · rw [feed_of_ne (by simp [← List.append_assoc, hb]), if_neg hb, keep, keep, List.append_assoc]

/-- **With terminators at piece ends only, the log is the last `n` lines of the history.** -/
theorem feeds_eq_history {n : ℕ} {t : α} {ds : List (List α)} (hn : 0 < n)
    (hds : ∀ d ∈ ds, Piece t d) : feeds n t empty ds = (history t ds.flatten).keep n := by
  have key : ∀ s : TermLog α, feeds n t (s.keep n) ds = (ds.flatten.foldl (put t) s).keep n := by
    induction ds with
    | nil => intro s; rfl
    | cons d ds ih =>
        intro s
        rw [feeds_cons, feed_keep hn (hds d (by simp)), List.flatten_cons, List.foldl_append]
        exact ih (fun e he => hds e (List.mem_cons_of_mem _ he)) _
  have hempty : (empty : TermLog α).keep n = empty := by simp [keep, empty]
  have := key empty
  rwa [hempty] at this

/-! ### Keeping every command -/

/-- One piece, with every command kept. -/
def record (t : α) (s : TermLog α) (d : List α) : TermLog α :=
  if (s.pending ++ d).getLast? = some t then ⟨[], s.entries ++ [s.pending ++ d]⟩
  else ⟨s.pending ++ d, s.entries⟩

/-- **Every command that a sequence of pieces completes**, and the bytes of the one it does not. -/
def records (t : α) (ds : List (List α)) : TermLog α := ds.foldl (record t) empty

theorem records_snoc (t : α) (ds : List (List α)) (d : List α) :
    records t (ds ++ [d]) = (records t ds).record t d := by
  rw [records, records, List.foldl_append, List.foldl_cons, List.foldl_nil]

/-- Keeping the last `n` commands after each piece is keeping them at the end. -/
theorem feed_keep_record {n : ℕ} (hn : 0 < n) (t : α) (s : TermLog α) (d : List α) :
    feed n t (s.keep n) d = (s.record t d).keep n := by
  by_cases hlast : (s.pending ++ d).getLast? = some t
  · have hkeep : ((s.keep n).pending ++ d).getLast? = some t := hlast
    rw [feed_of_eq hkeep, record, if_pos hlast, keep, keep, push_rtake _ _ hn]
  · have hkeep : ((s.keep n).pending ++ d).getLast? ≠ some t := hlast
    rw [feed_of_ne hkeep, record, if_neg hlast, keep, keep]

end TermLog
