/-
**What a sequential reader gets while others write.**

A reader that opens the device and reads on and on keeps a position in the stored bytes, and nothing
tells it that the ring has evicted a command: its position stays where it is, and the bytes under it
move.  So a reader can miss bytes.  What it cannot get is a byte twice, or two bytes in the wrong
order, or a byte of a command that is not complete: what it has got is at any time a part of the
sequence of all commands ever written, in their order, and the beginning of that sequence as long as
nothing has been evicted.

This is a property of the log device, where it is a fact about lists, and it comes down to the
driver with `Sys.Views.step`.

* `Got` — what a reader has got, as a part of all commands; `Got.push`, `Got.read`;
* `gotBy` — what a file got in a run since it was opened;
* `reader_in_order` — **a reader gets the commands in order**.
-/

import Aesd.LogDevice

set_option relaxedAutoImplicit false
set_option autoImplicit false

namespace Aesd

open TermLog

/-! ### Commands that move under a reader -/

section Got

variable {α : Type} {all : List (List α)} {n : ℕ} {got : List α}

/-- What was got before position `p` of the last `n` commands, as a part of all of them: some bytes
of the commands that are gone, and some of those before the position. -/
def Got (all : List (List α)) (n p : ℕ) (got : List α) : Prop :=
  got.Sublist ((all.take (all.length - n)).flatten ++ ((all.rtake n).flatten).take p)

theorem Got.sublist {p : ℕ} (h : Got all n p got) : got.Sublist all.flatten := by
  have hsplit : all.flatten = (all.take (all.length - n)).flatten ++ (all.rtake n).flatten := by
    rw [List.rtake, ← List.flatten_append, List.take_append_drop]
  rw [hsplit]
  exact h.trans ((List.take_sublist p _).append_left _)

/-- As long as nothing is gone, the bytes before the position are those that were got. -/
theorem Got.prefix (h : Got all n got.length got) (hn : all.length ≤ n) : got <+: all.flatten := by
  have hzero : all.length - n = 0 := by omega
  rw [Got, List.rtake, hzero, List.take_zero, List.drop_zero, List.flatten_nil,
    List.nil_append] at h
  have heq := h.eq_of_length_le (List.length_take_le ..)
  rw [heq]
  exact List.take_prefix ..

/-- Of two lists end to end, a beginning is a part of the first one and a beginning of the second.
-/
theorem take_append_sublist (xs ys : List α) (p : ℕ) :
    ((xs ++ ys).take p).Sublist (xs ++ ys.take p) := by
  rw [List.take_append]
  refine (List.take_sublist p xs).append ?_
  exact (List.take_prefix_take_left (Nat.sub_le ..)).sublist

/-- A command is appended, and one may go. -/
theorem Got.push {p : ℕ} (h : Got all n p got) (c : List α) : Got (all ++ [c]) n p got := by
  obtain ⟨k, hk⟩ : ∃ k, k = all.length - n := ⟨_, rfl⟩
  obtain ⟨m, hm⟩ : ∃ m, (all ++ [c]).length - n = k + m :=
    ⟨(all ++ [c]).length - n - k, by simp; omega⟩
  have hgone : (all ++ [c]).take (k + m) = all.take k ++ ((all ++ [c]).drop k).take m := by
    rw [List.take_add, List.take_append_of_le_length (by omega)]
  have hkept : (all ++ [c]).drop k = ((all ++ [c]).drop k).take m ++ (all ++ [c]).drop (k + m) := by
    rw [← List.drop_drop, List.take_append_drop]
  have hgrown : (all.drop k).flatten <+: ((all ++ [c]).drop k).flatten := by
    rw [List.drop_append_of_le_length (by omega), List.flatten_append]
    exact List.prefix_append _ _
  rw [Got, List.rtake, hm, hgone, List.flatten_append, List.append_assoc]
  rw [Got, List.rtake, ← hk] at h
  refine h.trans (List.Sublist.append_left ?_ _)
  refine (hgrown.take p).sublist.trans ?_
  conv_lhs => rw [hkept, List.flatten_append]
  exact take_append_sublist _ _ p

/-- The reader reads on. -/
theorem Got.read {p : ℕ} {d : List α} (h : Got all n p got)
    (hd : d <+: ((all.rtake n).flatten).drop p) : Got all n (p + d.length) (got ++ d) := by
  have htake : ((all.rtake n).flatten).take (p + d.length)
      = ((all.rtake n).flatten).take p ++ d := by
    rw [List.take_add, ← List.prefix_iff_eq_take.1 hd]
  rw [Got, htake, ← List.append_assoc]
  exact h.append_right d

/-- A piece is fed to the log. -/
theorem Got.record [DecidableEq α] {s : TermLog α} {p : ℕ} (h : Got s.entries n p got) (t : α)
    (d : List α) : Got (s.record t d).entries n p got := by
  rw [TermLog.record]
  split
  · exact h.push _
  · exact h

end Got

/-! ### One file in a run -/

/-- What file `f` has got since it was opened, after one more call; what a failed read leaves with
the user does not count. -/
def Call.adds (f : ℕ) (got : List UInt8) (r : Reply) : Call → List UInt8
  | .openFile f' => if f' = f then [] else got
  | .read (some f') _ _ _ => if f' = f ∧ 0 ≤ r.retval then got ++ r.data else got
  | .read none _ _ _ | .releaseFile _ | .write .. | .llseek .. | .ioctl .. => got

/-- **What file `f` got** in a run since it was opened. -/
def gotBy (f : ℕ) (t : List (Call × Reply)) : List UInt8 :=
  t.foldl (fun got p => p.1.adds f got p.2) []

theorem gotBy_snoc (f : ℕ) (t : List (Call × Reply)) (c : Call) (r : Reply) :
    gotBy f (t ++ [(c, r)]) = c.adds f (gotBy f t) r := by
  rw [gotBy, gotBy, List.foldl_append, List.foldl_cons, List.foldl_nil]

theorem supplied_snoc (t : List (Call × Reply)) (c : Call) (r : Reply) :
    supplied (t ++ [(c, r)]) = if 0 ≤ r.retval then supplied t ++ [c.written] else supplied t := by
  rw [supplied, supplied, succeeded_snoc]
  split
  · rw [List.map_append, List.map_singleton]
  · rfl

/-- The call moves the position of file `f` to a place of its own choice. -/
def Call.Repositions (f : ℕ) : Call → Prop
  | .llseek f' _ _ => f' = f
  | .ioctl f' _ _ => f' = f
  | _ => False

instance (f : ℕ) : (c : Call) → Decidable (c.Repositions f)
  | .llseek f' _ _ => inferInstanceAs (Decidable (f' = f))
  | .ioctl f' _ _ => inferInstanceAs (Decidable (f' = f))
  | .openFile _ | .releaseFile _ | .read .. | .write .. => isFalse id

/-- **What a read can do**: it moves the position behind what it served, or it fails and does not
move it. -/
theorem logRead_cases {env : ReadEnv} {commands : List (List UInt8)} {filp : Option File}
    {buf : Bool} {count p : ℕ} {r : ReadResult} (h : logRead env commands filp buf count p = r) :
    (0 ≤ r.retval ∧ r.fPos = (p + r.data.length : ℕ) ∧ r.data <+: commands.flatten.drop p) ∨
      (r.retval < 0 ∧ r.fPos = p) := by
  rw [logRead.eq_def] at h
  split at h
  · split at h
    · subst h
      exact .inr ⟨by simp [ENODEV], rfl⟩
    · split at h
      · subst h
        exact .inr ⟨by simp [ERESTARTSYS], rfl⟩
      · rw [logServe, Int.toNat_natCast] at h
        split at h
        · subst h
          refine .inl ⟨Int.natCast_nonneg _, rfl, ?_⟩
          exact (List.take_prefix ..).trans (Segments.rest_prefix ..)
        · subst h
          exact .inr ⟨by simp [EFAULT], rfl⟩
  · subst h
    exact .inr ⟨by simp [EINVAL], rfl⟩

/-- **One call on the log device**, for a file whose position is the number of bytes it got. -/
theorem LogSys.call_adds {x : LogSys} {c : Call} {f : ℕ} {got : List UInt8} (granted : Bool)
    (hc : ¬ c.Repositions f) (hpos : (x.file f).fPos = got.length) :
    ((x.call granted c).1.file f).fPos = (c.adds f got (x.call granted c).2).length ∧
      (c.adds f got (x.call granted c).2 = got ∨ c.adds f got (x.call granted c).2 = [] ∨
        ∃ d, d <+: x.log.entries.flatten.drop got.length ∧
          c.adds f got (x.call granted c).2 = got ++ d) := by
  cases c with
  | openFile f' =>
      by_cases hff : f' = f
      · subst hff
        simp [LogSys.call, LogSys.setFile, Call.adds]
      · simp [LogSys.call, LogSys.setFile, Call.adds, hff, Function.update_of_ne (Ne.symm hff),
          hpos]
  | releaseFile f' =>
      by_cases hff : f' = f
      · subst hff
        simp [LogSys.call, LogSys.setFile, Call.adds, hpos]
      · simp [LogSys.call, LogSys.setFile, Call.adds, Function.update_of_ne (Ne.symm hff), hpos]
  | read f' buf count env =>
      cases f' with
      | none => exact ⟨hpos, .inl rfl⟩
      | some f' =>
          by_cases hff : f' = f
          · subst hff
            simp only [LogSys.call, LogSys.setFile, Call.adds, Function.update_self, true_and, hpos]
            rcases logRead_cases (rfl : logRead env x.log.entries (some (x.file f')) buf count
              got.length = _) with ⟨hr, hfPos, hd⟩ | ⟨hr, hfPos⟩
            · rw [if_pos hr, List.length_append]
              exact ⟨hfPos, .inr (.inr ⟨_, hd, rfl⟩)⟩
            · rw [if_neg (by omega)]
              exact ⟨hfPos, .inl rfl⟩
          · simp [LogSys.call, LogSys.setFile, Call.adds, hff, Function.update_of_ne (Ne.symm hff),
              hpos]
  | write f' buf env => exact ⟨hpos, .inl rfl⟩
  | llseek f' off whence =>
      have hff : f ≠ f' := Ne.symm hc
      simp [LogSys.call, LogSys.setFile, Call.adds, Function.update_of_ne hff, hpos]
  | ioctl f' cmd env =>
      have hff : f ≠ f' := Ne.symm hc
      simp [LogSys.call, LogSys.setFile, Call.adds, Function.update_of_ne hff, hpos]

/-- **The invariant of a reader**: its position is the number of the bytes it got, and those are a
part of all commands. -/
structure Reads (M f : ℕ) (t : List (Call × Reply)) (s : Sys) : Prop where
  views : s.Views M
  log : s.kern.log = (records newline (supplied t)).keep 10
  fPos : (s.file f).fPos = (gotBy f t).length
  got : Got (records newline (supplied t)).entries 10 (gotBy f t).length (gotBy f t)

theorem Reads.init (M f : ℕ) : Reads M f [] Sys.init :=
  ⟨.init M, rfl, rfl, List.nil_sublist _⟩

theorem Call.adds_blind (f : ℕ) (got : List UInt8) (r : Reply) (c : Call) :
    c.blind.adds f got r = c.adds f got r := by
  cases c <;> rfl

theorem Call.repositions_blind {f : ℕ} {c : Call} (hc : ¬ c.Repositions f) :
    ¬ c.blind.Repositions f := by
  cases c <;> exact hc

/-- **Every call keeps the invariant of a reader.** -/
theorem Reads.step {M f : ℕ} (hM : 10 * M < 2 ^ 31) {t : List (Call × Reply)} {s s' : Sys}
    (h : Reads M f t s) {c : Call} {r : Reply} (hl : ¬ s.Loses M c) (hrep : ¬ c.Repositions f)
    (hc : s.call M c = .ok (s', r)) : Reads M f (t ++ [(c, r)]) s' := by
  obtain ⟨hviews, hcall⟩ := h.views.step hM hl hc
  obtain ⟨-, hlog⟩ := Sys.call_log h.views.inv h.views.intact h.views.good hl hc
  have hpos : (s.view.file f).fPos = (gotBy f t).length := h.fPos
  obtain ⟨hfPos, hadds⟩ := LogSys.call_adds r.granted (Call.repositions_blind hrep) hpos
  rw [hcall, Call.adds_blind, ← gotBy_snoc] at hfPos hadds
  have hgot : Got (records newline (supplied t)).entries 10 (gotBy f (t ++ [(c, r)])).length
      (gotBy f (t ++ [(c, r)])) := by
    rcases hadds with heq | heq | ⟨d, hd, heq⟩
    · rw [heq]
      exact h.got
    · rw [heq]
      exact List.nil_sublist _
    · rw [heq, List.length_append]
      refine h.got.read ?_
      have hentries : s.view.log.entries = (records newline (supplied t)).entries.rtake 10 :=
        congrArg TermLog.entries h.log
      rwa [hentries] at hd
  by_cases hr : 0 ≤ r.retval
  · have hsupplied : supplied (t ++ [(c, r)]) = supplied t ++ [c.written] := by
      rw [supplied_snoc, if_pos hr]
    rw [if_pos hr, h.log, feed_keep_record (by decide), ← records_snoc, ← hsupplied] at hlog
    refine ⟨hviews, hlog, hfPos, ?_⟩
    rw [hsupplied, records_snoc]
    exact hgot.record newline c.written
  · have hsupplied : supplied (t ++ [(c, r)]) = supplied t := by rw [supplied_snoc, if_neg hr]
    rw [if_neg hr, h.log, ← hsupplied] at hlog
    refine ⟨hviews, hlog, hfPos, ?_⟩
    rw [hsupplied]
    exact hgot

/-- **A sequential reader gets the commands in order**, in every run in which no write loses pending
bytes, whatever the other files do.  What a file has got since it was opened, if its position is
moved by its reads only, is a part of the sequence of all commands written so far, and the beginning
of it as long as at most ten have been written. -/
theorem reader_in_order {M f : ℕ} (hM : 10 * M < 2 ^ 31) {t : List (Call × Reply)} {s : Sys}
    (h : (charDev M).Trace (fun s c => ¬ s.Loses M c ∧ ¬ c.Repositions f) Sys.init t s) :
    (gotBy f t).Sublist (records newline (supplied t)).entries.flatten ∧
      ((records newline (supplied t)).entries.length ≤ 10 →
        gotBy f t <+: (records newline (supplied t)).entries.flatten) ∧
      s.kern.commands = (records newline (supplied t)).entries.rtake 10 := by
  have hreads : Reads M f t s := by
    induction h with
    | nil => exact .init M f
    | snoc _ hok hstep ih => exact ih.step hM hok.1 hok.2 (charDev_step.1 hstep)
  exact ⟨hreads.got.sublist, hreads.got.prefix, congrArg TermLog.entries hreads.log⟩

/-- A byte of the first line is read, then comes the second line, and the rest of the first is read.
-/
theorem reader_in_order_two_lines :
    ∃ t s, (charDev 64).Trace (fun s c => ¬ s.Loses 64 c ∧ ¬ c.Repositions 0) Sys.init t s ∧
      gotBy 0 t = [97, 10] ∧
      (records newline (supplied t)).entries = [[97, 10], [98, 10]] ∧
      (gotBy 0 t).Sublist (records newline (supplied t)).entries.flatten := by
  obtain ⟨⟨s, rs⟩, hrun⟩ : ∃ p, (charDev 64).run Sys.init
      [.openFile 0, .write (some 0) (some [97, 10]) ⟨false, ⟨some 0, fun _ => 7⟩, 0⟩,
        .read (some 0) true 1 ⟨false, 0⟩,
        .write (some 0) (some [98, 10]) ⟨false, ⟨some 1, fun _ => 7⟩, 0⟩,
        .read (some 0) true 512 ⟨false, 0⟩] = some p :=
    Option.isSome_iff_exists.1 (by decide +kernel)
  have hrs : rs = [⟨0, []⟩, ⟨2, []⟩, ⟨1, [97]⟩, ⟨2, []⟩, ⟨1, [10]⟩] :=
    Machine.run_map hrun Prod.snd (by decide +kernel)
  subst hrs
  have htrace : (charDev 64).Trace (fun s c => ¬ s.Loses 64 c ∧ ¬ c.Repositions 0) Sys.init _ s :=
    Machine.trace_of_run hrun (by decide +kernel)
  exact ⟨_, s, htrace, rfl, rfl, (reader_in_order (by decide) htrace).1⟩

end Aesd
