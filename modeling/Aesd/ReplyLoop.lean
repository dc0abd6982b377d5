/-
**The reply loop: `fread` a block, `send` it, until nothing is left.**

The loop reads the data file block by block and hands every block to `send` once.  The result of
`send` replaces the length of the block in the same variable and is compared with `-1` only; then
the buffer is cleared and the next block is read.  So the rest of a block that `send` did not take
is gone.

The file is a list of bytes here that `fread` takes blocks off, of any length up to that of the
buffer; what the handler does next is `Pc.next`, in either build.

* `ReplyLoop`, `replyLoop` — the loop as a machine; the output of a step is the number of bytes
  asked for or passed;
* `ReplyLoop.step_moves` — everything a step can do;
* `Whole` — every `send` of a run took all it was passed;
* `reply_loop_delivers_iff` — **the loop ends**, and exactly then everything was delivered.
-/

import Aesd.ConnectionHandler
import Aesd.Machine

set_option relaxedAutoImplicit false
set_option autoImplicit false

namespace Aesd

/-! ### The loop -/

/-- The reply loop: where the handler is, what is still to be read of the data file, and what the
socket accepted. -/
structure ReplyLoop where
  pc : Pc
  unread : List UInt8
  accepted : List UInt8

/-- The loop is about to read the file from its start on. -/
def ReplyLoop.init (content : List UInt8) : ReplyLoop := ⟨.reading, content, []⟩

/-- One call of the loop.  `fread` returns a block of what is left, and none only at the end of the
file; `send` accepts as many of the bytes passed as it returns. -/
def ReplyLoop.step (charDevice : Bool) (s : ReplyLoop) (e : Event) : Option (ReplyLoop × ℕ) :=
  match s.pc.next charDevice e with
  | none => none
  | some pc =>
      match s.pc, e with
      | .reading, .fread data =>
          if data <+: s.unread ∧ (data = [] → s.unread = []) then
            some (⟨pc, s.unread.drop data.length, s.accepted⟩, data.length)
          else none
      | .sending data, .send res =>
          some (⟨pc, s.unread, s.accepted ++ data.take res.toNat⟩, data.length)
      | _, _ => none

/-- **The reply loop as a machine.** -/
def replyLoop (charDevice : Bool) : Machine ReplyLoop Event ℕ where
  step := ReplyLoop.step charDevice

/-- A `send` returns at least one. -/
def ReplyLoop.Positive (_ : ReplyLoop) : Event → Prop
  | .send res => 1 ≤ res
  | _ => True

instance (s : ReplyLoop) : (e : Event) → Decidable (s.Positive e)
  | .send _ => inferInstanceAs (Decidable (_ ≤ _))
  | .lock _ | .fopen _ | .recv _ | .ioctl _ | .fwrite | .flush _ _ | .fseek _ | .fill _ _ | .fread _
  | .fclose | .unlock | .close | .clear | .complete => isTrue trivial

/-- Every `send` of the run returned the number of bytes it was passed. -/
def Whole (t : List (Event × ℕ)) : Prop :=
  ∀ res n, (Event.send res, n) ∈ t → res = n

/-- A block of two bytes of which `send` takes the first: the second one is never sent. -/
theorem short_send_loses :
    ∃ t s, (replyLoop true).Trace ReplyLoop.Positive (ReplyLoop.init [97, 98]) t s ∧
      s.pc = .closingFile ∧ s.accepted = [97] := by
  have hrun : ((replyLoop true).run (ReplyLoop.init [97, 98])
      [.fread [97, 98], .send 1, .fread []]).map (fun p => (p.1.pc, p.1.accepted))
        = some (.closingFile, [97]) := by decide
  obtain ⟨⟨s, os⟩, hrun, hend⟩ := Option.map_eq_some_iff.1 hrun
  obtain ⟨hpc, hacc⟩ := Prod.mk.inj hend
  exact ⟨_, s, Machine.trace_of_run hrun (by decide), hpc, hacc⟩

/-! ### What a step can do -/

/-- **Everything a step of the loop can do.** -/
inductive ReplyLoop.Moves (s : ReplyLoop) : Event → ReplyLoop → ℕ → Prop
  | block (data rest : List UInt8) : s.pc = .reading → data ≠ [] → s.unread = data ++ rest →
      Moves s (.fread data) ⟨.sending data, rest, s.accepted⟩ data.length
  | last : s.pc = .reading → s.unread = [] →
      Moves s (.fread []) ⟨.closingFile, [], s.accepted⟩ 0
  | send (data : List UInt8) (n : ℕ) : s.pc = .sending data → 0 < n → n ≤ data.length →
      Moves s (.send n) ⟨.reading, s.unread, s.accepted ++ data.take n⟩ data.length

theorem ReplyLoop.step_moves {charDevice : Bool} {s s' : ReplyLoop} {e : Event} {n : ℕ}
    (h : (replyLoop charDevice).step s e = some (s', n)) (hok : s.Positive e) :
    s.Moves e s' n := by
  obtain ⟨pc, unread, accepted⟩ := s
  simp only [replyLoop, ReplyLoop.step] at h
  split at h
  · cases h
  next pc' hpc =>
    split at h
    · next data =>
        split at h
        · next hblock =>
            obtain ⟨⟨rest, rfl⟩, hlast⟩ := hblock
            cases h
            cases Pc.next_moves hpc with
            | fread =>
                by_cases hnil : data = []
                · have hrest := hlast hnil
                  obtain rfl := hnil
                  obtain rfl : rest = [] := hrest
                  exact .last rfl rfl
                · rw [if_neg hnil, List.drop_left]
                  exact .block data rest rfl hnil rfl
        · cases h
    · next data res =>
        cases h
        cases Pc.next_moves hpc with
        | send _ _ _ hle =>
            have hpos : 1 ≤ res := hok
            obtain ⟨k, rfl⟩ := Int.eq_ofNat_of_zero_le (zero_le_one.trans hpos)
            rw [if_neg (by omega)]
            exact .send data k rfl (by omega) (by omega)
    · cases h

/-! ### What holds along a run -/

/-- The bytes that are about to be sent. -/
def Pc.outgoing : Pc → List UInt8
  | .sending data => data
  | _ => []

/-- The bytes that were sent, those that are about to be, and those that are still to be read. -/
def ReplyLoop.stream (s : ReplyLoop) : List UInt8 := s.accepted ++ (s.pc.outgoing ++ s.unread)

/-- **The bytes of the file along a run of the loop**: nothing is missing as long as every `send`
was whole, and after one that was not there are too few for the rest of the run. -/
structure ReplyLoop.Tracks (content : List UInt8) (t : List (Event × ℕ)) (s : ReplyLoop) :
    Prop where
  whole : Whole t → s.stream = content
  short : ¬ Whole t → s.stream.length < content.length
  ended : s.pc = .closingFile → s.unread = []
  looping : s.pc = .reading ∨ (∃ data, data ≠ [] ∧ s.pc = .sending data) ∨ s.pc = .closingFile

theorem ReplyLoop.Tracks.init (content : List UInt8) :
    (ReplyLoop.init content).Tracks content [] where
  whole := fun _ => rfl
  short := fun h => absurd (fun _ _ hmem => absurd hmem List.not_mem_nil) h
  ended := nofun
  looping := Or.inl rfl

theorem whole_snoc {t : List (Event × ℕ)} {e : Event} {n : ℕ} :
    Whole (t ++ [(e, n)]) ↔ Whole t ∧ ∀ res, e = .send res → res = n := by
  constructor
  · intro h
    refine ⟨fun res m hmem => h res m (List.mem_append_left _ hmem), ?_⟩
    intro res heq
    exact h res n (by simp [heq])
  · rintro ⟨ht, hlast⟩ res m hmem
    rcases List.mem_append.1 hmem with hmem | hmem
    · exact ht res m hmem
    · obtain ⟨heq, rfl⟩ := Prod.mk.inj (List.mem_singleton.1 hmem)
      exact hlast res heq.symm

/-- A read is not a `send`. -/
theorem whole_snoc_fread {t : List (Event × ℕ)} {data : List UInt8} {n : ℕ} :
    Whole (t ++ [(.fread data, n)]) ↔ Whole t := by
  rw [whole_snoc]
  exact and_iff_left fun res => nofun

theorem whole_snoc_send {t : List (Event × ℕ)} {k n : ℕ} :
    Whole (t ++ [(.send k, n)]) ↔ Whole t ∧ k = n := by
  rw [whole_snoc]
  refine and_congr_right fun _ => ⟨fun h => Int.ofNat.inj (h _ rfl), ?_⟩
  rintro rfl res heq
  exact (Event.send.inj heq).symm

theorem ReplyLoop.Tracks.step {content : List UInt8} {t : List (Event × ℕ)} {s s' : ReplyLoop}
    {e : Event} {n : ℕ} (h : s.Tracks content t) (hm : s.Moves e s' n) :
    s'.Tracks content (t ++ [(e, n)]) := by
  obtain ⟨hwhole, hshort, -, -⟩ := h
  cases hm with
  | block data rest hpc hne hunread =>
      -- the block goes from the file to the buffer
      have hstream : s.stream = s.accepted ++ (data ++ rest) := by
        rw [ReplyLoop.stream, hpc, hunread]
        rfl
      rw [hstream] at hwhole hshort
      refine ⟨?_, ?_, nofun, Or.inr (Or.inl ⟨data, hne, rfl⟩)⟩
      · rw [whole_snoc_fread]
        exact hwhole
      · rw [whole_snoc_fread]
        exact hshort
  | last hpc hunread =>
      have hstream : s.stream = s.accepted ++ ([] ++ []) := by
        rw [ReplyLoop.stream, hpc, hunread]
        rfl
      rw [hstream] at hwhole hshort
      refine ⟨?_, ?_, fun _ => rfl, Or.inr (Or.inr rfl)⟩
      · rw [whole_snoc_fread]
        exact hwhole
      · rw [whole_snoc_fread]
        exact hshort
  | send data k hpc hpos hle =>
      -- of the block, what `send` did not take is gone
      have hstream : s.stream = s.accepted ++ (data ++ s.unread) := by
        rw [ReplyLoop.stream, hpc]
        rfl
      rw [hstream] at hwhole hshort
      have hlen : (s.accepted ++ (data ++ s.unread)).length ≤ content.length := by
        by_cases ht : Whole t
        · rw [hwhole ht]
        · exact (hshort ht).le
      refine ⟨?_, ?_, nofun, Or.inl rfl⟩
      · rw [whole_snoc_send]
        rintro ⟨ht, rfl⟩
        rw [← hwhole ht]
        simp [ReplyLoop.stream, Pc.outgoing]
      · intro hnot
        simp only [ReplyLoop.stream, Pc.outgoing, List.length_append, List.length_take,
          List.length_nil] at hlen hshort ⊢
        by_cases ht : Whole t
        · have hk : k ≠ data.length := fun hk => hnot (whole_snoc_send.2 ⟨ht, hk⟩)
          omega
        · have := hshort ht
          omega

/-- Twice the bytes that are still to be read, and what the control point adds. -/
def ReplyLoop.todo (s : ReplyLoop) : ℕ :=
  2 * s.unread.length + match s.pc with
    | .reading => 1
    | .sending _ => 2
    | _ => 0

/-- Every call brings the end of the loop nearer. -/
theorem ReplyLoop.Moves.todo_lt {s s' : ReplyLoop} {e : Event} {n : ℕ} (hm : s.Moves e s' n) :
    s'.todo < s.todo := by
  cases hm with
  | block data rest hpc hne hunread =>
      have hpos := List.length_pos_iff.2 hne
      simp only [ReplyLoop.todo, hpc, hunread, List.length_append]
      omega
  | last hpc hunread => simp [ReplyLoop.todo, hpc]
  | send data k hpc =>
      simp only [ReplyLoop.todo, hpc]
      omega

/-- The loop is never stuck: until it ends, a block can be read, or sent. -/
theorem ReplyLoop.Tracks.progress {charDevice : Bool} {content : List UInt8} {t : List (Event × ℕ)}
    {s : ReplyLoop} (h : s.Tracks content t) (hpc : s.pc ≠ .closingFile) :
    ∃ e, s.Positive e ∧ ((replyLoop charDevice).step s e).isSome := by
  obtain ⟨pc, unread, accepted⟩ := s
  rcases h.looping with rfl | ⟨data, hne, rfl⟩ | rfl
  · have hlen : ¬ recvBufferLen < (unread.take recvBufferLen).length :=
      not_lt.2 (List.length_take_le _ _)
    have hblock : unread.take recvBufferLen <+: unread ∧
        (unread.take recvBufferLen = [] → unread = []) := by
      refine ⟨List.take_prefix _ _, ?_⟩
      intro hnil
      rcases List.take_eq_nil_iff.1 hnil with hzero | hunread
      · cases hzero
      · exact hunread
    refine ⟨.fread (unread.take recvBufferLen), trivial, ?_⟩
    simp only [replyLoop, ReplyLoop.step, Pc.next, if_neg hlen, if_pos hblock, Option.isSome_some]
  · have hlow : ¬ ((data.length : ℤ) < -1 ∨ (data.length : ℤ) < data.length) := by omega
    have hpos : 1 ≤ (data.length : ℤ) := by
      have := List.length_pos_iff.2 hne
      omega
    refine ⟨.send data.length, hpos, ?_⟩
    simp only [replyLoop, ReplyLoop.step, Pc.next, if_neg hlow, Option.isSome_some]
  · exact absurd rfl hpc

/-- **The reply loop ends, and what it delivers.**  For every content of the file, every way to cut
it into blocks and every sequence of positive results of `send`: a run has at most
`2 * content.length + 1` calls and goes on until the file is to be closed; then the socket has
accepted the content, byte by byte, if and only if every `send` took all it was passed. -/
theorem reply_loop_delivers_iff {charDevice : Bool} {content : List UInt8} {t : List (Event × ℕ)}
    {s : ReplyLoop}
    (h : (replyLoop charDevice).Trace ReplyLoop.Positive (ReplyLoop.init content) t s) :
    t.length ≤ 2 * content.length + 1 ∧
    (s.pc ≠ .closingFile → ∃ e, s.Positive e ∧ ((replyLoop charDevice).step s e).isSome) ∧
    (s.pc = .closingFile → (s.accepted = content ↔ Whole t)) := by
  have htracks : s.Tracks content t := by
    induction h with
    | nil => exact ReplyLoop.Tracks.init content
    | snoc _ hok hstep ih => exact ih.step (ReplyLoop.step_moves hstep hok)
  have hlength : t.length + s.todo ≤ (ReplyLoop.init content).todo :=
    (h.length_add_le (I := fun _ => True) trivial
      fun s e s' n _ hok hstep => ⟨trivial, (ReplyLoop.step_moves hstep hok).todo_lt⟩).2
  refine ⟨?_, htracks.progress, ?_⟩
  · simp only [ReplyLoop.todo, ReplyLoop.init] at hlength
    omega
  · intro hpc
    have hstream : s.stream = s.accepted := by
      simp [ReplyLoop.stream, hpc, Pc.outgoing, htracks.ended hpc]
    constructor
    · intro hacc
      by_contra hnot
      have hlt := htracks.short hnot
      rw [hstream, hacc] at hlt
      exact lt_irrefl _ hlt
    · intro hwhole
      rw [← hstream]
      exact htracks.whole hwhole

/-- A file of three bytes that is read in two blocks, both sent as a whole. -/
theorem reply_loop_delivers_iff_two_blocks :
    ∃ t s, (replyLoop true).Trace ReplyLoop.Positive (ReplyLoop.init [97, 98, 10]) t s ∧
      s.pc = .closingFile ∧ (s.accepted = [97, 98, 10] ↔ Whole t) := by
  have hrun : ((replyLoop true).run (ReplyLoop.init [97, 98, 10])
      [.fread [97, 98], .send 2, .fread [10], .send 1, .fread []]).map (fun p => p.1.pc)
        = some .closingFile := by decide
  obtain ⟨⟨s, os⟩, hrun, hpc⟩ := Option.map_eq_some_iff.1 hrun
  have htrace : (replyLoop true).Trace ReplyLoop.Positive _ _ s :=
    Machine.trace_of_run hrun (by decide)
  exact ⟨_, s, htrace, hpc, (reply_loop_delivers_iff htrace).2.2 hpc⟩

end Aesd
