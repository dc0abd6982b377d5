/-
**A connection that sends data only.**

None of its chunks starts with the keyword.  Until a chunk with a newline arrives the handler
collects and nothing is read; then it answers, from the start of the store; or the client closes
before that, and the handler leaves without an answer.  `Session.Plain` says in which of these a
connection is, `Session.Plain.step` that it stays in one of them, whatever stdio does in between.

Where the newline is the last byte of the data, for any connection, it is the last byte of a piece
that stdio hands over, however stdio cuts them: that is `Session.Lines`.

* `Session.Plain.step` — the phases of a connection that sends data only;
* `Session.Plain.finished` — what it has done when its file is closed;
* `Session.Lines.pieces` — newlines are at the ends of the pieces.
-/

import Aesd.SessionInv

set_option relaxedAutoImplicit false
set_option autoImplicit false

namespace Aesd

open TermLog

/-- The handler has left its loop and is about to close the file, or has done so. -/
def Pc.leaving : Pc → Bool
  | .closingFile | .unlocking | .closingClient | .clearing | .completing | .done => true
  | _ => false

/-- **The phases of a connection that sends data only**; `P` says what `recv` returns. -/
inductive Session.Plain (P : List (List UInt8) → Recv → Prop) (s : Session) : Prop
  /-- The file is not open yet. -/
  | starting : s.pc = .locking ∨ s.pc = .opening → s.conn = .init → Plain P s
  /-- No newline has been seen. -/
  | collecting : s.pc = .receiving ∨ (∃ buffer n, s.pc = .writing buffer n) → s.conn.Fresh 0 →
      newline ∉ s.conn.written → Plain P s
  /-- A newline has been seen. -/
  | answering : s.Answering 0 → newline ∈ s.conn.payload → Plain P s
  /-- The client closed, or `recv` failed, before a newline was seen. -/
  | aborted : s.pc.leaving = true → (s.pc = .closingFile ∨ s.conn.unwritten = []) →
      s.conn.accepted = [] → newline ∉ s.conn.payload →
      (∃ res, (∀ bytes, res ≠ .chunk bytes) ∧ P s.conn.delivered res) → Plain P s

/-- The bytes that left the handler are all there are, when no chunk is about to be written. -/
theorem Session.Sound.written_eq {M : ℕ} {log₀ : TermLog UInt8} {s : Session} (h : s.Sound M log₀)
    (hpc : s.pc.inflight = []) : s.conn.written = s.conn.payload := by
  have hbytes := h.bytes
  rwa [hpc, List.append_nil] at hbytes

/-- What a control point says about the phase. -/
theorem Session.Plain.here {P : List (List UInt8) → Recv → Prop} {s : Session} (h : s.Plain P) :
    match s.pc with
    | .locking | .opening => s.conn = .init
    | .receiving | .writing .. => s.conn.Fresh 0 ∧ newline ∉ s.conn.written
    | .reading | .sending _ => s.Answering 0 ∧ newline ∈ s.conn.payload
    | .seeking .. | .rewinding | .crashed => False
    | _ => True := by
  cases h with
  | starting hpc hconn => rcases hpc with hpc | hpc <;> simpa only [hpc] using hconn
  | collecting hpc hfresh hnl =>
      rcases hpc with hpc | ⟨buffer, n, hpc⟩ <;> simpa only [hpc] using ⟨hfresh, hnl⟩
  | answering hans hmem =>
      cases hpc : s.pc with
      | reading | sending data => exact ⟨hans, hmem⟩
      | closingFile | unlocking | closingClient | clearing | completing | done => trivial
      | _ => simp [Session.Answering, hpc] at hans
  | aborted hleave =>
      cases hpc : s.pc with
      | closingFile | unlocking | closingClient | clearing | completing | done => trivial
      | _ => simp [Pc.leaving, hpc] at hleave

/-- **A step that succeeds leads from one phase to the same or the next one.** -/
theorem Session.Plain.step {M : ℕ} {P : List (List UInt8) → Recv → Prop} {log₀ : TermLog UInt8}
    {s s' : Session} {e : Event} (h : s.Plain P) (hM : 10 * M < 2 ^ 31) (hsound : s.Sound M log₀)
    (hkey : ∀ bytes, e = .recv (.chunk bytes) → startsWithKeyword bytes = false)
    (hrecv : s.Receives P e) (hm : s.Moves M e s') : s'.Plain P := by
  have hflat : s.kern.flat.length < 2 ^ 31 := hsound.inv.flat_le.trans_lt hM
  have hsound' := hsound.step hm
  -- an answer goes on as long as nothing is received
  have hanswer : s.Answering 0 → s'.conn.payload = s.conn.payload → newline ∈ s.conn.payload →
      s'.Plain P := by
    intro hans hpayload hmem
    exact .answering (hans.step (by decide) hsound.inv hflat hm) (hpayload ▸ hmem)
  have hhere := h.here
  cases hm with
  | lock hpc =>
      simp only [hpc] at hhere
      exact .starting (Or.inr rfl) hhere
  | fopen hpc =>
      simp only [hpc] at hhere
      rw [hhere]
      exact .collecting (Or.inl rfl) ⟨rfl, rfl, rfl, rfl⟩ (by simp [Conn.written, Conn.init])
  | recv bytes hpc =>
      simp only [hpc] at hhere
      obtain ⟨hfresh, hnl⟩ := hhere
      have hwriting : afterRecv true bytes = .writing (recvBuffer bytes) bytes.length := by
        rw [afterRecv, if_neg (by simp [hkey bytes rfl])]
      exact .collecting (Or.inr ⟨_, _, hwriting⟩)
        ⟨hfresh.accepted, hfresh.ahead, hfresh.eof, hfresh.filp⟩ hnl
  | closed res hpc hres =>
      simp only [hpc] at hhere
      obtain ⟨hfresh, hnl⟩ := hhere
      refine .aborted rfl (Or.inl rfl) hfresh.accepted ?_ ⟨res, hres, hrecv _ rfl⟩
      rwa [← hsound'.written_eq rfl]
  | ioctl seek buffer n filp res hpc =>
      simp only [hpc] at hhere
  | fwrite buffer n hpc =>
      simp only [hpc] at hhere
      obtain ⟨hfresh, hnl⟩ := hhere
      have hfresh' : Conn.Fresh { s.conn with
          unwritten := s.conn.unwritten ++ buffer.take n } 0 :=
        ⟨hfresh.accepted, hfresh.ahead, hfresh.eof, hfresh.filp⟩
      have hwritten := hsound'.written_eq (inflight_afterChunk ..)
      -- the newline is looked for in the bytes that were just written
      by_cases hmem : newline ∈ buffer.take n
      · have hpc' : afterChunk true buffer n = .reading := by
          rw [afterChunk, if_pos (CString.memchr_isSome.2 hmem), if_pos rfl]
        rw [hpc'] at hwritten ⊢
        refine .answering (Or.inl hfresh') ?_
        rw [← hwritten]
        simp [Conn.written, hmem]
      · have hpc' : afterChunk true buffer n = .receiving := by
          rw [afterChunk, if_neg (fun hc => hmem (CString.memchr_isSome.1 hc))]
        refine .collecting (Or.inl hpc') hfresh' ?_
        simp only [Conn.written, List.mem_append, not_or] at hnl ⊢
        exact ⟨hnl.1, hnl.2, hmem⟩
  | flush n env kern res hopen hpos hle =>
      cases h with
      | starting hpc' => rcases hpc' with hpc' | hpc' <;> simp [hpc', Pc.fileOpen] at hopen
      | collecting hpc' hfresh hnl =>
          refine .collecting hpc' ⟨hfresh.accepted, hfresh.ahead, hfresh.eof, hfresh.filp⟩ ?_
          simpa [Conn.written] using hnl
      | answering hans hmem => exact hanswer hans rfl hmem
      | aborted hleave hflushed hacc hnl hclosed =>
          refine .aborted hleave (Or.inl (hflushed.resolve_right ?_)) hacc hnl hclosed
          intro hnil
          rw [hnil, List.length_nil] at hle
          omega
  | fill count r hpc | fread hpc | send data hpc =>
      simp only [hpc] at hhere
      exact hanswer hhere.1 rfl hhere.2
  | fclose hpc hflushed =>
      cases h with
      | starting hpc' => simp [hpc] at hpc'
      | collecting hpc' => simp [hpc] at hpc'
      | answering hans hmem => exact hanswer hans rfl hmem
      | aborted _ _ hacc hnl hclosed => exact .aborted rfl (Or.inr hflushed) hacc hnl hclosed
  | unlock hpc | close hpc | clear hpc | complete hpc =>
      cases h with
      | starting hpc' => simp [hpc] at hpc'
      | collecting hpc' => simp [hpc] at hpc'
      | answering hans hmem => exact hanswer hans rfl hmem
      | aborted _ hflushed hacc hnl hclosed =>
          exact .aborted rfl (Or.inr (hflushed.resolve_left (by simp [hpc]))) hacc hnl hclosed

/-- An answer that was sent is all that the device has stored. -/
theorem Session.Answering.sent {p : ℕ} {s : Session} (h : s.Answering p)
    (hleft : s.pc.leaving = true) :
    s.conn.unwritten = [] ∧ s.conn.accepted = s.kern.flat.drop p := by
  unfold Session.Answering at h
  cases hpc : s.pc <;> simp only [hpc, Pc.leaving, Bool.false_eq_true] at h hleft <;> exact h

/-- **What a connection has done when its file is closed**: the stream was flushed, and the store
was sent from its start on if there was a newline; if there was none, nothing was sent. -/
theorem Session.Plain.finished {M : ℕ} {P : List (List UInt8) → Recv → Prop}
    {log₀ : TermLog UInt8} {s : Session} (h : s.Plain P) (hsound : s.Sound M log₀)
    (hleft : s.pc.leaving = true) (hclosed : s.pc ≠ .closingFile) :
    s.conn.handed.flatten = s.conn.payload ∧
      ((newline ∈ s.conn.payload ∧ s.conn.accepted = s.kern.flat) ∨
        (newline ∉ s.conn.payload ∧ s.conn.accepted = [] ∧
          ∃ res, (∀ bytes, res ≠ .chunk bytes) ∧ P s.conn.delivered res)) := by
  have hwritten : s.conn.written = s.conn.payload := by
    refine hsound.written_eq ?_
    cases hpc : s.pc with
    | writing => simp [hpc, Pc.leaving] at hleft
    | _ => rfl
  have hflat : s.conn.unwritten = [] → s.conn.handed.flatten = s.conn.payload := by
    intro hnil
    rw [← hwritten, Conn.written, hnil, List.append_nil]
  cases h with
  | starting hpc => rcases hpc with hpc | hpc <;> simp [hpc, Pc.leaving] at hleft
  | collecting hpc => rcases hpc with hpc | ⟨_, _, hpc⟩ <;> simp [hpc, Pc.leaving] at hleft
  | answering hans hmem =>
      obtain ⟨hflushed, hacc⟩ := hans.sent hleft
      exact ⟨hflat hflushed, Or.inl ⟨hmem, hacc⟩⟩
  | aborted _ hflushed hacc hnl hend =>
      exact ⟨hflat (hflushed.resolve_left hclosed), Or.inr ⟨hnl, hacc, hend⟩⟩

/-- A connection that sends data only does not run into a fault. -/
theorem Session.Plain.not_crashed {P : List (List UInt8) → Recv → Prop} {s : Session}
    (h : s.Plain P) : s.pc ≠ .crashed := by
  intro hpc
  have hhere := h.here
  simp only [hpc] at hhere

/-! ### Newlines at the end of chunks -/

/-- What `recv` returns when no chunk of data has a newline before its last byte. -/
def lineChunks (_ : List (List UInt8)) : Recv → Prop
  | .chunk bytes => startsWithKeyword bytes = false → newline ∉ bytes.dropLast
  | _ => True

instance (delivered : List (List UInt8)) : (res : Recv) → Decidable (lineChunks delivered res)
  | .chunk _ => inferInstanceAs (Decidable (_ → _))
  | .closed | .failed => isTrue trivial

/-- The handler has not left the loop that receives. -/
def Pc.looping : Pc → Bool
  | .locking | .opening | .receiving | .seeking .. | .writing .. => true
  | _ => false

/-- **The newline is the last byte of the data**, and the last thing the handler writes. -/
structure Session.Lines (s : Session) : Prop where
  line : newline ∉ s.conn.payload.dropLast
  looping : s.pc.looping = true → newline ∉ s.conn.written

theorem Session.Lines.init (k : Kernel) : (Session.init k).Lines where
  line := by simp [Session.init, Conn.init, Conn.payload]
  looping := by simp [Session.init, Conn.init, Conn.written]

theorem Session.Lines.step {M : ℕ} {log₀ : TermLog UInt8} {s s' : Session} {e : Event}
    (h : s.Lines) (hsound : s.Sound M log₀) (hrecv : s.Receives lineChunks e)
    (hm : s.Moves M e s') : s'.Lines := by
  obtain ⟨hline, hlooping⟩ := h
  cases hm with
  | lock hpc | fopen hpc =>
      rw [hpc] at hlooping
      exact ⟨hline, fun _ => hlooping rfl⟩
  | recv bytes hpc hpos =>
      rw [hpc] at hlooping
      have hnl := hlooping rfl
      refine ⟨?_, fun _ => hnl⟩
      rw [hsound.written_eq (by rw [hpc]; rfl)] at hnl
      rw [Conn.payload_append]
      by_cases hkey : startsWithKeyword bytes = true
      · rwa [if_pos hkey, List.append_nil]
      · have hchunk := hrecv _ rfl (by simpa using hkey)
        rw [if_neg hkey, List.dropLast_append_of_ne_nil (List.length_pos_iff.1 hpos)]
        simp only [List.mem_append, not_or]
        exact ⟨hnl, hchunk⟩
  | closed res hpc =>
      refine ⟨hline, ?_⟩
      intro hloop
      cases hloop
  | ioctl seek buffer n filp res hpc =>
      rw [hpc] at hlooping
      exact ⟨hline, fun _ => hlooping rfl⟩
  | fwrite buffer n hpc =>
      rw [hpc] at hlooping
      refine ⟨hline, ?_⟩
      intro hloop
      -- the loop goes on only if what was written has no newline
      have hmem : newline ∉ buffer.take n := by
        intro hmem
        simp [afterChunk, CString.memchr_isSome.2 hmem, Pc.looping] at hloop
      have hnl := hlooping rfl
      simp only [Conn.written, List.mem_append, not_or] at hnl ⊢
      exact ⟨hnl.1, hnl.2, hmem⟩
  | flush n env kern res =>
      refine ⟨hline, ?_⟩
      intro hloop
      have hnl := hlooping hloop
      simpa [Conn.written] using hnl
  | fill count r hpc =>
      refine ⟨hline, ?_⟩
      intro hloop
      simp [hpc, Pc.looping] at hloop
  | fread hpc =>
      refine ⟨hline, ?_⟩
      intro hloop
      split at hloop <;> cases hloop
  | send _ _ | fclose _ | unlock _ | close _ | clear _ | complete _ =>
      refine ⟨hline, ?_⟩
      intro hloop
      cases hloop

/-- However stdio cuts what was written, a newline is at the end of a piece. -/
theorem Session.Lines.pieces {M : ℕ} {log₀ : TermLog UInt8} {s : Session} (h : s.Lines)
    (hsound : s.Sound M log₀) : ∀ d ∈ s.conn.handed, Piece newline d := by
  intro d hd
  have hne := hsound.pieces d hd
  refine ⟨hne, fun hmem => h.line ?_⟩
  obtain ⟨as, bs, hsplit⟩ := List.append_of_mem hd
  rw [← hsound.bytes, Conn.written, hsplit]
  simp only [List.flatten_append, List.flatten_cons, List.append_assoc]
  rw [List.dropLast_append_of_ne_nil (by simp [hne]), List.mem_append]
  right
  by_cases hrest : bs.flatten ++ (s.conn.unwritten ++ s.pc.inflight) = []
  · rwa [hrest, List.append_nil]
  · rw [List.dropLast_append_of_ne_nil hrest]
    exact List.mem_append_left _ (List.mem_of_mem_dropLast hmem)

end Aesd
