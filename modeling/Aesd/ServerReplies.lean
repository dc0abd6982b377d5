/-
**What every client is sent, whatever it sends.**

`server_serialised` is about clients that send lines, and `seek_command` about one that sends a seek
command and nothing else.  A client may send anything: lines and parts of lines, seek commands
between them, newlines in the middle of a chunk; and what it is sent depends on all of it, and on
the clients before it.

A handler looks at its packet chunk by chunk until one has a newline.  Up to there nothing with a
newline can have reached the device, so all seek requests of a packet are served on the commands
that were stored when the handler got the mutex, even if the data around them went there first.  The
reply is what is stored when the data of the packet has been added, from the position on to which
the requests have moved.

* `requests`, `seekedTo`, `replyTo` — the seek requests of a packet, the position to which they
  move, and the reply;
* `Conn.Collects`, `Session.Stage`, `Session.Stage.step` — a handler that has the mutex, at each of
  its calls;
* `Server.Serial.stored` — what the device has stored after some connections;
* `server_replies` — **what is stored, and what every client is sent.**
-/

import Aesd.LogDevice
import Aesd.ServerReply

set_option relaxedAutoImplicit false
set_option autoImplicit false

namespace Aesd

open TermLog

/-! ### What a packet asks for -/

/-- The seek request in a chunk, if it is a seek command. -/
def requestOf (bytes : List UInt8) : Option AesdSeekto :=
  if startsWithKeyword bytes then (parseSeekto (recvBuffer bytes)).map Prod.fst else none

/-- The seek requests in the chunks of a packet. -/
def requests (chunks : List (List UInt8)) : List AesdSeekto := chunks.filterMap requestOf

/-- A chunk that starts with the keyword, and in which the code does not find two numbers. -/
def Malformed (bytes : List UInt8) : Prop :=
  startsWithKeyword bytes = true ∧ parseSeekto (recvBuffer bytes) = none

/-- A file that was just opened, after these seek requests. -/
def seekedTo (commands : List (List UInt8)) (seeks : List AesdSeekto) : File :=
  seeks.foldl (fun filp seek => (logSeek commands filp seek).1) ⟨true, 0⟩

/-- Where the answer to a packet starts, if these are the chunks and this was stored before. -/
def replyStart (before : TermLog UInt8) (chunks : List (List UInt8)) : ℕ :=
  (seekedTo before.entries (requests chunks)).fPos.toNat

/-- **What a connection is sent**: nothing, if no newline arrived; otherwise what is stored with its
data, from the position on to which its seek commands have moved. -/
def replyTo (before after : TermLog UInt8) (chunks : List (List UInt8)) : List UInt8 :=
  if newline ∈ chunks.flatten then after.entries.flatten.drop (replyStart before chunks) else []

/-- A request moves the position inside what is stored, or not at all. -/
theorem seekedTo_eq (commands : List (List UInt8)) (seeks : List AesdSeekto) :
    ∃ p : ℕ, seekedTo commands seeks = ⟨true, p⟩ ∧ p ≤ commands.flatten.length := by
  induction seeks using List.reverseRecOn with
  | nil => exact ⟨0, rfl, Nat.zero_le _⟩
  | append_singleton seeks seek ih =>
      obtain ⟨p, hp, hle⟩ := ih
      have hsnoc : seekedTo commands (seeks ++ [seek]) = (logSeek commands ⟨true, p⟩ seek).1 := by
        rw [← hp, seekedTo, List.foldl_append]
        rfl
      have hopen : (logSeek commands ⟨true, p⟩ seek).1.privateData = true := by
        rw [logSeek]
        split
        · rfl
        · split <;> rfl
      rw [hsnoc]
      rcases logSeek_fPos commands ⟨true, p⟩ seek with heq | ⟨q, heq, hq⟩
      · exact ⟨p, congrArg₂ File.mk hopen heq, hle⟩
      · exact ⟨q, congrArg₂ File.mk hopen heq, hq⟩

theorem seekedTo_replyStart (before : TermLog UInt8) (chunks : List (List UInt8)) :
    seekedTo before.entries (requests chunks) = ⟨true, replyStart before chunks⟩ := by
  obtain ⟨p, hp, -⟩ := seekedTo_eq before.entries (requests chunks)
  rw [replyStart, hp]
  rfl

theorem replyStart_le (before : TermLog UInt8) (chunks : List (List UInt8)) :
    replyStart before chunks ≤ before.entries.flatten.length := by
  obtain ⟨p, hp, hle⟩ := seekedTo_eq before.entries (requests chunks)
  rw [replyStart, hp]
  exact hle

/-! ### The chunks of a packet, one after the other -/

theorem requests_data (chunks : List (List UInt8)) {bytes : List UInt8}
    (hkey : startsWithKeyword bytes = false) : requests (chunks ++ [bytes]) = requests chunks := by
  simp [requests, requestOf, hkey]

theorem requests_seek (chunks : List (List UInt8)) {bytes buffer : List UInt8} {seek : AesdSeekto}
    (hkey : startsWithKeyword bytes = true)
    (hparse : parseSeekto (recvBuffer bytes) = some (seek, buffer)) :
    requests (chunks ++ [bytes]) = requests chunks ++ [seek] := by
  simp [requests, requestOf, hkey, hparse]

/-- `strtok_r` overwrites no newline, and writes none. -/
theorem parseSeekto_newline {mem buffer : List UInt8} {seek : AesdSeekto}
    (h : parseSeekto mem = some (seek, buffer)) (i : ℕ) :
    buffer[i]? = some newline ↔ mem[i]? = some newline := by
  simp only [parseSeekto, Option.bind_eq_bind, Option.bind_eq_some_iff, Option.some.injEq,
    Prod.mk.injEq] at h
  obtain ⟨⟨_, mem₁, save₁⟩, h₁, ⟨_, mem₂, save₂⟩, h₂, _, -, ⟨_, mem₃, save₃⟩, h₃, _, -, -, rfl⟩ := h
  have hnl : newline ≠ 0 := by decide
  have hdelim : newline ∉ delimiter := by decide
  rw [CString.strtokR_getElem? h₃ hnl hdelim, CString.strtokR_getElem? h₂ hnl hdelim,
    CString.strtokR_getElem? h₁ hnl hdelim]

/-- Where the loop goes on behind a seek command. -/
theorem afterChunk_parsed {bytes buffer : List UInt8} {seek : AesdSeekto}
    (hparse : parseSeekto (recvBuffer bytes) = some (seek, buffer)) :
    afterChunk true buffer bytes.length
      = if newline ∈ bytes then .reading else .receiving := by
  have hmem : newline ∈ buffer.take bytes.length ↔ newline ∈ bytes := by
    conv_rhs => rw [← take_recvBuffer bytes]
    simp only [List.mem_iff_getElem?, List.getElem?_take]
    refine exists_congr ?_
    intro i
    split
    · exact parseSeekto_newline hparse i
    · rfl
  simp only [afterChunk, CString.memchr_isSome, hmem, if_true]

/-! ### A handler that has the mutex -/

/-- **A handler collects its packet**, over the log `log₀`: it has dealt with these chunks, none of
which has a newline. -/
structure Conn.Collects (log₀ : TermLog UInt8) (c : Conn) (chunks : List (List UInt8)) : Prop where
  fresh : c.Fresh (replyStart log₀ chunks)
  seeks : c.seeks = requests chunks
  incomplete : newline ∉ chunks.flatten
  written : newline ∉ c.written

/-- A handler answers its packet. -/
structure Session.Answers (log₀ : TermLog UInt8) (s : Session) : Prop where
  answering : s.Answering (replyStart log₀ s.conn.delivered)
  seeks : s.conn.seeks = requests s.conn.delivered
  complete : newline ∈ s.conn.delivered.flatten

/-- A handler leaves without an answer. -/
structure Session.Leaves (s : Session) : Prop where
  flushed : s.pc = .closingFile ∨ s.conn.unwritten = []
  accepted : s.conn.accepted = []
  seeks : s.conn.seeks = requests s.conn.delivered
  incomplete : newline ∉ s.conn.delivered.flatten

/-- **A handler at each of its calls**, over the log `log₀` that the device had when the handler got
the mutex. -/
def Session.Stage (log₀ : TermLog UInt8) (s : Session) : Prop :=
  match s.pc with
  | .locking | .opening => s.conn = .init
  | .receiving => s.conn.Collects log₀ s.conn.delivered
  | .writing buffer n => ∃ chunks bytes, s.conn.delivered = chunks ++ [bytes] ∧
      s.conn.Collects log₀ chunks ∧ startsWithKeyword bytes = false ∧
      buffer = recvBuffer bytes ∧ n = bytes.length
  | .seeking seek buffer n => ∃ chunks bytes, s.conn.delivered = chunks ++ [bytes] ∧
      s.conn.Collects log₀ chunks ∧ startsWithKeyword bytes = true ∧
      parseSeekto (recvBuffer bytes) = some (seek, buffer) ∧ n = bytes.length
  | .reading | .sending _ => s.Answers log₀
  | .closingFile | .unlocking | .closingClient | .clearing | .completing | .done =>
      s.Answers log₀ ∨ s.Leaves
  | .crashed => ∃ bytes ∈ s.conn.delivered, Malformed bytes
  | .rewinding => False

variable {M : ℕ} {P : List (List UInt8) → Recv → Prop} {log₀ : TermLog UInt8} {s s' : Session}
  {e : Event}

/-- While a packet is collected, the commands are those that were stored before it. -/
theorem Conn.Collects.commands {chunks : List (List UInt8)} (h : s.conn.Collects log₀ chunks)
    (hsound : s.Sound M log₀) : s.kern.commands = log₀.entries := by
  have hmem : newline ∉ s.conn.handed.flatten := fun hmem =>
    h.written (List.mem_append_left _ hmem)
  have hlog := hsound.log
  rw [feeds_of_notMem hsound.pieces hmem] at hlog
  exact congrArg TermLog.entries hlog

/-- What was received stays as it is, and nothing was read. -/
theorem Conn.Collects.of_eq {c c' : Conn} {chunks : List (List UInt8)} (h : c.Collects log₀ chunks)
    (hfresh : c'.Fresh (replyStart log₀ chunks)) (hseeks : c'.seeks = c.seeks)
    (hwritten : c'.written = c.written) : c'.Collects log₀ chunks :=
  ⟨hfresh, hseeks.trans h.seeks, h.incomplete, hwritten ▸ h.written⟩

/-- An answer goes on as long as nothing is received. -/
theorem Session.Answers.step (h : s.Answers log₀) (hM : 10 * M < 2 ^ 31)
    (hlog₀ : log₀.entries.flatten.length < 2 ^ 31) (hsound : s.Sound M log₀) (hm : s.Moves M e s')
    (hdelivered : s'.conn.delivered = s.conn.delivered) (hseeks : s'.conn.seeks = s.conn.seeks) :
    s'.Answers log₀ := by
  have hle := replyStart_le log₀ s.conn.delivered
  refine ⟨?_, ?_, ?_⟩
  · rw [hdelivered]
    exact h.answering.step (by omega) hsound.inv (hsound.inv.flat_le.trans_lt hM) hm
  · rw [hseeks, hdelivered, h.seeks]
  · rw [hdelivered]
    exact h.complete

theorem Session.Answers.stage (h : s.Answers log₀) : s.Stage log₀ := by
  have hans := h.answering
  unfold Session.Answering at hans
  unfold Session.Stage
  cases hpc : s.pc with
  | reading | sending => exact h
  | closingFile | unlocking | closingClient | clearing | completing | done => exact Or.inl h
  | _ => simp only [hpc] at hans

theorem Session.Leaves.stage (h : s.Leaves) (hleave : s.pc.leaving = true) : s.Stage log₀ := by
  unfold Session.Stage
  cases hpc : s.pc with
  | closingFile | unlocking | closingClient | clearing | completing | done => exact Or.inr h
  | _ => simp [hpc, Pc.leaving] at hleave

/-- A chunk was dealt with: the packet is complete, and the handler answers, or it receives the next
one. -/
theorem Conn.Collects.dealt {conn : Conn} {chunks : List (List UInt8)} {bytes : List UInt8}
    {kern : Kernel} (hdelivered : conn.delivered = chunks ++ [bytes])
    (hincomplete : newline ∉ chunks.flatten) (hfresh : conn.Fresh (replyStart log₀ conn.delivered))
    (hseeks : conn.seeks = requests conn.delivered)
    (hwritten : newline ∉ bytes → newline ∉ conn.written) :
    Session.Stage log₀ ⟨if newline ∈ bytes then .reading else .receiving, conn, kern⟩ := by
  have hmem : newline ∈ conn.delivered.flatten ↔ newline ∈ bytes := by
    simp [hdelivered, hincomplete]
  by_cases hnl : newline ∈ bytes
  · rw [if_pos hnl]
    exact ⟨Or.inl hfresh, hseeks, hmem.2 hnl⟩
  · rw [if_neg hnl]
    exact ⟨hfresh, hseeks, fun hc => hnl (hmem.1 hc), hwritten hnl⟩

/-- **A call that succeeds leads from one stage to the next.** -/
theorem Session.Stage.step (h : s.Stage log₀) (hM : 10 * M < 2 ^ 31)
    (hlog₀ : log₀.entries.flatten.length < 2 ^ 31) (hsound : s.Sound M log₀)
    (hm : s.Moves M e s') : s'.Stage log₀ := by
  have hanswers : s.Answers log₀ → s'.conn.delivered = s.conn.delivered →
      s'.conn.seeks = s.conn.seeks → s'.Stage log₀ := fun hans hdelivered hseeks =>
    (hans.step hM hlog₀ hsound hm hdelivered hseeks).stage
  unfold Session.Stage at h
  cases hm with
  | lock hpc =>
      simp only [hpc] at h
      exact h
  | fopen hpc =>
      simp only [hpc] at h
      simp only [Session.Stage, h]
      exact ⟨⟨rfl, rfl, rfl, rfl⟩, rfl, List.not_mem_nil, List.not_mem_nil⟩
  | recv bytes hpc =>
      simp only [hpc] at h
      have hcollects : Conn.Collects log₀ { s.conn with
          delivered := s.conn.delivered ++ [bytes] } s.conn.delivered :=
        h.of_eq ⟨h.fresh.accepted, h.fresh.ahead, h.fresh.eof, h.fresh.filp⟩ rfl rfl
      by_cases hkey : startsWithKeyword bytes = true
      · rw [afterRecv, if_pos ⟨rfl, hkey⟩]
        split
        · next hparse =>
            exact ⟨bytes, List.mem_append_right _ (List.mem_singleton_self _), hkey, hparse⟩
        · next hparse => exact ⟨_, bytes, rfl, hcollects, hkey, hparse, rfl⟩
      · rw [afterRecv, if_neg fun hc => hkey hc.2]
        exact ⟨_, bytes, rfl, hcollects, Bool.eq_false_iff.2 hkey, rfl, rfl⟩
  | closed res hpc =>
      simp only [hpc] at h
      exact Or.inr ⟨Or.inl rfl, h.fresh.accepted, h.seeks, h.incomplete⟩
  | ioctl seek buffer n filp res hpc hioctl =>
      simp only [hpc] at h
      obtain ⟨chunks, bytes, hdelivered, hcollects, hkey, hparse, rfl⟩ := h
      have hfilp := hcollects.fresh.filp
      -- the request is served on the commands that were stored before the packet
      rw [hsound.inv.aesdIoctl_eq (hsound.inv.flat_le.trans_lt hM), hcollects.commands hsound,
        hfilp] at hioctl
      have hfilp' : filp = seekedTo log₀.entries (requests (chunks ++ [bytes])) := by
        rw [requests_seek chunks hkey hparse, seekedTo, List.foldl_append]
        rw [show (requests chunks).foldl (fun filp seek => (logSeek log₀.entries filp seek).1)
          ⟨true, 0⟩ = ⟨true, replyStart log₀ chunks⟩ from seekedTo_replyStart log₀ chunks]
        exact (Prod.mk.inj (Except.ok.inj hioctl)).1.symm
      rw [seekedTo_replyStart] at hfilp'
      rw [afterChunk_parsed hparse]
      refine Conn.Collects.dealt hdelivered hcollects.incomplete ?_ ?_ fun _ => hcollects.written
      · rw [hdelivered]
        exact ⟨hcollects.fresh.accepted, hcollects.fresh.ahead, hcollects.fresh.eof, hfilp'⟩
      · rw [hdelivered, requests_seek chunks hkey hparse, ← hcollects.seeks]
  | fwrite buffer n hpc =>
      simp only [hpc] at h
      obtain ⟨chunks, bytes, hdelivered, hcollects, hkey, rfl, rfl⟩ := h
      have hrequests := requests_data chunks hkey
      rw [afterChunk_recvBuffer, if_pos rfl]
      refine Conn.Collects.dealt hdelivered hcollects.incomplete ?_ ?_ ?_
      · rw [hdelivered, replyStart, hrequests]
        exact ⟨hcollects.fresh.accepted, hcollects.fresh.ahead, hcollects.fresh.eof,
          hcollects.fresh.filp⟩
      · rw [hdelivered, hrequests, ← hcollects.seeks]
      · intro hnl
        have hwritten := hcollects.written
        simp only [Conn.written, take_recvBuffer, List.mem_append, not_or] at hwritten ⊢
        exact ⟨hwritten.1, hwritten.2, hnl⟩
  | flush n env kern res hopen hpos hle =>
      -- the bytes only go from the stream to the device
      have hcollects : ∀ chunks, s.conn.Collects log₀ chunks → Conn.Collects log₀ { s.conn with
          unwritten := s.conn.unwritten.drop n
          handed := s.conn.handed ++ [s.conn.unwritten.take n] } chunks := by
        intro chunks h
        refine h.of_eq ⟨h.fresh.accepted, h.fresh.ahead, h.fresh.eof, h.fresh.filp⟩ rfl ?_
        simp [Conn.written]
      obtain ⟨pc, conn, kern₀⟩ := s
      cases pc with
      | receiving => exact hcollects _ h
      | writing buffer n | seeking seek buffer n =>
          obtain ⟨chunks, bytes, hdelivered, h, hrest⟩ := h
          exact ⟨chunks, bytes, hdelivered, hcollects _ h, hrest⟩
      | reading | sending data => exact hanswers h rfl rfl
      | closingFile =>
          rcases h with h | h
          · exact hanswers h rfl rfl
          · exact Session.Leaves.stage ⟨Or.inl rfl, h.accepted, h.seeks, h.incomplete⟩ rfl
      | rewinding => exact h.elim
      | locking | opening | unlocking | closingClient | clearing | completing | done | crashed =>
          cases hopen
  | fill count r hpc | fread hpc | send data hpc =>
      simp only [hpc] at h
      exact hanswers h rfl rfl
  | fclose hpc hflushed =>
      simp only [hpc] at h
      rcases h with h | h
      · exact hanswers h rfl rfl
      · exact Session.Leaves.stage ⟨Or.inr hflushed, h.accepted, h.seeks, h.incomplete⟩ rfl
  | unlock hpc | close hpc | clear hpc | complete hpc =>
      simp only [hpc] at h
      rcases h with h | h
      · exact hanswers h rfl rfl
      · have hflushed : s.conn.unwritten = [] := h.flushed.resolve_left (by simp [hpc])
        exact Session.Leaves.stage ⟨Or.inr hflushed, h.accepted, h.seeks, h.incomplete⟩ rfl

/-- A handler that has closed its file: its data is with the device, its requests were made, and its
reply was sent. -/
theorem Session.Stage.finished (h : s.Stage log₀) (hsound : s.Sound M log₀)
    (hleft : s.pc.leaving = true) (hclosed : s.pc ≠ .closingFile) :
    s.conn.handed.flatten = s.conn.payload ∧ s.conn.seeks = requests s.conn.delivered ∧
      s.conn.accepted = replyTo log₀ s.kern.log s.conn.delivered := by
  have hwritten : s.conn.written = s.conn.payload := by
    refine hsound.written_eq ?_
    cases hpc : s.pc with
    | writing => simp [hpc, Pc.leaving] at hleft
    | _ => rfl
  have hends : s.Answers log₀ ∨ s.Leaves := by
    unfold Session.Stage at h
    cases hpc : s.pc <;> simp only [hpc, Pc.leaving, Bool.false_eq_true] at h hleft <;> exact h
  have hhanded : s.conn.unwritten = [] → s.conn.handed.flatten = s.conn.payload := by
    intro hnil
    rw [← hwritten, Conn.written, hnil, List.append_nil]
  rcases hends with h | h
  · obtain ⟨hflushed, haccepted⟩ := h.answering.sent hleft
    refine ⟨hhanded hflushed, h.seeks, ?_⟩
    rw [haccepted, replyTo, if_pos h.complete]
    rfl
  · refine ⟨hhanded (h.flushed.resolve_left hclosed), h.seeks, ?_⟩
    rw [h.accepted, replyTo, if_neg h.incomplete]

/-- A connection alone with the device. -/
theorem Session.stage_of_reach {k : Kernel} (hM : 10 * M < 2 ^ 31) (hinv : k.Inv M)
    (hint : k.Intact) (h : (session M).Reach (Session.Guard M P) (Session.init k) s) :
    s.Sound M k.log ∧ s.Stage k.log := by
  refine h.invariant (I := fun s => s.Sound M k.log ∧ s.Stage k.log) ⟨.init hinv hint, rfl⟩ ?_
  intro s e s' o ⟨hsound, hstage⟩ hok hstep
  have hm := Session.guard_moves hstep hok
  exact ⟨hsound.step hm, hstage.step hM (hinv.flat_le.trans_lt hM) hsound hm⟩

/-! ### The connections of the server -/

variable {t : List (Act × List UInt8)} {srv : Server}

/-- What is stored when these connections have had the device, one after the other. -/
def Server.stored (srv : Server) (is : List ℕ) : TermLog UInt8 :=
  feeds 10 newline empty (is.flatMap fun i => (srv.conn i).handed)

/-- **The device of a serial run**, whatever the clients send. -/
theorem Server.Serial.stored {is : List ℕ} {k : Kernel} (hM : 10 * M < 2 ^ 31)
    (h : srv.Serial M P .init is k) : k.Inv M ∧ k.Intact ∧ k.log = srv.stored is := by
  induction h with
  | nil => exact ⟨Kernel.Inv.init M, Kernel.Intact.init, rfl⟩
  | @snoc is i k k' pc _ hpc hreach ih =>
      obtain ⟨hinv, hint, hlog⟩ := ih
      obtain ⟨hsound, -⟩ := Session.stage_of_reach hM hinv hint hreach
      refine ⟨hsound.inv, hsound.intact, ?_⟩
      have hfeeds : k'.log = feeds 10 newline k.log (srv.conn i).handed := hsound.log
      rw [hfeeds, hlog, Server.stored, Server.stored, List.flatMap_append, feeds_append,
        List.flatMap_singleton]

/-- Every connection that got the mutex, over what was stored then. -/
theorem Server.Ordered.stage {pre post : List ℕ} {i : ℕ} (hM : 10 * M < 2 ^ 31)
    (h : srv.Ordered M P t) (hi : acquired t = pre ++ i :: post) :
    ∃ pc k, srv.pc i = some pc ∧ Session.Sound M (srv.stored pre) ⟨pc, srv.conn i, k⟩ ∧
      Session.Stage (srv.stored pre) ⟨pc, srv.conn i, k⟩ ∧ k.log = srv.stored (pre ++ [i]) := by
  have hserial := h.serial
  rw [hi] at hserial
  obtain ⟨k, hcut⟩ := hserial.cut
  obtain ⟨k₁, pc, hbefore, hpc, hreach⟩ := hcut.last
  obtain ⟨-, -, hlog⟩ := hcut.stored hM
  obtain ⟨hinv, hint, hlog₁⟩ := hbefore.stored hM
  obtain ⟨hsound, hstage⟩ := Session.stage_of_reach hM hinv hint hreach
  rw [hlog₁] at hsound hstage
  exact ⟨pc, k, hpc, hsound, hstage, hlog⟩

/-- The handler that has the mutex, with the device as it is. -/
theorem Server.Ordered.holder {i : ℕ} (hM : 10 * M < 2 ^ 31) (h : srv.Ordered M P t)
    (howner : srv.threads.owner = some i) :
    ∃ pc log₀, srv.pc i = some pc ∧ log₀.entries.flatten.length < 2 ^ 31 ∧
      Session.Sound M log₀ ⟨pc, srv.conn i, srv.kern⟩ ∧
      Session.Stage log₀ ⟨pc, srv.conn i, srv.kern⟩ := by
  obtain ⟨pre, hpre⟩ := h.newest i howner
  have hserial := h.serial
  rw [hpre] at hserial
  obtain ⟨k₁, pc, hbefore, hpc, hreach⟩ := hserial.last
  obtain ⟨hinv, hint, -⟩ := hbefore.stored hM
  obtain ⟨hsound, hstage⟩ := Session.stage_of_reach hM hinv hint hreach
  exact ⟨pc, k₁.log, hpc, hinv.flat_le.trans_lt hM, hsound, hstage⟩

/-- Every handler that is past its lock, over what was stored when it got the mutex. -/
theorem Server.Ordered.past_lock {i : ℕ} {pc : Pc} (hM : 10 * M < 2 ^ 31) (h : srv.Ordered M P t)
    (hpc : srv.pc i = some pc) (hphase : pc.phase ≠ .before) : ∃ pre post k,
      acquired t = pre ++ i :: post ∧ Session.Sound M (srv.stored pre) ⟨pc, srv.conn i, k⟩ ∧
      Session.Stage (srv.stored pre) ⟨pc, srv.conn i, k⟩ ∧ k.log = srv.stored (pre ++ [i]) := by
  obtain ⟨pre, post, hpre⟩ := List.append_of_mem ((h.mem i).2 ⟨pc, hpc, hphase⟩)
  obtain ⟨pc₁, k, hpc₁, hsound, hstage, hlog⟩ := h.stage hM hpre
  obtain rfl := Option.some.inj (hpc.symm.trans hpc₁)
  exact ⟨pre, post, k, hpre, hsound, hstage, hlog⟩

/-- **A handler that has released the mutex** has handed over its data, has made its requests and
has sent its reply. -/
theorem Server.Ordered.replied {i : ℕ} {pc : Pc} (hM : 10 * M < 2 ^ 31) (h : srv.Ordered M P t)
    (hpc : srv.pc i = some pc) (hafter : pc.phase = .after) : ∃ pre post,
      acquired t = pre ++ i :: post ∧ (srv.conn i).handed.flatten = (srv.conn i).payload ∧
      (srv.conn i).seeks = requests (srv.conn i).delivered ∧
      (srv.conn i).accepted
        = replyTo (srv.stored pre) (srv.stored (pre ++ [i])) (srv.conn i).delivered := by
  obtain ⟨pre, post, k, hpre, hsound, hstage, hlog⟩ := h.past_lock hM hpc (by simp [hafter])
  have hleft : pc.leaving = true ∧ pc ≠ .closingFile := by
    cases pc <;> simp [Pc.phase, Pc.leaving] at hafter ⊢
  have hfinished := hstage.finished hsound hleft.1 hleft.2
  rw [hlog] at hfinished
  exact ⟨pre, post, hpre, hfinished⟩

/-- **What is stored, and what every client is sent**, whatever the clients send, in whatever order
the handlers make their calls and however stdio cuts the bytes.  The device has stored the pieces of
the data of the connections, in the order in which they got the mutex.  A handler that has released
the mutex has handed over the data of its packet, all of it and in order, has made the requests that
are in it, and has sent the reply to it; and a handler crashes at a malformed seek command only. -/
theorem server_replies (hM : 10 * M < 2 ^ 31)
    (h : (server M).Trace (Server.Guard M P) Server.init t srv) :
    (acquired t).Nodup ∧ srv.kern.log = srv.stored (acquired t) ∧
    (∀ i pc, srv.pc i = some pc → pc.phase = .after → ∃ pre post,
      acquired t = pre ++ i :: post ∧ (srv.conn i).handed.flatten = (srv.conn i).payload ∧
      (srv.conn i).seeks = requests (srv.conn i).delivered ∧
      (srv.conn i).accepted
        = replyTo (srv.stored pre) (srv.stored (pre ++ [i])) (srv.conn i).delivered) ∧
    ∀ i, srv.pc i = some .crashed → ∃ bytes ∈ (srv.conn i).delivered, Malformed bytes := by
  have hord := server_serial h
  refine ⟨hord.nodup, (hord.serial.stored hM).2.2, fun i pc hpc => hord.replied hM hpc, ?_⟩
  intro i hpc
  obtain ⟨_, _, _, -, -, hcrashed, -⟩ := hord.past_lock hM hpc (by simp [Pc.phase])
  exact hcrashed

/-- A client sends a line; another one sends a byte, and then a seek command, to the second byte of
that line. -/
def lineThenSeek : List Act :=
  [.accept 0, .accept 1] ++
    ([.lock 0, .fopen true, .recv (.chunk [97, 98, 10]), .fwrite,
      .flush 3 ⟨false, ⟨some 0, fun _ => 7⟩, 0⟩, .fill 512 ⟨false, 0⟩, .fill 512 ⟨false, 0⟩,
      .fread [97, 98, 10], .send 3, .fread [], .fclose, .unlock] : List Event).map
        (fun e => .call 0 (.handler e)) ++
    ([.lock 0, .fopen true, .recv (.chunk [99]), .fwrite, .recv (.chunk (seekPacket 0 1)),
      .ioctl false, .flush 1 ⟨false, ⟨some 1, fun _ => 7⟩, 0⟩, .fill 512 ⟨false, 0⟩,
      .fill 512 ⟨false, 0⟩, .fread [98, 10], .send 2, .fread [], .fclose, .unlock] :
        List Event).map (fun e => .call 1 (.handler e))

theorem server_replies_lineThenSeek :
    ∃ t srv, (server 64).Trace (Server.Guard 64 anyChunks) Server.init t srv ∧
      srv.kern.log = ⟨[99], [[97, 98, 10]]⟩ ∧ (srv.conn 1).seeks = [⟨0, 1⟩] ∧
      (srv.conn 1).accepted = [98, 10] ∧
      (srv.conn 1).accepted
        = replyTo (srv.stored [0]) (srv.stored [0, 1]) (srv.conn 1).delivered := by
  have hex : ∃ p, (server 64).run Server.init lineThenSeek = some p :=
    Option.isSome_iff_exists.1 (by decide +kernel)
  obtain ⟨⟨srv, os⟩, hrun⟩ := hex
  have hlog : srv.kern.log = ⟨[99], [[97, 98, 10]]⟩ :=
    Machine.run_map hrun (fun p => p.1.kern.log) (by decide +kernel)
  have hacquired : acquired (lineThenSeek.zip os) = [0, 1] :=
    Machine.run_map hrun (fun p => acquired (lineThenSeek.zip p.2)) (by decide +kernel)
  have hconn : (srv.pc 1, (srv.conn 1).seeks, (srv.conn 1).accepted)
      = (some .closingClient, [⟨0, 1⟩], [98, 10]) :=
    Machine.run_map hrun (fun p => (p.1.pc 1, (p.1.conn 1).seeks, (p.1.conn 1).accepted))
      (by decide +kernel)
  simp only [Prod.mk.injEq] at hconn
  obtain ⟨hpc, hseeks, haccepted⟩ := hconn
  have hpasses : (server 64).Passes (Server.Guard 64 anyChunks) Server.init lineThenSeek := by
    decide +kernel
  have htrace := Machine.trace_of_run hrun hpasses
  obtain ⟨-, -, hreplies, -⟩ := server_replies (by decide) htrace
  obtain ⟨pre, post, hpre, -, -, hreply⟩ := hreplies 1 .closingClient hpc rfl
  -- the other one was first
  obtain ⟨rfl, -⟩ : pre = [0] ∧ post = [] := by
    rw [hacquired] at hpre
    rcases pre with _ | ⟨i, _ | ⟨j, pre⟩⟩ <;> simp_all
  exact ⟨_, srv, htrace, hlog, hseeks, haccepted, hreply⟩

end Aesd
