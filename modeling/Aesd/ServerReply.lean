/-
**What the server stores and what it replies.**

Every run of the server is serial, so what is known of one connection over the device is known of
all of them.  The driver looks for a newline at the end of what it has got, the handler looks for
one anywhere in a chunk, and stdio cuts the bytes in between as it likes.  Where the chunks have
newlines at their ends only, the two agree: the commands that the device stores are the lines of all
bytes written to it, whatever the order of the connections and the cuts.  Where a chunk has bytes
behind its newline, they do not.

* `Session.Lined` — a connection whose chunks have newlines at their ends only;
* `Server.Agrees`, `packet_committed` — the packet is stored when the handler replies, and nothing
  with a newline is pending;
* `newline_stays_pending` — a chunk with a byte behind its newline;
* `Server.Serialised`, `server_serialised` — **the server serialises its connections.**
-/

import Aesd.DataConnection
import Aesd.Segmentation
import Aesd.Server

set_option relaxedAutoImplicit false
set_option autoImplicit false

namespace Aesd

open TermLog

variable {M : ℕ} {P : List (List UInt8) → Recv → Prop} {t : List (Act × List UInt8)} {s : Server}

/-! ### A connection whose chunks have newlines at their ends -/

/-- **A connection whose chunks of data have newlines at their ends only**, over the log `log₀`. -/
structure Session.Lined (M : ℕ) (log₀ : TermLog UInt8) (s : Session) : Prop where
  sound : s.Sound M log₀
  lines : s.Lines
  plain : (∀ d ∈ s.conn.delivered, startsWithKeyword d = false) → s.Plain lineChunks

/-- What was received stays received. -/
theorem Session.Moves.received {s s' : Session} {e : Event} (hm : s.Moves M e s') :
    (∀ bytes, e = .recv (.chunk bytes) → bytes ∈ s'.conn.delivered) ∧
      ∀ d ∈ s.conn.delivered, d ∈ s'.conn.delivered := by
  cases hm with
  | recv bytes =>
      refine ⟨?_, fun d hd => List.mem_append_left _ hd⟩
      intro bytes' he
      obtain rfl := Recv.chunk.inj (Event.recv.inj he)
      exact List.mem_append_right _ (List.mem_singleton_self _)
  | closed res hpc hres =>
      exact ⟨fun bytes he => absurd (Event.recv.inj he) (hres bytes), fun d hd => hd⟩
  | _ => exact ⟨fun bytes => nofun, fun d hd => hd⟩

theorem Session.Lined.of_reach {k : Kernel} {s : Session} (hinv : k.Inv M) (hint : k.Intact)
    (hM : 10 * M < 2 ^ 31)
    (h : (session M).Reach (Session.Guard M lineChunks) (Session.init k) s) :
    s.Lined M k.log := by
  refine h.invariant ⟨.init hinv hint, .init k, fun _ => .starting (Or.inl rfl) rfl⟩ ?_
  intro s e s' o ⟨hsound, hlines, hplain⟩ hok hstep
  have hm := Session.guard_moves hstep hok
  obtain ⟨hnew, hold⟩ := hm.received
  refine ⟨hsound.step hm, hlines.step hsound hok.2 hm, ?_⟩
  intro hdata
  exact (hplain fun d hd => hdata d (hold d hd)).step hM hsound
    (fun bytes he => hdata bytes (hnew bytes he)) hok.2 hm

/-- Where a newline was received, and nothing is about to be written, the handler answers. -/
theorem Session.Plain.answers {log₀ : TermLog UInt8} {s : Session} (h : s.Plain P)
    (hsound : s.Sound M log₀) (hpc : s.pc.inflight = []) (hmem : newline ∈ s.conn.payload) :
    s.Answering 0 := by
  cases h with
  | starting _ hconn =>
      rw [hconn] at hmem
      cases hmem
  | collecting _ _ hnl =>
      rw [← hsound.written_eq hpc] at hmem
      exact absurd hmem hnl
  | answering hans => exact hans
  | aborted _ _ _ hnl => exact absurd hmem hnl

/-! ### The connections of the server -/

/-- The bytes that a connection received. -/
def Server.received (s : Server) (i : ℕ) : List UInt8 := (s.conn i).delivered.flatten

/-- The last ten complete lines of a byte history. -/
def lastTenLines (h : List UInt8) : List UInt8 := ((history newline h).keep 10).entries.flatten

/-- The device of a serial run. -/
theorem Server.Serial.device {is : List ℕ} {k : Kernel} (hM : 10 * M < 2 ^ 31)
    (h : s.Serial M lineChunks .init is k) :
    k.Inv M ∧ k.Intact ∧ k.log = (history newline (is.flatMap s.block)).keep 10 ∧
      k.log = feeds 10 newline empty (is.flatMap fun i => (s.conn i).handed) ∧
      ∀ i ∈ is, ∀ d ∈ (s.conn i).handed, Piece newline d := by
  have hall : k.Inv M ∧ k.Intact ∧
      k.log = feeds 10 newline empty (is.flatMap fun i => (s.conn i).handed) ∧
      ∀ i ∈ is, ∀ d ∈ (s.conn i).handed, Piece newline d := by
    induction h with
    | nil => exact ⟨Kernel.Inv.init M, Kernel.Intact.init, rfl, fun _ => nofun⟩
    | @snoc is i k k' pc _ hpc hreach ih =>
        obtain ⟨hinv, hint, hlog, hpieces⟩ := ih
        have hlined := Session.Lined.of_reach hinv hint hM hreach
        refine ⟨hlined.sound.inv, hlined.sound.intact, ?_, ?_⟩
        · rw [List.flatMap_append, feeds_append, ← hlog]
          simpa using hlined.sound.log
        · intro j hj
          rcases List.mem_append.1 hj with hj | hj
          · exact hpieces j hj
          · rw [List.mem_singleton.1 hj]
            exact hlined.lines.pieces hlined.sound
  obtain ⟨hinv, hint, hlog, hpieces⟩ := hall
  refine ⟨hinv, hint, ?_, hlog, hpieces⟩
  have hlines : ∀ d ∈ is.flatMap fun i => (s.conn i).handed, Piece newline d := by
    intro d hd
    obtain ⟨i, hi, hmem⟩ := List.mem_flatMap.1 hd
    exact hpieces i hi d hmem
  have hblocks : ∀ js : List ℕ,
      (js.flatMap fun i => (s.conn i).handed).flatten = js.flatMap s.block := by
    intro js
    induction js with
    | nil => rfl
    | cons j js ih =>
        rw [List.flatMap_cons, List.flatten_append, ih, List.flatMap_cons, Server.block]
  rw [hlog, feeds_eq_history (by decide) hlines, hblocks]

/-- **Every connection that got the mutex, as a run of its own**, from the device that those before
it left. -/
theorem Server.Ordered.connection {pre post : List ℕ} {i : ℕ} (hM : 10 * M < 2 ^ 31)
    (h : s.Ordered M lineChunks t) (hi : acquired t = pre ++ i :: post) :
    ∃ pc k log₀, s.pc i = some pc ∧ Session.Lined M log₀ ⟨pc, s.conn i, k⟩ ∧
      k.log = (history newline ((pre ++ [i]).flatMap s.block)).keep 10 ∧
      (post = [] → k = s.kern) := by
  have hserial := h.serial
  rw [hi] at hserial
  obtain ⟨k, hcut, hlast⟩ : ∃ k, s.Serial M lineChunks .init (pre ++ [i]) k ∧
      (post = [] → k = s.kern) := by
    by_cases hpost : post = []
    · rw [hpost] at hserial
      exact ⟨s.kern, hserial, fun _ => rfl⟩
    · obtain ⟨k, hk⟩ := hserial.cut
      exact ⟨k, hk, fun hc => absurd hc hpost⟩
  obtain ⟨-, -, hlog, -, -⟩ := hcut.device hM
  obtain ⟨k₁, pc, hbefore, hpc, hreach⟩ := hcut.last
  obtain ⟨hinv, hint, -, -, -⟩ := hbefore.device hM
  exact ⟨pc, k, k₁.log, hpc, Session.Lined.of_reach hinv hint hM hreach, hlog, hlast⟩

/-! ### What completes a packet -/

/-- The handler has seen a newline and is about to read the device, or to send what it read. -/
def Pc.replying : Pc → Bool
  | .reading | .sending _ => true
  | _ => false

/-- **The handlers and the driver agree** on what completes a packet. -/
structure Server.Agrees (s : Server) : Prop where
  /-- Nothing with a newline is pending. -/
  pending : newline ∉ s.kern.log.pending
  /-- A handler that replies to data has received a newline, and once the stream has handed over
  what it holds, as it does before the first read, the packet is the end of the newest stored
  command. -/
  committed : ∀ i pc, s.pc i = some pc → (∀ d ∈ (s.conn i).delivered, startsWithKeyword d = false) →
    pc.replying = true → newline ∈ s.received i ∧ ((s.conn i).unwritten = [] →
      ∃ command, s.kern.log.entries.getLast? = some command ∧ s.received i <:+ command)
  /-- The packet is the end of the reply. -/
  replied : ∀ i pc, s.pc i = some pc → (∀ d ∈ (s.conn i).delivered, startsWithKeyword d = false) →
    pc.leaving = true → newline ∈ s.received i → s.received i <:+ (s.conn i).accepted

/-- The newest command that a log has after a stream that ends with a newline. -/
theorem getLast?_feeds {log₀ : TermLog UInt8} {ds : List (List UInt8)} (hne : ∀ d ∈ ds, d ≠ [])
    (hline : newline ∉ ds.flatten.dropLast) (hmem : newline ∈ ds.flatten) :
    ∃ command, (feeds 10 newline log₀ ds).entries.getLast? = some command ∧
      ds.flatten <:+ command := by
  have hnil : ds.flatten ≠ [] := List.ne_nil_of_mem hmem
  have hlast : ds.flatten = ds.flatten.dropLast ++ [newline] := by
    have hsplit := List.dropLast_append_getLast hnil
    have hend : ds.flatten.getLast hnil = newline := by
      rw [← hsplit, List.mem_append, List.mem_singleton] at hmem
      exact (hmem.resolve_left hline).symm
    rw [← hend, hsplit]
  obtain ⟨K, hK, -⟩ :=
    push_eq_append (n := 10) log₀.entries (log₀.pending ++ ds.flatten) (by decide)
  refine ⟨log₀.pending ++ ds.flatten, ?_, List.suffix_append _ _⟩
  rw [feeds_pieces hne ⟨hnil, hline⟩]
  rw [hlast, feed_concat, ← hlast, hK, List.getLast?_concat]

theorem suffix_flatten {α : Type} {L : List (List α)} {d : List α} (h : L.getLast? = some d) :
    d <:+ L.flatten := by
  obtain ⟨K, rfl⟩ := List.getLast?_eq_some_iff.1 h
  rw [List.flatten_append]
  exact ⟨K.flatten, by simp⟩

/-- The data of a connection whose stream has handed over everything is the end of the newest
command. -/
theorem Session.Lined.committed {log₀ : TermLog UInt8} {s : Session} (h : s.Lined M log₀)
    (hpc : s.pc.inflight = []) (hflushed : s.conn.unwritten = [])
    (hmem : newline ∈ s.conn.payload) :
    ∃ command, s.kern.log.entries.getLast? = some command ∧ s.conn.payload <:+ command := by
  have hhanded : s.conn.handed.flatten = s.conn.payload := by
    rw [← h.sound.written_eq hpc, Conn.written, hflushed, List.append_nil]
  rw [h.sound.log, ← hhanded]
  refine getLast?_feeds h.sound.pieces ?_ ?_
  · rw [hhanded]
    exact h.lines.line
  · rwa [hhanded]

/-- **What completes a packet for the handler completes it for the driver**, in every state that
runs of the server reach whose chunks of data have newlines at their ends only. -/
theorem packet_committed (hM : 10 * M < 2 ^ 31)
    (h : (server M).Trace (Server.Guard M lineChunks) Server.init t s) : s.Agrees := by
  have hord := server_serial h
  constructor
  · obtain ⟨-, -, hlog, -, -⟩ := hord.serial.device hM
    rw [hlog]
    exact notMem_pending_history newline _
  · intro i pc hpc hdata hreply
    have hinside : pc.phase = .inside := by
      cases pc <;> first | rfl | cases hreply
    have hinflight : pc.inflight = [] := by
      cases pc <;> first | rfl | cases hreply
    obtain ⟨pre, hpre⟩ := hord.newest i ((hord.owner_iff hpc).2 hinside)
    obtain ⟨pc₁, k, log₀, hpc₁, hlined, -, hlast⟩ := hord.connection hM hpre
    obtain rfl := Option.some.inj (hpc.symm.trans hpc₁)
    obtain rfl := hlast rfl
    have hpayload : (s.conn i).payload = s.received i := Conn.payload_of_data hdata
    have hmem : newline ∈ (s.conn i).payload := by
      cases hlined.plain hdata with
      | starting hstart => rcases hstart with rfl | rfl <;> cases hreply
      | collecting hcollect => rcases hcollect with rfl | ⟨_, _, rfl⟩ <;> cases hreply
      | answering _ hmem => exact hmem
      | aborted hleft => cases pc <;> simp [Pc.replying, Pc.leaving] at hreply hleft
    rw [← hpayload]
    exact ⟨hmem, fun hflushed => hlined.committed hinflight hflushed hmem⟩
  · intro i pc hpc hdata hleft hmem
    have hphase : pc.phase ≠ .before := by
      intro hphase
      cases pc <;> simp [Pc.phase, Pc.leaving] at hphase hleft
    have hinflight : pc.inflight = [] := by
      cases pc <;> first | rfl | cases hleft
    obtain ⟨pre, post, hpre⟩ := List.append_of_mem ((hord.mem i).2 ⟨pc, hpc, hphase⟩)
    obtain ⟨pc₁, k, log₀, hpc₁, hlined, -, -⟩ := hord.connection hM hpre
    obtain rfl := Option.some.inj (hpc.symm.trans hpc₁)
    have hpayload : (s.conn i).payload = s.received i := Conn.payload_of_data hdata
    rw [← hpayload] at hmem ⊢
    obtain ⟨hflushed, hacc⟩ := ((hlined.plain hdata).answers hlined.sound hinflight hmem).sent hleft
    obtain ⟨command, hcommand, hsuffix⟩ := hlined.committed hinflight hflushed hmem
    rw [show (s.conn i).accepted = k.flat from hacc]
    exact hsuffix.trans (suffix_flatten hcommand)

/-- A connection sends one line in one chunk. -/
theorem packet_committed_one_line :
    ∃ s : Server, s.pc 0 = some .reading ∧ s.kern.log.entries = [[97, 10]] ∧ s.Agrees := by
  have hrun : ((server 64).run Server.init
      [.accept 0, .call 0 (.handler (.lock 0)), .call 0 (.handler (.fopen true)),
        .call 0 (.handler (.recv (.chunk [97, 10]))), .call 0 (.handler .fwrite),
        .call 0 (.handler (.flush 2 ⟨false, ⟨some 0, fun _ => 0⟩, 0⟩))]).map
      (fun p => (p.1.pc 0, p.1.kern.log.entries)) = some (some .reading, [[97, 10]]) := by decide
  obtain ⟨⟨s, os⟩, hrun, hend⟩ := Option.map_eq_some_iff.1 hrun
  obtain ⟨hpc, hentries⟩ := Prod.mk.inj hend
  exact ⟨s, hpc, hentries,
    packet_committed (M := 64) (by decide) (Machine.trace_of_run hrun (by decide))⟩

/-- What `recv` returns when nothing is known of it. -/
def anyChunks (_ : List (List UInt8)) (_ : Recv) : Prop := True

instance (delivered : List (List UInt8)) (res : Recv) : Decidable (anyChunks delivered res) :=
  isTrue trivial

/-- A chunk with a byte behind its newline: the handler replies, the driver waits for the rest, and
the reply is empty. -/
theorem newline_stays_pending :
    ∃ t s, (server 64).Trace (Server.Guard 64 anyChunks) Server.init t s ∧
      s.pc 0 = some .closingFile ∧ (s.conn 0).delivered = [[97, 10, 98]] ∧
      s.kern.log = ⟨[97, 10, 98], []⟩ ∧ (s.conn 0).accepted = [] ∧ ¬ s.Agrees := by
  have hrun : ((server 64).run Server.init
      [.accept 0, .call 0 (.handler (.lock 0)), .call 0 (.handler (.fopen true)),
        .call 0 (.handler (.recv (.chunk [97, 10, 98]))), .call 0 (.handler .fwrite),
        .call 0 (.handler (.flush 3 ⟨false, ⟨some 0, fun _ => 0⟩, 0⟩)),
        .call 0 (.handler (.fill 512 ⟨false, 0⟩)), .call 0 (.handler (.fread []))]).map
      (fun p => (p.1.pc 0, (p.1.conn 0).delivered, p.1.kern.log, (p.1.conn 0).accepted))
      = some (some .closingFile, [[97, 10, 98]], ⟨[97, 10, 98], []⟩, []) := by decide
  obtain ⟨⟨s, os⟩, hrun, hend⟩ := Option.map_eq_some_iff.1 hrun
  simp only [Prod.mk.injEq] at hend
  obtain ⟨hpc, hdelivered, hlog, hacc⟩ := hend
  refine ⟨_, s, Machine.trace_of_run hrun (by decide), hpc, hdelivered, hlog, hacc, ?_⟩
  intro h
  have hpending := h.pending
  rw [hlog] at hpending
  exact hpending (by decide)

/-! ### One connection after the other -/

/-- What `recv` returns when connections send lines: no chunk starts with the keyword, and a newline
is the last byte of its chunk. -/
def dataLines (delivered : List (List UInt8)) : Recv → Prop
  | .chunk bytes => startsWithKeyword bytes = false ∧ lineChunks delivered (.chunk bytes)
  | _ => True

instance (delivered : List (List UInt8)) : (res : Recv) → Decidable (dataLines delivered res)
  | .chunk _ => inferInstanceAs (Decidable (_ ∧ _))
  | .closed | .failed => isTrue trivial

/-- **The server serialises its connections.** -/
structure Server.Serialised (M : ℕ) (t : List (Act × List UInt8)) (s : Server) : Prop where
  /-- No connection gets the mutex twice. -/
  once : (acquired t).Nodup
  /-- The bytes written to the device are one block for each connection, in the order in which they
  got the mutex. -/
  blocks : written t = (acquired t).flatMap s.block
  /-- The block of a connection is what it received, up to what was not handed over yet. -/
  block_prefix : ∀ i, s.block i <+: s.received i
  /-- When the file is closed it is all that the connection received. -/
  block_eq : ∀ i pc, s.pc i = some pc → pc.phase = .after → s.block i = s.received i
  /-- A connection whose newline arrived was sent, when the handler leaves its loop, the last ten
  complete lines written up to and including its own block. -/
  reply : ∀ pre i post, acquired t = pre ++ i :: post → newline ∈ s.received i →
    ∀ pc, s.pc i = some pc → pc.leaving = true →
      (s.conn i).accepted = lastTenLines ((pre ++ [i]).flatMap s.block)
  /-- And once its block is with the device, the handler can go on until it has returned. -/
  returns : ∀ pre i, acquired t = pre ++ [i] → newline ∈ s.received i →
    ∀ pc, s.pc i = some pc → pc.inflight = [] → (s.conn i).unwritten = [] →
      ∃ s', (server M).Reach (Server.Guard M dataLines) s s' ∧ s'.pc i = some .done ∧
        s'.received i = s.received i ∧
        (s'.conn i).accepted = lastTenLines ((pre ++ [i]).flatMap s.block)

theorem Server.Guard.lineChunks {a : Act} (h : s.Guard M dataLines a) :
    s.Guard M Aesd.lineChunks a := by
  cases a with
  | call i e =>
      cases e with
      | handler e =>
          intro pc hpc
          refine ⟨(h pc hpc).1, ?_⟩
          intro res he
          have hdata := (h pc hpc).2 res he
          cases res with
          | chunk bytes => exact hdata.2
          | closed => trivial
          | failed => trivial
      | timer e => trivial
  | accept i => trivial
  | expire i => trivial

/-- No connection receives a chunk that starts with the keyword. -/
theorem data_only (h : (server M).Trace (Server.Guard M dataLines) Server.init t s) :
    ∀ i, ∀ d ∈ (s.conn i).delivered, startsWithKeyword d = false := by
  refine h.invariant (I := fun s => ∀ i, ∀ d ∈ (s.conn i).delivered, startsWithKeyword d = false)
    (fun i d hd => absurd hd List.not_mem_nil) ?_
  intro s a s' o hdata hok hstep
  obtain ⟨s₁, hs₁, heq⟩ := Option.map_eq_some_iff.1 hstep
  obtain ⟨rfl, -⟩ := Prod.mk.inj heq
  rcases Server.step_cases hs₁ with ⟨i, rfl, ha⟩ | ⟨i, e, pc, pc', rfl, hc⟩
  · intro j d hd
    by_cases hj : j = i
    · rw [hj, ha.conn] at hd
      cases hd
    · rw [(ha.others j hj).2] at hd
      exact hdata j d hd
  · intro j d hd
    by_cases hj : j = i
    · subst hj
      have hguard := hok pc hc.here
      have hm := hc.moves hguard.1
      rcases hm.delivered with hsame | ⟨bytes, rfl, hnew⟩
      · rw [show (s₁.conn j).delivered = (s.conn j).delivered from hsame] at hd
        exact hdata j d hd
      · rw [show (s₁.conn j).delivered = (s.conn j).delivered ++ [bytes] from hnew] at hd
        rcases List.mem_append.1 hd with hd | hd
        · exact hdata j d hd
        · rw [List.mem_singleton.1 hd]
          exact (hguard.2 _ rfl).1
    · rw [(hc.others j hj).2] at hd
      exact hdata j d hd

/-- What was handed over and what was not make up what was received. -/
theorem Session.Sound.handed_prefix {log₀ : TermLog UInt8} {s : Session} (h : s.Sound M log₀) :
    s.conn.handed.flatten <+: s.conn.payload := by
  rw [← h.bytes, Conn.written, List.append_assoc]
  exact List.prefix_append _ _

/-- **Serialisability.**  Whatever the order of the steps of any number of handlers, and however
stdio cuts their bytes: the device gets one block after the other, and every line is answered with
the last ten lines up to it. -/
theorem server_serialised (hM : 10 * M < 2 ^ 31)
    (h : (server M).Trace (Server.Guard M dataLines) Server.init t s) : s.Serialised M t := by
  have hord : s.Ordered M lineChunks t := server_serial (h.mono fun _ _ hok => hok.lineChunks)
  have hdata := data_only h
  have hpayload : ∀ i, (s.conn i).payload = s.received i := fun i => Conn.payload_of_data (hdata i)
  -- an answer is made of the lines of the blocks so far
  have hflat : ∀ {k : Kernel} {bytes : List UInt8},
      k.log = (history newline bytes).keep 10 → k.flat = lastTenLines bytes := by
    intro k bytes hlog
    rw [lastTenLines, ← hlog]
    rfl
  constructor
  · exact hord.nodup
  · exact hord.written
  · intro i
    by_cases hi : i ∈ acquired t
    · obtain ⟨pre, post, hpre⟩ := List.append_of_mem hi
      obtain ⟨pc, k, log₀, -, hlined, -, -⟩ := hord.connection hM hpre
      rw [← hpayload]
      exact hlined.sound.handed_prefix
    · rw [Server.block, hord.waiting i hi]
      exact List.nil_prefix
  · intro i pc hpc hafter
    have hphase : pc.phase ≠ .before := by
      intro hbefore
      rw [hafter] at hbefore
      cases hbefore
    obtain ⟨pre, post, hpre⟩ := List.append_of_mem ((hord.mem i).2 ⟨pc, hpc, hphase⟩)
    obtain ⟨pc₁, k, log₀, hpc₁, hlined, -, -⟩ := hord.connection hM hpre
    obtain rfl := Option.some.inj (hpc.symm.trans hpc₁)
    have hleft : pc.leaving = true := by
      cases pc <;> first | rfl | cases hafter
    have hclosed : pc ≠ .closingFile := by
      rintro rfl
      cases hafter
    rw [← hpayload]
    exact ((hlined.plain (hdata i)).finished hlined.sound hleft hclosed).1
  · intro pre i post hpre hmem pc hpc hleft
    obtain ⟨pc₁, k, log₀, hpc₁, hlined, hlog, -⟩ := hord.connection hM hpre
    obtain rfl := Option.some.inj (hpc.symm.trans hpc₁)
    have hinflight : pc.inflight = [] := by
      cases pc <;> first | rfl | cases hleft
    rw [← hpayload] at hmem
    have hans := (hlined.plain (hdata i)).answers hlined.sound hinflight hmem
    rw [← hflat hlog]
    exact (hans.sent hleft).2
  · intro pre i hpre hmem pc hpc hinflight hflushed
    obtain ⟨pc₁, k, log₀, hpc₁, hlined, hlog, hlast⟩ := hord.connection hM hpre
    obtain rfl := Option.some.inj (hpc.symm.trans hpc₁)
    obtain rfl := hlast rfl
    rw [← hpayload] at hmem
    have hans := (hlined.plain (hdata i)).answers hlined.sound hinflight hmem
    have hphase : pc.phase ≠ .before := by
      obtain ⟨pc₁, hpc₁, hphase⟩ := (hord.mem i).1 (by rw [hpre]; simp)
      obtain rfl := Option.some.inj (hpc.symm.trans hpc₁)
      exact hphase
    obtain ⟨sess, hreach, hdone, hsame, hacc⟩ := hans.reach_done (by decide) hlined.sound.inv
      (hlined.sound.inv.flat_le.trans_lt hM) hflushed dataLines
    obtain ⟨s', hreach', hpc', hconn', -, -⟩ := Server.reach_of_session hpc hphase hreach
    refine ⟨s', hreach', by rw [hpc', hdone], ?_, ?_⟩
    · rw [Server.received, hconn', hsame.delivered]
      rfl
    · rw [hconn', hacc, ← hflat hlog]
      rfl

/-- Two connections of which the second one gets the mutex first, and is closed before its newline
arrives: its byte is the start of the line that the other one completes. -/
theorem server_serialised_two_connections :
    ∃ t, ∃ s : Server, s.Serialised 64 t ∧ (s.conn 1).accepted = [] ∧
      (s.conn 0).accepted = [97, 98, 10] := by
  have hrun : ((server 64).run Server.init
      [.accept 0, .accept 1, .call 1 (.handler (.lock 0)), .call 1 (.handler (.fopen true)),
        .call 1 (.handler (.recv (.chunk [97]))), .call 1 (.handler .fwrite),
        .call 1 (.handler (.recv .closed)),
        .call 1 (.handler (.flush 1 ⟨false, ⟨some 0, fun _ => 0⟩, 0⟩)),
        .call 1 (.handler .fclose), .call 1 (.handler .unlock),
        .call 0 (.handler (.lock 0)), .call 0 (.handler (.fopen true)),
        .call 0 (.handler (.recv (.chunk [98, 10]))), .call 0 (.handler .fwrite),
        .call 0 (.handler (.flush 2 ⟨false, ⟨some 1, fun _ => 0⟩, 0⟩)),
        .call 0 (.handler (.fill 512 ⟨false, 0⟩)), .call 0 (.handler (.fill 512 ⟨false, 0⟩)),
        .call 0 (.handler (.fread [97, 98, 10])), .call 0 (.handler (.send 3)),
        .call 0 (.handler (.fread []))]).map
      (fun p => ((p.1.conn 1).accepted, (p.1.conn 0).accepted)) = some ([], [97, 98, 10]) := by
    decide
  obtain ⟨⟨s, os⟩, hrun, hend⟩ := Option.map_eq_some_iff.1 hrun
  obtain ⟨hfirst, hsecond⟩ := Prod.mk.inj hend
  exact ⟨_, s, server_serialised (M := 64) (by decide) (Machine.trace_of_run hrun (by decide)),
    hfirst, hsecond⟩

end Aesd
