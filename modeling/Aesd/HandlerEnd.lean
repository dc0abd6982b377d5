/-
**A handler comes to its end.**

A client that has shut down its sending side leaves its handler with what it has received: bytes
that the stream still holds, which have to go to the device, and after them what is stored, which
has to be read and sent.  However stdio cuts all of this, the calls that are left can be counted in
advance; for a byte that the stream holds may be stored, and then it is read and sent too.  A
handler that waits for the mutex is behind one that has it and can go on.

So the handlers of the server, taken together, make a bounded number of calls, and as long as one
of them has not returned some call can succeed.  One thing must hold for that besides: the allocator
has room for the bytes that are on their way.

* `Session.left` — the calls that a handler has left at most;
* `Session.Stage.left_lt` — every call is one of them;
* `Session.Stage.progress` — **a handler that has the mutex is never stuck**;
* `Server.left`, `Server.Ordered.call_left` — the handlers of the server, each with its calls;
* `Server.Ordered.progress` — **some handler can go on.**
-/

import Aesd.ServerReplies

set_option relaxedAutoImplicit false
set_option autoImplicit false

namespace Aesd

open TermLog

variable {M : ℕ} {log₀ : TermLog UInt8} {s s' : Session} {e : Event}

/-! ### The calls that are left -/

/-- The bytes of data that were received and did not get to the device. -/
def Session.held (s : Session) : ℕ := s.conn.unwritten.length + s.pc.inflight.length

/-- The bytes that are stored at most when these have got there. -/
def Session.storable (s : Session) : ℕ := s.kern.flat.length + s.kern.pending.length + s.held

/-- The call receives a chunk. -/
def Event.isChunk : Event → Bool
  | .recv (.chunk _) => true
  | _ => false

/-- **The calls that a handler has left** at most, if it receives no more chunks: a byte that it
holds takes one to get to the device, and a byte that may be stored takes three. -/
def Session.left (s : Session) : ℕ :=
  match s.pc with
  | .locking => 8
  | .opening => 7
  | .receiving => s.held + 6
  | .seeking .. | .writing .. => s.held + 3 * s.storable + 8
  | .reading => if s.conn.unwritten = [] then s.todo else s.held + 3 * s.storable + 7
  | .closingFile => s.held + 5
  | _ => s.todo

/-- Handing over a piece stores no more bytes than are handed over. -/
theorem Session.Sound.flush_le {n : ℕ} {env : WriteEnv} {kern : Kernel} {res : ℤ}
    (h : s.Sound M log₀) (hopen : s.pc.fileOpen = true) (hle : n ≤ s.conn.unwritten.length)
    (hok : s.Succeeds M (.flush n env))
    (hw : aesdWrite M env s.kern (some s.conn.filp) (some (s.conn.unwritten.take n))
      = .ok (kern, res)) :
    kern.pending.length ≤ s.kern.pending.length + n ∧
      kern.flat.length + kern.pending.length ≤ s.kern.flat.length + s.kern.pending.length + n := by
  rw [aesdWrite_open _ _ (h.opened hopen) hok.1] at hw
  obtain ⟨-, -, -, hlog⟩ := h.inv.writeLocked_log h.intact hok.2.1 hok.2.2 hw
  have hfeed := length_feed_le 10 newline s.kern.log (s.conn.unwritten.take n)
  rw [← hlog, List.length_take_of_le hle] at hfeed
  exact hfeed

/-- The first read of an answer is yet to come. -/
theorem Session.todo_le_of_ahead (hpc : s.pc = .reading) (hahead : s.conn.ahead = []) :
    s.todo ≤ 3 * s.kern.flat.length + 7 := by
  have hdrop : (s.kern.flat.drop s.conn.filp.fPos.toNat).length ≤ s.kern.flat.length := by
    rw [List.length_drop]
    exact Nat.sub_le _ _
  simp only [Session.todo, hpc, hahead, List.length_nil]
  split <;> omega

/-- The calls that are left behind a chunk. -/
theorem Session.left_afterChunk_le {conn : Conn} (hahead : conn.ahead = []) (kern : Kernel)
    (buffer : List UInt8) (n : ℕ) :
    Session.left ⟨afterChunk true buffer n, conn, kern⟩ ≤ conn.unwritten.length +
      3 * (kern.flat.length + kern.pending.length + conn.unwritten.length) + 7 := by
  unfold afterChunk
  split
  · simp only [if_true, Session.left]
    split
    · have htodo := Session.todo_le_of_ahead (s := ⟨.reading, conn, kern⟩) rfl hahead
      dsimp only at htodo
      omega
    · exact le_rfl
  · simp only [Session.left, Session.held, Pc.inflight, List.length_nil]
    omega

/-- An answer whose bytes are all with the device. -/
theorem Session.Answering.left_eq_todo {p : ℕ} (h : s.Answering p)
    (hflushed : s.conn.unwritten = []) : s.left = s.todo := by
  unfold Session.Answering at h
  unfold Session.left
  cases hpc : s.pc <;> simp only [hpc] at h <;>
    simp [hpc, hflushed, Session.held, Pc.inflight, Session.todo]

theorem Session.Answers.left_lt (h : s.Answers log₀) (hM : 10 * M < 2 ^ 31)
    (hlog₀ : log₀.entries.flatten.length < 2 ^ 31) (hsound : s.Sound M log₀)
    (hflushed : s.conn.unwritten = []) (hm : s.Moves M e s') : s'.left < s.left := by
  have hp : replyStart log₀ s.conn.delivered < 2 ^ 63 := by
    have hle := replyStart_le log₀ s.conn.delivered
    omega
  have hflat := hsound.inv.flat_le.trans_lt hM
  obtain ⟨hsame, hlt⟩ := h.answering.todo_lt hp hsound.inv hflat hflushed hm
  have hanswering := h.answering.step hp hsound.inv hflat hm
  rw [h.answering.left_eq_todo hflushed,
    hanswering.left_eq_todo (hsame.unwritten.trans hflushed)]
  exact hlt

/-- **Every call is one of those that are left**, if it does not receive a chunk. -/
theorem Session.Stage.left_lt (h : s.Stage log₀) (hM : 10 * M < 2 ^ 31)
    (hlog₀ : log₀.entries.flatten.length < 2 ^ 31) (hsound : s.Sound M log₀)
    (hchunk : e.isChunk = false) (hm : s.Moves M e s') : s'.left < s.left := by
  have hanswers : s.Answers log₀ → s.conn.unwritten = [] → s'.left < s.left := fun hans hflushed =>
    hans.left_lt hM hlog₀ hsound hflushed hm
  unfold Session.Stage at h
  cases hm with
  | recv bytes => cases hchunk
  | lock hpc => simp only [Session.left, hpc, Nat.lt_add_one]
  | fopen hpc =>
      simp only [hpc] at h
      simp [Session.left, Session.held, hpc, h, Conn.init, Pc.inflight]
  | closed res hpc => simp [Session.left, Session.held, hpc, Pc.inflight]
  | ioctl seek buffer n filp res hpc =>
      simp only [hpc] at h
      obtain ⟨chunks, bytes, -, hcollects, -⟩ := h
      refine (Session.left_afterChunk_le ?_ _ _ _).trans_lt ?_
      · exact hcollects.fresh.ahead
      · simp only [Session.left, Session.storable, Session.held, hpc, Pc.inflight, List.length_nil]
        omega
  | fwrite buffer n hpc =>
      simp only [hpc] at h
      obtain ⟨chunks, bytes, -, hcollects, -⟩ := h
      refine (Session.left_afterChunk_le ?_ _ _ _).trans_lt ?_
      · exact hcollects.fresh.ahead
      · simp only [Session.left, Session.storable, Session.held, hpc, Pc.inflight,
          List.length_append]
        omega
  | flush n env kern res hopen hpos hle hok hw =>
      obtain ⟨-, hstored⟩ := hsound.flush_le hopen hle hok hw
      have hne : s.conn.unwritten ≠ [] := by
        rw [← List.length_pos_iff]
        omega
      obtain ⟨pc, conn, kern₀⟩ := s
      dsimp only at hle hstored hne
      cases pc with
      | receiving | closingFile =>
          simp only [Session.left, Session.held, List.length_drop]
          omega
      | writing buffer n | seeking seek buffer n =>
          simp only [Session.left, Session.storable, Session.held, List.length_drop]
          omega
      | reading =>
          simp only [Session.left, Session.storable, Session.held, if_neg hne, List.length_drop]
          split
          · -- the last piece before the first read
            have hfresh := h.answering.resolve_right fun hc => hne hc.1
            have htodo := Session.todo_le_of_ahead (s := ⟨.reading, { conn with
              unwritten := conn.unwritten.drop n
              handed := conn.handed ++ [conn.unwritten.take n] }, kern⟩) rfl hfresh.ahead
            dsimp only at htodo
            omega
          · omega
      | sending data => exact absurd h.answering.1 hne
      | rewinding => exact h.elim
      | locking | opening | unlocking | closingClient | clearing | completing | done | crashed =>
          cases hopen
  | fill count r hpc hflushed | fread hpc hflushed =>
      simp only [hpc] at h
      exact hanswers h hflushed
  | send data hpc =>
      simp only [hpc] at h
      have hanswering := h.answering
      simp only [Session.Answering, hpc] at hanswering
      exact hanswers h hanswering.1
  | fclose hpc hflushed => simp [Session.left, Session.held, Session.todo, hpc]
  | unlock hpc | close hpc | clear hpc | complete hpc => simp [Session.left, Session.todo, hpc]

/-- A handler that is outside the mutex has its calls left whatever becomes of the device. -/
theorem Session.left_outside {pc : Pc} (hphase : pc.phase ≠ .inside) (conn : Conn)
    (kern kern' : Kernel) : Session.left ⟨pc, conn, kern⟩ = Session.left ⟨pc, conn, kern'⟩ := by
  cases pc <;> first | rfl | exact absurd rfl hphase

/-- What such a handler does. -/
theorem Session.Moves.outside (hm : s.Moves M e s') (hphase : s.pc.phase ≠ .inside) :
    s'.left < s.left ∧ s'.conn = s.conn ∧ s'.kern = s.kern := by
  cases hm with
  | lock hpc => exact ⟨by simp [Session.left, hpc], rfl, rfl⟩
  | close hpc | clear hpc | complete hpc =>
      exact ⟨by simp [Session.left, Session.todo, hpc], rfl, rfl⟩
  | flush n env kern res hopen =>
      cases hpc : s.pc <;> simp [hpc, Pc.phase, Pc.fileOpen] at hphase hopen
  | fopen hpc | recv _ hpc | closed _ hpc | ioctl _ _ _ _ _ hpc | fwrite _ _ hpc
  | fill _ _ hpc | fread hpc | send _ hpc | fclose hpc | unlock hpc =>
      rw [hpc] at hphase
      exact absurd rfl hphase

/-! ### Room for the bytes on their way -/

/-- The allocator has room for the pending bytes with those that the handler holds. -/
def Session.Room (M : ℕ) (s : Session) : Prop := s.kern.pending.length + s.held ≤ M

/-- The bytes on their way do not become more. -/
theorem Session.Sound.room (h : s.Sound M log₀) (hroom : s.Room M)
    (hchunk : e.isChunk = false) (hm : s.Moves M e s') : s'.Room M := by
  unfold Session.Room Session.held at hroom ⊢
  cases hm with
  | recv bytes => cases hchunk
  | flush n env kern res hopen hpos hle hok hw =>
      have hpending := (h.flush_le hopen hle hok hw).1
      simp only [List.length_drop]
      omega
  | fwrite buffer n hpc =>
      simp only [hpc, Pc.inflight] at hroom
      simpa only [inflight_afterChunk, List.length_append, List.length_nil, Nat.add_zero]
        using hroom
  | ioctl seek buffer n filp res hpc =>
      simp only [hpc, Pc.inflight] at hroom
      simpa only [inflight_afterChunk] using hroom
  | fread hpc =>
      simp only [hpc, Pc.inflight] at hroom
      split <;> exact hroom
  | fill count r hpc => exact hroom
  | lock hpc | fopen hpc | closed _ hpc | send _ hpc | fclose hpc | unlock hpc | close hpc
  | clear hpc | complete hpc => simpa only [hpc, Pc.inflight] using hroom

/-! ### Never stuck -/

/-- A call that can succeed and receives no chunk. -/
def Session.CanGoOn (M : ℕ) (s : Session) : Prop :=
  ∃ e s', s.step M e = some s' ∧ s.Guard M anyChunks e ∧ e.isChunk = false

theorem Session.canGoOn_of {pc : Pc} {conn : Conn} {kern : Kernel} (e : Event)
    (hpc : s.pc.next true e = some pc) (heff : s.effect M e = some (conn, kern))
    (hok : s.Succeeds M e) (hchunk : e.isChunk = false) : s.CanGoOn M :=
  ⟨e, _, Session.step_of hpc heff, ⟨hok, fun _ _ => trivial⟩, hchunk⟩

/-- Bytes that the stream holds can be handed over. -/
theorem Session.Sound.flush_canGoOn (h : s.Sound M log₀) (hM : 10 * M < 2 ^ 31) (hroom : s.Room M)
    (hopen : s.pc.fileOpen = true) (hne : s.conn.unwritten ≠ []) : s.CanGoOn M := by
  have hsize : s.kern.dev.bufEntry.size + s.conn.unwritten.length ≤ M := by
    have hint : s.kern.pending.length = s.kern.dev.bufEntry.size := h.intact
    unfold Session.Room Session.held at hroom
    omega
  obtain ⟨env, k', -, -, hstep, hok⟩ :=
    Session.flush_possible hopen (h.opened hopen) h.inv h.intact hM hne hsize
  exact ⟨_, _, hstep, ⟨hok, fun _ _ => trivial⟩, rfl⟩

theorem Session.Answers.canGoOn (h : s.Answers log₀) (hM : 10 * M < 2 ^ 31)
    (hlog₀ : log₀.entries.flatten.length < 2 ^ 31) (hsound : s.Sound M log₀)
    (hflushed : s.conn.unwritten = []) (hdone : s.pc ≠ .done) : s.CanGoOn M := by
  have hle := replyStart_le log₀ s.conn.delivered
  obtain ⟨e, s', hstep, hok⟩ := h.answering.progress (by omega) hsound.inv
    (hsound.inv.flat_le.trans_lt hM) hflushed hdone anyChunks
  refine ⟨e, s', hstep, hok, ?_⟩
  have hanswering := h.answering
  cases Session.step_moves hstep hok.1 with
  | recv _ hpc | closed _ hpc => simp only [Session.Answering, hpc] at hanswering
  | _ => rfl

/-- A handler outside the mutex can go on, whatever the device is. -/
theorem Session.canGoOn_outside {pc : Pc} (hphase : pc.phase ≠ .inside) (hdone : pc ≠ .done)
    (conn : Conn) (kern : Kernel) : Session.CanGoOn M ⟨pc, conn, kern⟩ := by
  cases pc with
  | locking => exact Session.canGoOn_of (.lock 0) rfl rfl rfl rfl
  | closingClient => exact Session.canGoOn_of .close rfl rfl trivial rfl
  | clearing => exact Session.canGoOn_of .clear rfl rfl trivial rfl
  | completing => exact Session.canGoOn_of .complete rfl rfl trivial rfl
  | done => exact absurd rfl hdone
  | _ => exact absurd rfl hphase

/-- **A handler is never stuck** unless it waits for the mutex. -/
theorem Session.Stage.progress (h : s.Stage log₀) (hM : 10 * M < 2 ^ 31)
    (hlog₀ : log₀.entries.flatten.length < 2 ^ 31) (hsound : s.Sound M log₀) (hroom : s.Room M)
    (hdone : s.pc ≠ .done) (hcrashed : s.pc ≠ .crashed) : s.CanGoOn M := by
  obtain ⟨pc, conn, kern⟩ := s
  cases pc with
  | opening => exact Session.canGoOn_of (.fopen true) rfl rfl rfl rfl
  | receiving => exact Session.canGoOn_of (.recv .closed) rfl rfl trivial rfl
  | seeking seek buffer n =>
      obtain ⟨⟨filp, res⟩, hioctl⟩ : ∃ r,
          aesdIoctl ⟨some seek, false⟩ kern conn.filp aesdcharIocseekto = .ok r :=
        ⟨_, hsound.inv.aesdIoctl_eq (hsound.inv.flat_le.trans_lt hM) _ _ _⟩
      have heff : Session.effect M ⟨.seeking seek buffer n, conn, kern⟩ (.ioctl false)
          = some ({ conn with seeks := conn.seeks ++ [seek], filp := filp }, kern) := by
        simp only [Session.effect, hioctl]
      exact Session.canGoOn_of (.ioctl false) rfl heff rfl rfl
  | writing buffer n => exact Session.canGoOn_of .fwrite rfl rfl trivial rfl
  | rewinding => exact h.elim
  | reading =>
      by_cases hflushed : conn.unwritten = []
      · exact Session.Answers.canGoOn h hM hlog₀ hsound hflushed hdone
      · exact hsound.flush_canGoOn hM hroom rfl hflushed
  | sending data => exact Session.Answers.canGoOn h hM hlog₀ hsound h.answering.1 hdone
  | closingFile =>
      by_cases hflushed : conn.unwritten = []
      · exact Session.canGoOn_of .fclose rfl (if_pos hflushed) trivial rfl
      · exact hsound.flush_canGoOn hM hroom rfl hflushed
  | unlocking => exact Session.canGoOn_of .unlock rfl rfl trivial rfl
  | locking | closingClient | clearing | completing =>
      exact Session.canGoOn_outside (fun hc => Phase.noConfusion hc) hdone conn kern
  | done => exact absurd rfl hdone
  | crashed => exact absurd rfl hcrashed

/-- A handler crashes at a chunk only. -/
theorem Pc.next_sound {pc pc' : Pc} (h : pc.next true e = some pc')
    (hchunk : e.isChunk = false) (hsound : pc ≠ .crashed) : pc' ≠ .crashed := by
  cases Pc.next_moves h with
  | chunk bytes => cases hchunk
  | ioctl | fwrite =>
      unfold afterChunk
      split <;> exact nofun
  | lock | fopen | fseek | fread | send => split <;> exact nofun
  | flush => exact hsound
  | closed | fclose | unlock | close | clear | complete | fill => exact nofun

/-! ### The handlers of the server -/

variable {P : List (List UInt8) → Recv → Prop} {t : List (Act × List UInt8)} {srv srv' : Server}
  {i : ℕ} {pc pc' : Pc}

/-- The calls that handler `i` has left at most. -/
def Server.left (srv : Server) (i : ℕ) : ℕ :=
  ((srv.pc i).map fun pc => Session.left ⟨pc, srv.conn i, srv.kern⟩).getD 0

/-- The allocator has room for what the handler that has the mutex holds. -/
def Server.Room (M : ℕ) (srv : Server) : Prop :=
  ∀ i pc, srv.threads.owner = some i → srv.pc i = some pc →
    Session.Room M ⟨pc, srv.conn i, srv.kern⟩

theorem Server.left_of_pc (hpc : srv.pc i = some pc) :
    srv.left i = Session.left ⟨pc, srv.conn i, srv.kern⟩ := by
  rw [Server.left, hpc]
  rfl

/-- A handler to which nothing happens has its calls left, if it is outside the mutex or the device
stays as it is. -/
theorem Server.left_congr (hpc : srv'.pc i = srv.pc i) (hconn : srv'.conn i = srv.conn i)
    (hkern : srv'.kern = srv.kern ∨ ∀ pc ∈ srv.pc i, pc.phase ≠ .inside) :
    srv'.left i = srv.left i := by
  unfold Server.left
  rw [hpc, hconn]
  cases hi : srv.pc i with
  | none => rfl
  | some pc =>
      rcases hkern with hkern | hphase
      · rw [hkern]
      · exact Session.left_outside (hphase pc hi) ..

/-- A connection is accepted: its handler has all its calls left. -/
theorem Server.Accepts.left (ha : srv.Accepts i srv') :
    srv'.left i = 8 ∧ ∀ j, j ≠ i → srv'.left j = srv.left j := by
  refine ⟨Server.left_of_pc ha.pc, ?_⟩
  intro j hj
  exact Server.left_congr (ha.others j hj).1 (ha.others j hj).2 (Or.inl ha.kern)

theorem Server.Ordered.accept_room (h : srv.Ordered M P t) (ha : srv.Accepts i srv')
    (hroom : srv.Room M) : srv'.Room M := by
  intro j pc howner hpc
  rw [ha.owner] at howner
  have hji : j ≠ i := by
    rintro rfl
    obtain ⟨pre, hpre⟩ := h.newest j howner
    obtain ⟨pc₁, hpc₁, -⟩ := (h.mem j).1 (by simp [hpre])
    rw [ha.fresh] at hpc₁
    cases hpc₁
  rw [(ha.others j hji).1] at hpc
  rw [(ha.others j hji).2, ha.kern]
  exact hroom j pc howner hpc

/-- **A call of a handler is one of those that it has left**, and takes nothing from the others. -/
theorem Server.Ordered.call_left (hM : 10 * M < 2 ^ 31) (h : srv.Ordered M P t)
    (hc : srv.Calls M i e srv' pc pc') (hok : Session.Guard M P ⟨pc, srv.conn i, srv.kern⟩ e)
    (hchunk : e.isChunk = false) :
    srv'.left i < srv.left i ∧ ∀ j, j ≠ i → srv'.left j = srv.left j := by
  have hm := hc.moves hok.1
  rw [Server.left_of_pc hc.here, Server.left_of_pc hc.there]
  by_cases hphase : pc.phase = .inside
  · have howner : srv.threads.owner = some i := (h.owner_iff hc.here).2 hphase
    obtain ⟨pc₁, log₀, hpc₁, hlog₀, hsound, hstage⟩ := h.holder hM howner
    obtain rfl := Option.some.inj (hc.here.symm.trans hpc₁)
    refine ⟨hstage.left_lt hM hlog₀ hsound hchunk hm, ?_⟩
    intro j hj
    refine Server.left_congr (hc.others j hj).1 (hc.others j hj).2 (Or.inr fun pc₂ hpc₂ hin => ?_)
    -- the mutex belongs to one handler
    exact hj (Option.some.inj (((h.owner_iff hpc₂).2 hin).symm.trans howner))
  · obtain ⟨hlt, -, hkern⟩ := hm.outside hphase
    refine ⟨hlt, ?_⟩
    intro j hj
    exact Server.left_congr (hc.others j hj).1 (hc.others j hj).2 (Or.inl hkern)

/-- There stays room for what the handler that has the mutex holds. -/
theorem Server.Ordered.call_room (hM : 10 * M < 2 ^ 31) (h : srv.Ordered M P t)
    (hc : srv.Calls M i e srv' pc pc') (hok : Session.Guard M P ⟨pc, srv.conn i, srv.kern⟩ e)
    (hchunk : e.isChunk = false) (hroom : srv.Room M) : srv'.Room M := by
  have hm := hc.moves hok.1
  have hmoves := Pc.next_phase hc.next hok.1.good
  intro j pc₂ howner' hpc₂
  cases hop : (TaskEvent.handler e).mutexOp with
  | release =>
      rw [hc.release hop] at howner'
      cases howner'
  | acquire =>
      -- nothing was received yet
      obtain rfl := Option.some.inj ((hc.acquire hop).symm.trans howner')
      obtain rfl := Option.some.inj (hc.there.symm.trans hpc₂)
      rw [hop] at hmoves
      obtain ⟨-, hconn, hkern⟩ := hm.outside (by rw [hmoves.1]; exact nofun)
      have hwaiting : i ∉ acquired t := by
        intro hi
        obtain ⟨pc₁, hpc₁, hphase⟩ := (h.mem i).1 hi
        obtain rfl := Option.some.inj (hc.here.symm.trans hpc₁)
        exact hphase hmoves.1
      obtain ⟨hinv, hint, -⟩ := h.serial.stored hM
      have hinflight : pc'.inflight = [] := by
        cases Pc.next_moves hc.next with
        | lock res =>
            obtain rfl : res = 0 := hok.1
            rfl
        | _ => cases hop
      have hpending : srv.kern.pending.length ≤ M := hint.trans_le hinv.size_le
      have hinit : srv'.conn i = .init := hconn.trans (h.waiting i hwaiting)
      rw [hinit, show srv'.kern = srv.kern from hkern]
      simpa [Session.Room, Session.held, hinflight, Conn.init] using hpending
  | idle =>
      rw [hc.idle hop] at howner'
      by_cases hji : j = i
      · subst hji
        obtain rfl := Option.some.inj (hc.there.symm.trans hpc₂)
        obtain ⟨pc₁, log₀, hpc₁, -, hsound, -⟩ := h.holder hM howner'
        obtain rfl := Option.some.inj (hc.here.symm.trans hpc₁)
        exact hsound.room (hroom j pc howner' hc.here) hchunk hm
      · rw [(hc.others j hji).1] at hpc₂
        have hphase : pc.phase ≠ .inside := fun hin =>
          hji (Option.some.inj (howner'.symm.trans ((h.owner_iff hc.here).2 hin)))
        rw [(hc.others j hji).2, show srv'.kern = srv.kern from (hm.outside hphase).2.2]
        exact hroom j pc₂ howner' hpc₂

/-- What a handler can do next it can do in the server, unless it waits for the mutex. -/
theorem Server.step_possible {s' : Session} (hpc : srv.pc i = some pc)
    (hstep : Session.step M ⟨pc, srv.conn i, srv.kern⟩ e = some s')
    (hfree : (TaskEvent.handler e).mutexOp = .acquire → srv.threads.owner = none) :
    ∃ srv', srv.step M (.call i (.handler e)) = some srv' := by
  obtain ⟨hnext, heff⟩ := Session.step_eq_some.1 hstep
  obtain ⟨threads, hthreads⟩ := Threads.step_possible hpc hnext hfree
  exact ⟨⟨threads, Function.update srv.conn i s'.conn, s'.kern⟩, by
    simp only [Server.step, hpc, hthreads, heff, Option.bind_eq_bind, Option.bind_some]⟩

/-- **Some handler can go on**, unless all of them have returned. -/
theorem Server.Ordered.progress (hM : 10 * M < 2 ^ 31) (h : srv.Ordered M P t)
    (hroom : srv.Room M) (hsound : ∀ j, srv.pc j ≠ some .crashed) (hpc : srv.pc i = some pc)
    (hdone : pc ≠ .done) : ∃ j e srv', srv.step M (.call j (.handler e)) = some srv' ∧
      srv.Guard M anyChunks (.call j (.handler e)) ∧ e.isChunk = false := by
  cases howner : srv.threads.owner with
  | none =>
      have hphase : pc.phase ≠ .inside := fun hin => by
        rw [(h.owner_iff hpc).2 hin] at howner
        cases howner
      obtain ⟨e, s', hstep, hok, hchunk⟩ :=
        Session.canGoOn_outside (M := M) hphase hdone (srv.conn i) srv.kern
      obtain ⟨srv', hsrv'⟩ := Server.step_possible hpc hstep fun _ => howner
      exact ⟨i, e, srv', hsrv', fun _ hpc₁ => Option.some.inj (hpc.symm.trans hpc₁) ▸ hok, hchunk⟩
  | some j =>
      -- the one that has the mutex
      obtain ⟨pc₁, log₀, hpc₁, hlog₀, hsound₁, hstage⟩ := h.holder hM howner
      have hinside : pc₁.phase = .inside := (h.owner_iff hpc₁).1 howner
      have hdone₁ : pc₁ ≠ .done := by
        rintro rfl
        cases hinside
      obtain ⟨e, s', hstep, hok, hchunk⟩ := hstage.progress hM hlog₀ hsound₁
        (hroom j pc₁ howner hpc₁) hdone₁ fun hc => hsound j (hpc₁.trans (congrArg some hc))
      have hmoves := Pc.next_phase (Session.step_eq_some.1 hstep).1 hok.1.good
      obtain ⟨srv', hsrv'⟩ := Server.step_possible hpc₁ hstep fun hop => by
        rw [hop] at hmoves
        exact absurd (hinside.symm.trans hmoves.1) nofun
      exact ⟨j, e, srv', hsrv', fun _ hpc₂ => Option.some.inj (hpc₁.symm.trans hpc₂) ▸ hok, hchunk⟩

end Aesd
