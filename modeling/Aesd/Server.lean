/-
**The server over the char device: connections that share a mutex and a device.**

Every connection has its handler thread, its socket, its stream and its open file; the mutex and the
device are shared.  A step of the server is a step of the threads, as in `FileMutex`, together with
what the call does to the connection and the device, as in `Session`; so any number of connections
run in any order that the mutex admits.

Between `pthread_mutex_lock` and `pthread_mutex_unlock` a handler has the device to itself, since
the file is opened after the one and closed, and with it the stream flushed, before the other.  So a
run of the server is serial: the connections, in the order in which they got the mutex, are runs of
`session` of which each starts on the device that the one before left.  What is known of a single
connection then holds of each of them.

* `Server`, `server` — the server as a machine; the output of a step are the bytes that it wrote to
  the device;
* `Server.Serial` — the connections, one after the other;
* `Server.Ordered`, `Server.Ordered.step` — the invariant;
* `server_serial` — **every run of the server is serial**;
* `Server.reach_of_session` — what a handler that has the mutex can do alone it can do in the
  server.
-/

import Aesd.FileMutex
import Aesd.Session

set_option relaxedAutoImplicit false
set_option autoImplicit false

namespace Aesd

/-! ### The system -/

/-- The threads with their mutex, the connections by the numbers of their handlers, and the
device. -/
structure Server where
  threads : Threads
  conn : ℕ → Conn
  kern : Kernel

/-- The server before the first connection, and the device as loaded. -/
def Server.init : Server := ⟨.init, fun _ => .init, .init⟩

/-- The control point of a handler. -/
def Server.pc (s : Server) (i : ℕ) : Option Pc := s.threads.pc i

/-- The bytes that a call hands to the device. -/
def Conn.writes (c : Conn) : Event → List UInt8
  | .flush n _ => c.unwritten.take n
  | _ => []

/-- The bytes that a step hands to the device. -/
def Server.writes (s : Server) : Act → List UInt8
  | .call i (.handler e) => (s.conn i).writes e
  | _ => []

/-- One step: a connection is accepted, or a handler makes its next call. -/
def Server.step (M : ℕ) (s : Server) : Act → Option Server
  | .accept i => do
      let threads ← s.threads.step true (.accept i)
      some ⟨threads, Function.update s.conn i .init, s.kern⟩
  | .call i (.handler e) => do
      let pc ← s.pc i
      let threads ← s.threads.step true (.call i (.handler e))
      let (conn, kern) ← Session.effect M ⟨pc, s.conn i, s.kern⟩ e
      some ⟨threads, Function.update s.conn i conn, kern⟩
  | _ => none

/-- **The server as a machine.** -/
def server (M : ℕ) : Machine Server Act (List UInt8) where
  step s a := (s.step M a).map fun s' => (s', s.writes a)

/-- No call fails, and `recv` returns what `P` allows. -/
def Server.Guard (M : ℕ) (P : List (List UInt8) → Recv → Prop) (s : Server) : Act → Prop
  | .call i (.handler e) => ∀ pc ∈ s.pc i, Session.Guard M P ⟨pc, s.conn i, s.kern⟩ e
  | _ => True

instance (M : ℕ) (P : List (List UInt8) → Recv → Prop)
    [∀ delivered res, Decidable (P delivered res)] (s : Server) (a : Act) :
    Decidable (s.Guard M P a) := by
  unfold Server.Guard
  split <;> infer_instance

/-- The handlers that got the mutex, in this order. -/
def acquired (t : List (Act × List UInt8)) : List ℕ :=
  t.filterMap fun p => match p.1 with
    | .call i e => if e.mutexOp = .acquire then some i else none
    | _ => none

/-- The bytes written to the device. -/
def written (t : List (Act × List UInt8)) : List UInt8 := t.flatMap Prod.snd

/-- The bytes of a connection that the device has got. -/
def Server.block (s : Server) (i : ℕ) : List UInt8 := (s.conn i).handed.flatten

/-! ### What a step does -/

/-- What accepting connection `i` does. -/
structure Server.Accepts (s : Server) (i : ℕ) (s' : Server) : Prop where
  fresh : s.pc i = none
  step : s.threads.step true (.accept i) = some s'.threads
  owner : s'.threads.owner = s.threads.owner
  pc : s'.pc i = some .locking
  conn : s'.conn i = .init
  kern : s'.kern = s.kern
  others : ∀ j, j ≠ i → s'.pc j = s.pc j ∧ s'.conn j = s.conn j

/-- What a call `e` of handler `i`, at `pc`, does. -/
structure Server.Calls (M : ℕ) (s : Server) (i : ℕ) (e : Event) (s' : Server) (pc pc' : Pc) :
    Prop where
  here : s.pc i = some pc
  there : s'.pc i = some pc'
  step : s.threads.step true (.call i (.handler e)) = some s'.threads
  session : Session.step M ⟨pc, s.conn i, s.kern⟩ e = some ⟨pc', s'.conn i, s'.kern⟩
  acquire : (TaskEvent.handler e).mutexOp = .acquire → s'.threads.owner = some i
  release : (TaskEvent.handler e).mutexOp = .release → s'.threads.owner = none
  idle : (TaskEvent.handler e).mutexOp = .idle → s'.threads.owner = s.threads.owner
  others : ∀ j, j ≠ i → s'.pc j = s.pc j ∧ s'.conn j = s.conn j

/-- The call at the control point of its handler. -/
theorem Server.Calls.next {M : ℕ} {s s' : Server} {i : ℕ} {e : Event} {pc pc' : Pc}
    (hc : s.Calls M i e s' pc pc') : pc.next true e = some pc' :=
  (Session.step_eq_some.1 hc.session).1

/-- A call that succeeds is one of the moves of its connection. -/
theorem Server.Calls.moves {M : ℕ} {s s' : Server} {i : ℕ} {e : Event} {pc pc' : Pc}
    (hc : s.Calls M i e s' pc pc') (hok : Session.Succeeds M ⟨pc, s.conn i, s.kern⟩ e) :
    Session.Moves M ⟨pc, s.conn i, s.kern⟩ e ⟨pc', s'.conn i, s'.kern⟩ :=
  Session.step_moves hc.session hok

/-- **Everything a step can do.** -/
theorem Server.step_cases {M : ℕ} {s s' : Server} {a : Act} (h : s.step M a = some s') :
    (∃ i, a = .accept i ∧ s.Accepts i s') ∨
      (∃ i e pc pc', a = .call i (.handler e) ∧ s.Calls M i e s' pc pc') := by
  unfold Server.step at h
  split at h
  · next i =>
      left
      simp only [Option.bind_eq_bind, Option.bind_eq_some_iff, Option.some.injEq] at h
      obtain ⟨threads, hthreads, rfl⟩ := h
      obtain ⟨hnone, hpc, howner, hothers⟩ := Threads.step_accept hthreads
      exact ⟨i, rfl, Threads.pc_eq_none hnone, hthreads, howner, hpc, Function.update_self .., rfl,
        fun j hj => ⟨Threads.pc_congr (hothers j hj), Function.update_of_ne hj ..⟩⟩
  · next i e =>
      right
      simp only [Option.bind_eq_bind, Option.bind_eq_some_iff, Option.some.injEq] at h
      obtain ⟨pc, hpc, threads, hthreads, ⟨conn, kern⟩, heff, rfl⟩ := h
      obtain ⟨pc₁, pc', hcalls⟩ := Threads.step_handler hthreads
      obtain rfl : pc = pc₁ := Option.some.inj (hpc.symm.trans hcalls.here)
      have hstep : Session.step M ⟨pc, s.conn i, s.kern⟩ e = some ⟨pc', conn, kern⟩ :=
        Session.step_of hcalls.next heff
      refine ⟨i, e, pc, pc', rfl, hpc, hcalls.there, hthreads, ?_, hcalls.acquire, hcalls.release,
        hcalls.idle, fun j hj =>
          ⟨Threads.pc_congr (hcalls.others j hj), Function.update_of_ne hj ..⟩⟩
      simpa using hstep
  · cases h

/-! ### One connection after the other -/

/-- **The connections, one after the other**: each is a run of `session` from the device that the
one before left. -/
inductive Server.Serial (M : ℕ) (P : List (List UInt8) → Recv → Prop) (s : Server) (k₀ : Kernel) :
    List ℕ → Kernel → Prop
  | nil : Serial M P s k₀ [] k₀
  | snoc {is : List ℕ} {i : ℕ} {k k' : Kernel} {pc : Pc} : Serial M P s k₀ is k →
      s.pc i = some pc →
      (session M).Reach (Session.Guard M P) (Session.init k) ⟨pc, s.conn i, k'⟩ →
      Serial M P s k₀ (is ++ [i]) k'

variable {M : ℕ} {P : List (List UInt8) → Recv → Prop} {s s' : Server} {k₀ k : Kernel}

/-- Connections that go on by themselves stay one after the other. -/
theorem Server.Serial.mono {is : List ℕ} (h : s.Serial M P k₀ is k)
    (hon : ∀ i ∈ is, ∀ pc k k', s.pc i = some pc →
      (session M).Reach (Session.Guard M P) (Session.init k) ⟨pc, s.conn i, k'⟩ →
      ∃ pc', s'.pc i = some pc' ∧
        (session M).Reach (Session.Guard M P) (Session.init k) ⟨pc', s'.conn i, k'⟩) :
    s'.Serial M P k₀ is k := by
  induction h with
  | nil => exact .nil
  | snoc _ hpc hreach ih =>
      obtain ⟨pc', hpc', hreach'⟩ := hon _ (by simp) _ _ _ hpc hreach
      exact .snoc (ih fun i hi => hon i (List.mem_append_left _ hi)) hpc' hreach'

/-- The last connection of a serial run. -/
theorem Server.Serial.last {is : List ℕ} {i : ℕ} (h : s.Serial M P k₀ (is ++ [i]) k) :
    ∃ k₁ pc, s.Serial M P k₀ is k₁ ∧ s.pc i = some pc ∧
      (session M).Reach (Session.Guard M P) (Session.init k₁) ⟨pc, s.conn i, k⟩ := by
  generalize heq : is ++ [i] = js at h
  cases h with
  | nil => simp at heq
  | snoc hserial hpc hreach =>
      obtain ⟨rfl, hi⟩ := List.append_inj' heq rfl
      obtain rfl := List.head_eq_of_cons_eq hi
      exact ⟨_, _, hserial, hpc, hreach⟩

/-- Every connection of a serial run, and those before it. -/
theorem Server.Serial.cut {pre post : List ℕ} {i : ℕ}
    (h : s.Serial M P k₀ (pre ++ i :: post) k) :
    ∃ k₂, s.Serial M P k₀ (pre ++ [i]) k₂ := by
  induction post using List.reverseRecOn generalizing k with
  | nil => exact ⟨k, h⟩
  | append_singleton post j ih =>
      rw [← List.cons_append, ← List.append_assoc] at h
      obtain ⟨k₁, -, hserial, -, -⟩ := h.last
      exact ih hserial

/-! ### What a step means for a serial run -/

/-- What a step hands to the device goes to the end of what was handed. -/
theorem Session.Moves.handed {s s' : Session} {e : Event} (hm : s.Moves M e s') :
    s'.conn.handed.flatten = s.conn.handed.flatten ++ s.conn.writes e := by
  cases hm <;> simp [Conn.writes]

/-- A handler that has unlocked the mutex changes neither its connection nor the device, and goes on
in the same way whatever became of the device. -/
theorem Session.Moves.settled {s s' : Session} {e : Event} (hm : s.Moves M e s')
    (hafter : s.pc.phase = .after) :
    s'.conn = s.conn ∧ s'.kern = s.kern ∧ ∀ k : Kernel,
      (session M).Reach (Session.Guard M P) ⟨s.pc, s.conn, k⟩ ⟨s'.pc, s.conn, k⟩ := by
  cases hm with
  | close hpc =>
      refine ⟨rfl, rfl, fun k => Session.reach_step (e := .close) ?_
        ⟨trivial, Session.receives_other rfl⟩⟩
      rw [hpc]
      rfl
  | clear hpc =>
      refine ⟨rfl, rfl, fun k => Session.reach_step (e := .clear) ?_
        ⟨trivial, Session.receives_other rfl⟩⟩
      rw [hpc]
      rfl
  | complete hpc =>
      refine ⟨rfl, rfl, fun k => Session.reach_step (e := .complete) ?_
        ⟨trivial, Session.receives_other rfl⟩⟩
      rw [hpc]
      rfl
  | flush n env kern res hopen =>
      cases hpc : s.pc <;> simp [hpc, Pc.phase, Pc.fileOpen] at hafter hopen
  | lock hpc | fopen hpc | recv _ hpc | closed _ hpc | ioctl _ _ _ _ _ hpc | fwrite _ _ hpc
  | fill _ _ hpc | fread hpc | send _ hpc | fclose hpc | unlock hpc =>
      rw [hpc] at hafter
      cases hafter

/-- **The invariant of the server.** -/
structure Server.Ordered (M : ℕ) (P : List (List UInt8) → Recv → Prop)
    (t : List (Act × List UInt8)) (s : Server) : Prop where
  threads : s.threads.Inv
  serial : s.Serial M P .init (acquired t) s.kern
  nodup : (acquired t).Nodup
  mem : ∀ i, i ∈ acquired t ↔ ∃ pc, s.pc i = some pc ∧ pc.phase ≠ .before
  /-- The mutex belongs to the newest connection or to none. -/
  newest : ∀ i, s.threads.owner = some i → ∃ pre, acquired t = pre ++ [i]
  waiting : ∀ i, i ∉ acquired t → s.conn i = .init
  written : written t = (acquired t).flatMap s.block

theorem Server.Ordered.init : Server.init.Ordered M P [] where
  threads := Threads.Inv.init
  serial := .nil
  nodup := List.nodup_nil
  mem := by simp [acquired, Server.init, Server.pc, Threads.pc, Threads.init]
  newest := nofun
  waiting := fun _ _ => rfl
  written := rfl

/-! ### The invariant is kept -/

variable {t : List (Act × List UInt8)}

theorem acquired_snoc (a : Act) (bs : List UInt8) :
    acquired (t ++ [(a, bs)]) = acquired t ++ (match a with
      | .call i e => if e.mutexOp = .acquire then [i] else []
      | _ => []) := by
  unfold acquired
  rw [List.filterMap_append]
  congr 1
  cases a with
  | call i e => by_cases hop : e.mutexOp = .acquire <;> simp [hop]
  | _ => rfl

theorem acquired_snoc_of_ne {i : ℕ} {e : TaskEvent} (bs : List UInt8) (hop : e.mutexOp ≠ .acquire) :
    acquired (t ++ [(.call i e, bs)]) = acquired t := by
  rw [acquired_snoc]
  simp [hop]

theorem written_snoc (a : Act) (bs : List UInt8) :
    written (t ++ [(a, bs)]) = written t ++ bs := by
  simp [written]

/-- A step that succeeds is neither of the two failures that break the discipline. -/
theorem Session.Succeeds.good {s : Session} {e : Event} (h : s.Succeeds M e) :
    (TaskEvent.handler e).Good := by
  cases e with
  | lock res => exact h
  | _ => trivial

/-- A handler has the mutex exactly between its lock and its unlock. -/
theorem Server.Ordered.owner_iff (h : s.Ordered M P t) {i : ℕ} {pc : Pc} (hpc : s.pc i = some pc) :
    s.threads.owner = some i ↔ pc.phase = .inside := by
  obtain ⟨th, hth, htask⟩ := Threads.thread_of_pc hpc
  rw [h.threads.owned i th hth, htask]
  rfl

theorem Server.Ordered.accept {i : ℕ} {bs : List UInt8} (h : s.Ordered M P t)
    (ha : s.Accepts i s') (hbs : bs = []) : s'.Ordered M P (t ++ [(.accept i, bs)]) := by
  have hout : i ∉ acquired t := by
    intro hi
    obtain ⟨pc, hpc, -⟩ := (h.mem i).1 hi
    rw [ha.fresh] at hpc
    cases hpc
  have hne : ∀ j ∈ acquired t, j ≠ i := fun j hj hji => hout (hji ▸ hj)
  have hacq : acquired (t ++ [(.accept i, bs)]) = acquired t := by
    rw [acquired_snoc, List.append_nil]
  constructor
  · exact h.threads.step (a := .accept i) trivial ha.step
  · rw [hacq, ha.kern]
    refine h.serial.mono fun j hj pc k k' hpc hreach => ⟨pc, ?_, ?_⟩
    · rw [(ha.others j (hne j hj)).1, hpc]
    · rwa [(ha.others j (hne j hj)).2]
  · rw [hacq]
    exact h.nodup
  · intro j
    rw [hacq, h.mem]
    by_cases hj : j = i
    · rw [hj, ha.fresh, ha.pc]
      refine iff_of_false nofun ?_
      rintro ⟨pc, hpc, hphase⟩
      cases hpc
      exact hphase rfl
    · rw [(ha.others j hj).1]
  · rw [hacq, ha.owner]
    exact h.newest
  · intro j hj
    by_cases hji : j = i
    · rw [hji, ha.conn]
    · rw [(ha.others j hji).2]
      exact h.waiting j (hacq ▸ hj)
  · rw [hacq, written_snoc, hbs, List.append_nil, h.written]
    refine List.flatMap_congr ?_
    intro j hj
    rw [Server.block, Server.block, (ha.others j (hne j hj)).2]

/-- What has to be checked when a handler that had got the mutex makes a call. -/
theorem Server.Ordered.call {i : ℕ} {e : Event} {pc pc' : Pc} {bs : List UInt8}
    (h : s.Ordered M P t) (hc : s.Calls M i e s' pc pc') (hgood : (TaskEvent.handler e).Good)
    (hop : (TaskEvent.handler e).mutexOp ≠ .acquire) (hphase : pc.phase ≠ .before)
    (hphase' : pc'.phase ≠ .before) (hserial : s'.Serial M P .init (acquired t) s'.kern)
    (hwritten : Aesd.written t ++ bs = (acquired t).flatMap s'.block) :
    s'.Ordered M P (t ++ [(.call i (.handler e), bs)]) := by
  have hacq : acquired (t ++ [(.call i (.handler e), bs)]) = acquired t :=
    acquired_snoc_of_ne bs hop
  have hin : i ∈ acquired t := (h.mem i).2 ⟨pc, hc.here, hphase⟩
  constructor
  · exact h.threads.step (a := .call i (.handler e)) hgood hc.step
  · rwa [hacq]
  · rw [hacq]
    exact h.nodup
  · intro j
    rw [hacq]
    by_cases hj : j = i
    · rw [hj]
      exact iff_of_true hin ⟨pc', hc.there, hphase'⟩
    · rw [h.mem, (hc.others j hj).1]
  · intro j hj
    rw [hacq]
    cases hop' : (TaskEvent.handler e).mutexOp with
    | acquire => exact absurd hop' hop
    | release =>
        rw [hc.release hop'] at hj
        cases hj
    | idle => exact h.newest j (hc.idle hop' ▸ hj)
  · intro j hj
    rw [hacq] at hj
    rw [(hc.others j fun hji => hj (hji ▸ hin)).2]
    exact h.waiting j hj
  · rwa [hacq, written_snoc]

/-- The handler gets the mutex. -/
theorem Server.Ordered.acquire {i : ℕ} {e : Event} {pc pc' : Pc} {bs : List UInt8}
    (h : s.Ordered M P t) (hc : s.Calls M i e s' pc pc')
    (hm : Session.Moves M ⟨pc, s.conn i, s.kern⟩ e ⟨pc', s'.conn i, s'.kern⟩)
    (hop : (TaskEvent.handler e).mutexOp = .acquire) (hbs : bs = []) :
    s'.Ordered M P (t ++ [(.call i (.handler e), bs)]) := by
  generalize hsess : (⟨pc', s'.conn i, s'.kern⟩ : Session) = sess at hm
  cases hm with
  | lock hpc =>
      obtain rfl : pc = .locking := hpc
      obtain ⟨rfl, hconn, hkern⟩ := Session.mk.inj hsess
      have hout : i ∉ acquired t := by
        intro hi
        obtain ⟨pc, hpc, hphase⟩ := (h.mem i).1 hi
        obtain rfl := Option.some.inj (hc.here.symm.trans hpc)
        exact hphase rfl
      have hne : ∀ j ∈ acquired t, j ≠ i := fun j hj hji => hout (hji ▸ hj)
      have hacq : acquired (t ++ [(.call i (.handler (.lock 0)), bs)]) = acquired t ++ [i] := by
        rw [acquired_snoc]
        rfl
      have hinit : s'.conn i = .init := hconn.trans (h.waiting i hout)
      constructor
      · exact h.threads.step (a := .call i (.handler (.lock 0))) rfl hc.step
      · rw [hacq, hkern]
        refine .snoc (h.serial.mono fun j hj pc k k' hpc hreach => ⟨pc, ?_, ?_⟩) hc.there ?_
        · rw [(hc.others j (hne j hj)).1, hpc]
        · rwa [(hc.others j (hne j hj)).2]
        · rw [hinit]
          exact Session.reach_step (e := .lock 0) rfl ⟨rfl, Session.receives_other rfl⟩
      · rw [hacq]
        exact List.nodup_append.2 ⟨h.nodup, List.nodup_singleton i, fun j hj k hk =>
          List.mem_singleton.1 hk ▸ hne j hj⟩
      · intro j
        rw [hacq, List.mem_append, List.mem_singleton]
        by_cases hj : j = i
        · rw [hj]
          exact iff_of_true (Or.inr rfl) ⟨.opening, hc.there, nofun⟩
        · rw [or_iff_left hj, h.mem, (hc.others j hj).1]
      · intro j hj
        obtain rfl := Option.some.inj ((hc.acquire hop).symm.trans hj)
        exact ⟨acquired t, hacq⟩
      · intro j hj
        rw [hacq, List.mem_append, List.mem_singleton, not_or] at hj
        rw [(hc.others j hj.2).2]
        exact h.waiting j hj.1
      · rw [hacq, written_snoc, hbs, List.append_nil, h.written, List.flatMap_append]
        have hblock : [i].flatMap s'.block = [] := by simp [Server.block, hinit, Conn.init]
        rw [hblock, List.append_nil]
        refine List.flatMap_congr ?_
        intro j hj
        rw [Server.block, Server.block, (hc.others j (hne j hj)).2]
  | fopen | recv | closed | ioctl | fwrite | flush | fill | fread | send | fclose | unlock | close
  | clear | complete => cases hop

/-- The handler that has the mutex makes a call: the last connection goes on. -/
theorem Server.Ordered.inside {i : ℕ} {e : Event} {pc pc' : Pc} (h : s.Ordered M P t)
    (hc : s.Calls M i e s' pc pc') (hok : Session.Guard M P ⟨pc, s.conn i, s.kern⟩ e)
    (hop : (TaskEvent.handler e).mutexOp ≠ .acquire) (hphase : pc.phase = .inside)
    (hphase' : pc'.phase ≠ .before) :
    s'.Ordered M P (t ++ [(.call i (.handler e), s.writes (.call i (.handler e)))]) := by
  have hm := hc.moves hok.1
  obtain ⟨pre, hpre⟩ := h.newest i ((h.owner_iff hc.here).2 hphase)
  have hne : ∀ j ∈ pre, j ≠ i := by
    have hnodup := h.nodup
    rw [hpre, List.nodup_append] at hnodup
    exact fun j hj => hnodup.2.2 j hj i (List.mem_singleton_self i)
  refine h.call hc hok.1.good hop (by rw [hphase]; exact nofun) hphase' ?_ ?_
  · have hserial := h.serial
    rw [hpre] at hserial ⊢
    obtain ⟨k₁, pc₁, hbefore, hpc₁, hreach⟩ := hserial.last
    obtain rfl := Option.some.inj (hc.here.symm.trans hpc₁)
    refine .snoc (hbefore.mono fun j hj pc k k' hpc hreach => ⟨pc, ?_, ?_⟩) hc.there
      (hreach.trans (Session.reach_step hc.session hok))
    · rw [(hc.others j (hne j hj)).1, hpc]
    · rwa [(hc.others j (hne j hj)).2]
  · have hblock : s'.block i = s.block i ++ s.writes (.call i (.handler e)) := by
      rw [Server.block, Server.block, hm.handed]
      cases e <;> rfl
    rw [h.written, hpre, List.flatMap_append, List.flatMap_append, List.append_assoc]
    congr 1
    · refine List.flatMap_congr ?_
      intro j hj
      rw [Server.block, Server.block, (hc.others j (hne j hj)).2]
    · simp [hblock]

/-- A handler that has unlocked the mutex makes a call. -/
theorem Server.Ordered.settled {i : ℕ} {e : Event} {pc pc' : Pc} (h : s.Ordered M P t)
    (hc : s.Calls M i e s' pc pc') (hok : Session.Guard M P ⟨pc, s.conn i, s.kern⟩ e)
    (hop : (TaskEvent.handler e).mutexOp ≠ .acquire) (hphase : pc.phase = .after)
    (hphase' : pc'.phase = .after) :
    s'.Ordered M P (t ++ [(.call i (.handler e), s.writes (.call i (.handler e)))]) := by
  have hm := hc.moves hok.1
  obtain ⟨hconn, hkern, hreach⟩ := hm.settled (P := P) hphase
  have hothers : ∀ j, s'.conn j = s.conn j := by
    intro j
    by_cases hj : j = i
    · rw [hj]
      exact hconn
    · exact (hc.others j hj).2
  refine h.call hc hok.1.good hop (by rw [hphase]; exact nofun) (by rw [hphase']; exact nofun)
    ?_ ?_
  · rw [show s'.kern = s.kern from hkern]
    refine h.serial.mono ?_
    intro j hj pc₁ k k' hpc₁ hreach₁
    rw [hothers j]
    by_cases hji : j = i
    · subst hji
      obtain rfl := Option.some.inj (hc.here.symm.trans hpc₁)
      exact ⟨pc', hc.there, hreach₁.trans (hreach k')⟩
    · exact ⟨pc₁, (hc.others j hji).1.trans hpc₁, hreach₁⟩
  · have hnone : s.writes (.call i (.handler e)) = [] := by
      have hhanded := hm.handed
      rw [show s'.conn i = s.conn i from hconn] at hhanded
      exact List.self_eq_append_right.1 hhanded
    rw [hnone, List.append_nil, h.written]
    refine List.flatMap_congr ?_
    intro j _
    rw [Server.block, Server.block, hothers j]

/-- **A step keeps the invariant.** -/
theorem Server.Ordered.step {a : Act} (h : s.Ordered M P t) (hok : s.Guard M P a)
    (hstep : s.step M a = some s') : s'.Ordered M P (t ++ [(a, s.writes a)]) := by
  rcases Server.step_cases hstep with ⟨i, rfl, ha⟩ | ⟨i, e, pc, pc', rfl, hc⟩
  · exact h.accept ha rfl
  · have hguard := hok pc hc.here
    have hm := hc.moves hguard.1
    have hmoves := Pc.next_phase hc.next hguard.1.good
    cases hop : (TaskEvent.handler e).mutexOp with
    | acquire =>
        refine h.acquire hc hm hop ?_
        cases e with
        | flush n env => cases hop
        | _ => rfl
    | release =>
        rw [hop] at hmoves
        exact h.inside hc hguard (by rw [hop]; exact nofun) hmoves.1 (by rw [hmoves.2]; exact nofun)
    | idle =>
        have hne : (TaskEvent.handler e).mutexOp ≠ .acquire := by
          rw [hop]
          exact nofun
        -- a handler that waits for the mutex can only lock it
        have hbefore : pc.phase ≠ .before := by
          intro hphase
          generalize hsess : (⟨pc', s'.conn i, s'.kern⟩ : Session) = sess at hm
          cases hm with
          | lock => cases hop
          | flush n env kern res hopen =>
              cases pc <;> simp [Pc.phase, Pc.fileOpen] at hphase hopen
          | fopen hpc | recv _ hpc | closed _ hpc | ioctl _ _ _ _ _ hpc | fwrite _ _ hpc
          | fill _ _ hpc | fread hpc | send _ hpc | fclose hpc | unlock hpc | close hpc | clear hpc
          | complete hpc =>
              obtain rfl : pc = _ := hpc
              cases hphase
        rw [hop] at hmoves
        have hsame : pc'.phase = pc.phase := hmoves.resolve_right fun hc => hbefore hc.1
        cases hphase : pc.phase with
        | before => exact absurd hphase hbefore
        | inside => exact h.inside hc hguard hne hphase (hsame ▸ hbefore)
        | after => exact h.settled hc hguard hne hphase (hsame.trans hphase)

/-- **Every run of the server is serial**: in every order of the steps of any number of handlers. -/
theorem server_serial (h : (server M).Trace (Server.Guard M P) Server.init t s) :
    s.Ordered M P t := by
  induction h with
  | nil => exact Server.Ordered.init
  | snoc _ hok hs ih =>
      obtain ⟨s₁, hs₁, heq⟩ := Option.map_eq_some_iff.1 hs
      obtain ⟨rfl, rfl⟩ := Prod.mk.inj heq
      exact ih.step hok hs₁

/-! ### A handler that has the mutex -/

/-- **What a handler that is past its lock can do alone, it can do in the server.** -/
theorem Server.reach_of_session {i : ℕ} {pc : Pc} {sess : Session} (hpc : s.pc i = some pc)
    (hphase : pc.phase ≠ .before)
    (h : (session M).Reach (Session.Guard M P) ⟨pc, s.conn i, s.kern⟩ sess) :
    ∃ s', (server M).Reach (Server.Guard M P) s s' ∧ s'.pc i = some sess.pc ∧
      s'.conn i = sess.conn ∧ s'.kern = sess.kern ∧ sess.pc.phase ≠ .before := by
  obtain ⟨t, ht⟩ := h
  induction ht with
  | nil => exact ⟨s, .refl, hpc, rfl, rfl, hphase⟩
  | @snoc t s₁ s₂ e o _ hok hs ih =>
      obtain ⟨s', hreach, hpc', hconn', hkern', hphase'⟩ := ih
      obtain ⟨s₃, hs₃, heq⟩ := Option.map_eq_some_iff.1 hs
      obtain ⟨rfl, -⟩ := Prod.mk.inj heq
      have hsess : (⟨s₁.pc, s'.conn i, s'.kern⟩ : Session) = s₁ := by rw [hconn', hkern']
      obtain ⟨hnext, heff⟩ := Session.step_eq_some.1 hs₃
      have hmoves := Pc.next_phase hnext hok.1.good
      -- it does not have to wait for the mutex
      obtain ⟨threads, hthreads⟩ := Threads.step_possible hpc' hnext fun hop => by
        rw [hop] at hmoves
        exact absurd hmoves.1 hphase'
      have hstep : s'.step M (.call i (.handler e))
          = some ⟨threads, Function.update s'.conn i s₃.conn, s₃.kern⟩ := by
        simp only [Server.step, Option.bind_eq_bind, hpc', hthreads, Option.bind_some, hsess, heff]
      have hguard : s'.Guard M P (.call i (.handler e)) := by
        intro pc₁ hpc₁
        obtain rfl := Option.some.inj (hpc'.symm.trans hpc₁)
        rwa [hsess]
      refine ⟨_, hreach.step hguard (Option.map_eq_some_iff.2 ⟨_, hstep, rfl⟩), ?_, ?_, rfl, ?_⟩
      · rcases Server.step_cases hstep with ⟨_, ha, -⟩ | ⟨j, e', pc₁, pc₂, ha, hc⟩
        · cases ha
        · obtain ⟨rfl, he⟩ := Act.call.inj ha
          obtain rfl := TaskEvent.handler.inj he
          obtain rfl := Option.some.inj (hpc'.symm.trans hc.here)
          rw [hc.there]
          exact hc.next.symm.trans hnext
      · exact Function.update_self ..
      · intro hbefore
        cases hop : (TaskEvent.handler e).mutexOp <;> rw [hop, hbefore] at hmoves
        · cases hmoves.2
        · cases hmoves.2
        · rcases hmoves with hsame | ⟨-, hafter⟩
          · exact hphase' hsame.symm
          · cases hafter

end Aesd
