/-
**The process comes to its end.**

Behind a signal `main` has to leave `accept`, to look at the queue, to leave its loop, and to join
every handler that is still at work; a handler may have to wait for the mutex, which another one
has, and that one has bytes to hand over to the device and a reply to send.  So there are three
things that could be in the way for good: a socket that nobody shuts down, a mutex that nobody gives
back, and a handler that does not return.

Here the process of `Shutdown` stands over the device.  Its handlers are those of `Server`: a call
of a handler is a step of both, and so is the creation of one.  From outside comes no connection, no
signal and no byte; a client has shut down its sending side, or does so now, and takes what it is
sent.  No call of the loop and of the handlers fails, and the call of `syslog` in `signal_handler`
returns.  Then whatever the threads do, in whatever order, they can do a bounded number of times,
and until `main` has returned there is always something they can do.

* `DeviceService`, `deviceService` — the process over the device, as a machine;
* `DeviceService.Unaided` — the steps that it makes alone;
* `MainPc.todo`, `Process.todo` — the calls that are left in the loop, with those of the handlers;
* `Process.Inv.progress` — in the loop `main` waits for nobody but a handler at work;
* `DeviceService.Inv` — the handlers are a run of the server over the device;
* `DeviceService.Finished` — how the process leaves things;
* `server_stops` — **from wherever a signal is met, the process comes to its end alone.**
-/

import Aesd.HandlerEnd
import Aesd.Shutdown

set_option relaxedAutoImplicit false
set_option autoImplicit false

namespace Aesd

/-! ### The process over the device -/

/-- The process, the connections by the numbers of their handlers, and the device. -/
structure DeviceService where
  service : Service
  conn : ℕ → Conn
  kern : Kernel

/-- The process when it starts, and the device as loaded. -/
def DeviceService.init : DeviceService := ⟨.init, fun _ => .init, .init⟩

/-- The handlers of the process, with their connections and the device. -/
def DeviceService.handlers (s : DeviceService) : Server :=
  ⟨s.service.process.threads, s.conn, s.kern⟩

/-- What a step of the process is to the handlers. -/
def Service.serverAct (s : Service) : ServiceAct → Option Act
  | .process (.handler i e) => some (.call i (.handler e))
  | .process (.main (.pthreadCreate true)) =>
      match s.process.main with
      | .creating i => some (.accept i)
      | _ => none
  | _ => none

/-- A step of the process, and what it does to the connections and the device. -/
def DeviceService.step (M : ℕ) (daemon : Bool) (s : DeviceService) (a : ServiceAct) :
    Option (DeviceService × List Misuse) := do
  let (service, misuse) ← s.service.step daemon a
  match s.service.serverAct a with
  | none => some ({ s with service := service }, misuse)
  | some b => do
      let server ← s.handlers.step M b
      some (⟨service, server.conn, server.kern⟩, misuse)

/-- **The process over the device as a machine.** -/
def deviceService (M : ℕ) (daemon : Bool) : Machine DeviceService ServiceAct (List Misuse) where
  step := DeviceService.step M daemon

/-- Nothing fails in the loop, and the shutdown meets no handler at work. -/
def Service.Orderly (s : Service) : ServiceAct → Prop
  | .process a => s.process.Orderly a
  | .call _ | .leave | .shutdown => True

/-- No call of a handler fails either; the clients send what they like. -/
def DeviceService.Orderly (M : ℕ) (s : DeviceService) (a : ServiceAct) : Prop :=
  s.service.Orderly a ∧ ∀ b ∈ s.service.serverAct a, s.handlers.Guard M anyChunks b

/-- Something comes from outside: a connection, bytes from a client, or a signal; or `accept`
returns although the socket was not shut down. -/
def Service.Aided (s : Service) : ServiceAct → Prop
  | .process (.main (.accept connection)) => connection ≠ none ∨ s.listener ≠ .shut
  | .process (.handler _ e) => e.isChunk = true
  | .process .signal => True
  | _ => False

/-- **A step that the process makes alone**: a client shuts down its sending side at most, and takes
what it is sent. -/
def DeviceService.Unaided (M : ℕ) (s : DeviceService) (a : ServiceAct) : Prop :=
  s.Orderly M a ∧ ¬ s.service.Aided a

variable {M : ℕ} {daemon : Bool} {service service' : Service} {s s' : DeviceService}
  {a : ServiceAct} {o : List Misuse}

/-! ### A step of the process and of the server -/

theorem Process.handlerStep_threads {p p' : Process} {i : ℕ} {e : Event}
    (h : p.handlerStep i e = some (p', o)) :
    p.threads.step true (.call i (.handler e)) = some p'.threads := by
  simp only [Process.handlerStep, Process.handlerCall, Option.bind_eq_bind] at h
  obtain ⟨c, -, h⟩ := Option.bind_eq_some_iff.1 h
  split at h
  · cases h
  · obtain ⟨threads, hthreads, heq⟩ := Option.bind_eq_some_iff.1 h
    cases heq
    exact hthreads

/-- The process does to its threads what the step is to the handlers. -/
theorem Service.step_threads (h : service.step daemon a = some (service', o)) :
    match service.serverAct a with
    | none => service'.process.threads = service.process.threads
    | some b => service.process.threads.step true b = some service'.process.threads := by
  cases a with
  | call ok =>
      obtain ⟨pc, -, -, rfl, -⟩ := Service.call_cases h
      rfl
  | leave =>
      obtain ⟨-, -, rfl, -⟩ := Service.leave_cases h
      rfl
  | shutdown =>
      obtain ⟨-, rfl, -⟩ := Service.shutdown_cases h
      rfl
  | process a =>
      obtain ⟨-, p, hp, rfl⟩ := Service.process_cases h
      cases a with
      | main e =>
          cases Process.mainStep_moves hp with
          | created i threads hmain hthreads =>
              simp only [Service.serverAct, hmain]
              exact hthreads
          | _ => rfl
      | handler i e => exact Process.handlerStep_threads hp
      | signal =>
          cases hp
          rfl
      | cancelled i =>
          obtain ⟨c, pc, -, -, -, rfl, -⟩ := Process.endStep_cases hp
          rfl

theorem Server.step_threads {srv srv' : Server} {b : Act} (h : srv.step M b = some srv') :
    srv.threads.step true b = some srv'.threads := by
  rcases Server.step_cases h with ⟨i, rfl, ha⟩ | ⟨i, e, pc, pc', rfl, hc⟩
  · exact ha.step
  · exact hc.step

/-- **A step of the process is a step of the server**, or leaves it alone. -/
theorem DeviceService.step_cases (h : s.step M daemon a = some (s', o)) :
    s.service.step daemon a = some (s'.service, o) ∧
      ((s.service.serverAct a = none ∧ s'.handlers = s.handlers) ∨
        ∃ b, s.service.serverAct a = some b ∧ s.handlers.step M b = some s'.handlers) := by
  simp only [DeviceService.step, Option.bind_eq_bind] at h
  obtain ⟨⟨service, misuse⟩, hservice, h⟩ := Option.bind_eq_some_iff.1 h
  have hthreads := Service.step_threads hservice
  cases hact : s.service.serverAct a with
  | none =>
      simp only [hact] at h hthreads
      cases h
      refine ⟨hservice, Or.inl ⟨rfl, ?_⟩⟩
      simp only [DeviceService.handlers, hthreads]
  | some b =>
      simp only [hact] at h hthreads
      obtain ⟨server, hserver, heq⟩ := Option.bind_eq_some_iff.1 h
      cases heq
      refine ⟨hservice, Or.inr ⟨b, rfl, ?_⟩⟩
      have hsame : service.process.threads = server.threads :=
        Option.some.inj (hthreads.symm.trans (Server.step_threads hserver))
      simp only [DeviceService.handlers, hsame]
      exact hserver

/-- A step that is possible for the process, and for the server where it is one, is possible. -/
theorem DeviceService.step_possible (hservice : s.service.step daemon a = some (service', o))
    (hserver : ∀ b, s.service.serverAct a = some b → ∃ server, s.handlers.step M b = some server) :
    ∃ s', s.step M daemon a = some (s', o) := by
  cases hact : s.service.serverAct a with
  | none =>
      exact ⟨{ s with service := service' }, by
        simp only [DeviceService.step, hservice, hact, Option.bind_eq_bind, Option.bind_some]⟩
  | some b =>
      obtain ⟨server, hstep⟩ := hserver b hact
      exact ⟨⟨service', server.conn, server.kern⟩, by
        simp only [DeviceService.step, hservice, hact, hstep, Option.bind_eq_bind,
          Option.bind_some]⟩

/-- The steps of the process that are steps of the server. -/
theorem Service.serverAct_eq_some {b : Act} (h : service.serverAct a = some b) :
    (∃ i, a = .process (.main (.pthreadCreate true)) ∧ service.process.main = .creating i ∧
      b = .accept i) ∨ ∃ i e, a = .process (.handler i e) ∧ b = .call i (.handler e) := by
  unfold Service.serverAct at h
  split at h
  · next i e =>
      cases h
      exact Or.inr ⟨i, e, rfl, rfl⟩
  · split at h
    · next i hmain =>
        cases h
        exact Or.inl ⟨i, rfl, hmain, rfl⟩
    · cases h
  · cases h

/-! ### What is left to do in the loop -/

/-- The calls that `main` has left in its loop at most when nobody connects, with `n` connections in
the queue; those of a handler that it is about to create are among them. -/
def MainPc.todo (n : ℕ) : MainPc → ℕ
  | .allocatingData _ => 13 * n + 30
  | .allocatingInstance _ => 13 * n + 29
  | .creating _ => 13 * n + 28
  | .enqueueing _ => 13 * n + 17
  | .checking nodes => 6 * n + 7 * nodes.length + 3
  | .closing _ (some nodes) => 6 * n + 7 * nodes.length + 9
  | .freeingData _ (some nodes) => 6 * n + 7 * nodes.length + 8
  | .joining _ (some nodes) => 6 * n + 7 * nodes.length + 7
  | .removing _ nodes => 6 * n + 7 * nodes.length + 6
  | .freeingInstance _ (some nodes) => 6 * n + 7 * nodes.length + 5
  | .accepting => 6 * n + 3
  | .testing => 6 * n + 2
  | .draining => 6 * n + 1
  | .closing _ none => 6 * n + 6
  | .freeingData _ none => 6 * n + 5
  | .joining _ none => 6 * n + 4
  | .freeingInstance _ none => 6 * n + 3
  | .killThread _ | .freeThreadInstance _ | .freeThreadData _ | .closeClient _ | .returned
  | .crashed => 0

/-- The calls that are left in the loop: those of `main`, those of the handlers in the queue, and
those of the one that `main` is working on, where `left` has those of each handler. -/
def Process.todo (left : ℕ → ℕ) (p : Process) : ℕ :=
  p.main.todo p.queue.length + (p.queue.map left).sum + (p.main.subject.map left).getD 0

/-- **A call of `main`** leaves one call less, when nobody connects and `is_active` is cleared. -/
theorem Process.Inv.mainStep_todo {p p' : Process} {e : MainEvent} {left left' : ℕ → ℕ} (h : p.Inv)
    (hok : p.Orderly (.main e)) (hsignal : p.isActive = false) (hnobody : ∀ i, e ≠ .accept (some i))
    (hdone : ∀ i, p.threads.pc i = some .done → left i = 0)
    (hsame : ∀ i, left' i = left i ∨ p.main = .creating i ∧ left' i ≤ 10)
    (hstep : p.mainStep e = some (p', o)) : p'.todo left' < p.todo left := by
  have hhere := h.here
  unfold Process.Subject at hhere
  -- only a handler that is created has other calls left
  have heq : (∀ i, p.main ≠ .creating i) → left' = left := fun hne =>
    funext fun i => (hsame i).resolve_right fun hc => hne i hc.1
  unfold Process.todo
  cases Process.mainStep_moves hstep with
  | test hmain => simp [hmain, heq, hsignal, MainPc.todo, MainPc.subject]
  | interrupted hmain => simp [hmain, heq, MainPc.todo, MainPc.subject]
  | accepted i hmain hclient hthread => exact absurd rfl (hnobody i)
  | dataAllocated i c hmain hc | instanceAllocated i c hmain hc =>
      simp [hmain, heq, MainPc.todo, MainPc.subject, Process.goto]
  | dataFailed _ _ | instanceFailed _ _ | createFailed _ _ | enqueueFailed _ _ => cases hok.1
  | created i threads hmain hthreads =>
      simp only [hmain] at hhere
      have hqueue : ∀ j ∈ p.queue, left' j = left j := by
        intro j hj
        refine (hsame j).resolve_right fun hc => hhere.1 ?_
        obtain rfl := MainPc.creating.inj (hmain.symm.trans hc.1)
        exact hj
      have hleft : left' i ≤ left i + 10 := by
        rcases hsame i with heq | hnew
        · exact heq.trans_le (Nat.le_add_right _ _)
        · exact hnew.2.trans (Nat.le_add_left _ _)
      simp only [hmain, MainPc.todo, MainPc.subject, Option.map_some, Option.getD_some,
        List.map_congr_left hqueue]
      omega
  | enqueued i hmain =>
      rw [heq fun _ hnew => MainPc.noConfusion (hmain.symm.trans hnew)]
      simp only [hmain, MainPc.todo, MainPc.subject, List.map_append, List.sum_append,
        List.map_cons, List.map_nil, List.sum_cons, List.sum_nil, List.length_append,
        List.length_singleton, Option.map_some, Option.getD_some, Option.map_none, Option.getD_none]
      omega
  | passEnds hmain => simp [hmain, heq, MainPc.todo, MainPc.subject]
  | checked i nodes c hmain hc =>
      simp only [hmain] at hhere
      obtain ⟨pc, hserves⟩ := h.queued i (hhere.2 i (by simp)) (by simp [hmain, MainPc.subject])
      obtain rfl := Option.some.inj (hc.symm.trans hserves.2)
      by_cases hcompleted : (Client.running pc).threadCompleted = true
      · -- the handler has returned
        have hleft : left i = 0 :=
          hdone i (hserves.1.trans (congrArg some (Client.running_completed.1 hcompleted)))
        simp [hmain, heq, hcompleted, MainPc.todo, MainPc.subject, hleft]
        omega
      · simp [hmain, heq, hcompleted, MainPc.todo, MainPc.subject]
  | close i rest c hmain hc hfd | closed i rest c hmain hc hfd | freeData i rest c hmain hc
  | join i rest c hmain hc _ =>
      cases rest <;> simp [hmain, heq, MainPc.todo, MainPc.subject, Process.goto]
  | remove i nodes hmain =>
      have hlength : (p.queue.erase i).length ≤ p.queue.length := List.length_erase_le
      have hsum : ((p.queue.erase i).map left).sum ≤ (p.queue.map left).sum :=
        (List.erase_sublist.map _).sum_le_sum fun _ _ => Nat.zero_le _
      rw [heq fun _ hnew => MainPc.noConfusion (hmain.symm.trans hnew)]
      simp only [hmain, MainPc.todo, MainPc.subject]
      omega
  | freeInstance i rest c hmain hc =>
      cases rest <;> simp [hmain, heq, MainPc.todo, MainPc.subject, Process.goto] <;> omega
  | kill i _ hmain _ | undoInstance i _ hmain _ | undoData i _ hmain _ | undoClient i _ hmain _ =>
      simp only [hmain] at hhere
  | returned hmain hqueue => simp [hmain, heq, hqueue, MainPc.todo, MainPc.subject]
  | dequeue i queue hmain hqueue =>
      simp [hmain, heq, hqueue, MainPc.todo, MainPc.subject]
      omega

/-- **A call of a handler** leaves one call less. -/
theorem Process.Inv.handlerStep_todo {p p' : Process} {i : ℕ} {e : Event} {left left' : ℕ → ℕ}
    (h : p.Inv) (hless : left' i < left i) (hothers : ∀ j, j ≠ i → left' j = left j)
    (hstep : p.handlerStep i e = some (p', o)) : p'.todo left' < p.todo left := by
  obtain ⟨c, threads, pc, pc', -, -, hcalls, rfl, -⟩ := Process.handlerStep_cases hstep
  have hle : ∀ j, left' j ≤ left j := by
    intro j
    by_cases hji : j = i
    · exact hji ▸ hless.le
    · exact (hothers j hji).le
  have hsubject : (p.main.subject.map left').getD 0 ≤ (p.main.subject.map left).getD 0 := by
    cases p.main.subject with
    | none => exact le_rfl
    | some j => exact hle j
  unfold Process.todo
  dsimp only
  by_cases hin : i ∈ p.queue
  · have hsum : (p.queue.map left').sum < (p.queue.map left).sum :=
      List.sum_lt_sum _ _ (fun j _ => hle j) ⟨i, hin, hless⟩
    omega
  · -- a handler at work is in the queue, or is the one that `main` is working on
    have hsum : (p.queue.map left').sum ≤ (p.queue.map left).sum :=
      List.sum_le_sum fun j _ => hle j
    have hsub : p.main.subject = some i := by
      by_contra hsub
      rcases h.settled i hin hsub with ⟨-, hnone⟩ | ⟨-, hend⟩
      · have hpc := hcalls.here
        rw [Threads.pc_eq_none hnone] at hpc
        cases hpc
      · obtain rfl := Option.some.inj (hcalls.here.symm.trans hend)
        exact absurd hcalls.next (by rw [Pc.next_done]; exact nofun)
    simp only [hsub, Option.map_some, Option.getD_some]
    omega

/-! ### Whom `main` waits for -/

/-- What a handler can do next it can do in the process. -/
theorem Process.Inv.handler_possible {p : Process} {i : ℕ} {e : Event} {pc : Pc} {threads : Threads}
    (h : p.Inv) (hpc : p.threads.pc i = some pc) (hdone : pc ≠ .done)
    (hthreads : p.threads.step true (.call i (.handler e)) = some threads) :
    ∃ q, p.handlerStep i e = some q := by
  have hclient := (h.serves hpc hdone).2
  refine ⟨({ p with
    client := Function.update p.client i (some ((Client.running pc).after e))
    threads := threads }, (Client.running pc).misuse i e), ?_⟩
  simp only [Process.handlerStep, Process.handlerCall, hclient, hthreads, Client.running_ended,
    Option.bind_eq_bind, Option.bind_some, Bool.false_eq_true, if_false]

/-- The call that `main` makes when nothing fails. -/
def MainPc.event : MainPc → MainEvent
  | .allocatingData _ | .allocatingInstance _ => .malloc true
  | .creating _ => .pthreadCreate true
  | .enqueueing _ => .queueEnqueue true
  | .accepting => .accept none
  | _ => .go

theorem MainPc.event_orderly {p : Process} {pc : MainPc} (hwaits : p.Waits (.main pc.event)) :
    p.Orderly (.main pc.event) ∧ ∀ i, pc.event ≠ .accept (some i) := by
  cases pc <;> exact ⟨⟨by trivial, hwaits⟩, nofun⟩

/-- **In the loop `main` waits for nobody but a handler**: it can make its next call, or there is a
handler that has not returned. -/
theorem Process.Inv.progress {p : Process} (h : p.Inv) (hreturned : p.main ≠ .returned) :
    (p.Waits (.main p.main.event) ∧ ∃ q, p.mainStep p.main.event = some q) ∨
      ∃ i pc, p.threads.pc i = some pc ∧ pc ≠ .done := by
  have hhere := h.here
  unfold Process.Subject at hhere
  unfold Process.Waits
  cases hmain : p.main <;> simp only [hmain] at hhere ⊢
  case returned => exact absurd hmain hreturned
  case testing | accepting =>
    left
    simp [Process.mainStep, hmain, MainPc.event]
  case draining =>
    left
    cases hqueue : p.queue <;> simp [Process.mainStep, hmain, hqueue, MainPc.event]
  case allocatingData i | allocatingInstance i =>
    left
    simp [Process.mainStep, hmain, hhere.2.2, MainPc.event]
  case creating i =>
    left
    simp [Process.mainStep, hmain, MainPc.event, Threads.step, Threads.spawn, hhere.2.1]
  case enqueueing i =>
    left
    simp [Process.mainStep, hmain, MainPc.event]
  case checking nodes =>
    left
    cases nodes with
    | nil => simp [Process.mainStep, hmain, MainPc.event]
    | cons i nodes =>
        obtain ⟨pc, hserves⟩ := h.queued i (hhere.2 i (by simp)) (by simp [hmain, MainPc.subject])
        simp [Process.mainStep, hmain, hserves.2, MainPc.event]
  case closing i rest | freeingData i rest =>
    obtain ⟨-, pc, hserves, -⟩ := hhere
    by_cases hdone : pc = .done
    · left
      subst hdone
      cases rest <;>
        simp [Process.mainStep, hmain, hserves.2, MainPc.event, Client.running, Client.serving]
    · exact Or.inr ⟨i, pc, hserves.1, hdone⟩
  case joining i rest =>
    left
    obtain ⟨-, hpc, hclient⟩ := hhere
    simp [Process.mainStep, hmain, hclient, hpc, MainPc.event]
  case removing i nodes =>
    left
    simp [Process.mainStep, hmain, MainPc.event]
  case freeingInstance i rest =>
    left
    simp [Process.mainStep, hmain, hhere.2.2.2, MainPc.event]

/-! ### Where the process is -/

/-- Where the process is, in its loop and around it. -/
structure Service.Inv (s : Service) : Prop where
  listens : s.Listens
  process : s.process.Inv
  empty : s.pc ≠ .serving → s.process.queue = []
  closed : s.pc.rank = 0 ∨ 13 < s.pc.rank → s.listener = .absent

theorem Service.Inv.init : Service.init.Inv where
  listens := .init
  process := .init
  empty := fun _ => rfl
  closed := fun _ => rfl

/-- There is no socket before the second call of `main`, and behind its last but two. -/
theorem LifePc.next_closed {ok : Bool} {pc pc' : LifePc} (h : pc.next true daemon ok = some pc')
    (hend : pc'.rank = 0 ∨ 13 < pc'.rank) (listener : Listener) :
    pc.listener ok listener = .absent ∨
      ((pc.rank = 0 ∨ 13 < pc.rank) ∧ pc.listener ok listener = listener) := by
  cases pc <;> cases ok <;> cases daemon <;> cases h <;>
    first
      | exact absurd hend (by decide)
      | exact Or.inl rfl
      | exact Or.inr ⟨by decide, rfl⟩

/-- **Every step** keeps the process there, and nothing happens that must not. -/
theorem Service.Inv.step (h : service.Inv) (hok : service.Orderly a)
    (hstep : service.step daemon a = some (service', o)) : service'.Inv ∧ o = [] := by
  have hlistens := h.listens.step hstep
  cases a with
  | call ok =>
      obtain ⟨pc, hpc, hserving, rfl, rfl⟩ := Service.call_cases hstep
      refine ⟨⟨hlistens, h.process, fun _ => h.empty hserving, ?_⟩, rfl⟩
      intro hend
      rcases LifePc.next_closed hpc hend service.listener with habsent | ⟨hend, hsame⟩
      · exact habsent
      · exact hsame.trans (h.closed hend)
  | leave =>
      obtain ⟨-, hmain, rfl, rfl⟩ := Service.leave_cases hstep
      have hhere := h.process.here
      unfold Process.Subject at hhere
      simp only [hmain] at hhere
      exact ⟨⟨hlistens, h.process, fun _ => hhere, fun hend => absurd hend (by
        change ¬ (12 = 0 ∨ 13 < 12)
        decide)⟩, rfl⟩
  | process a =>
      obtain ⟨hallows, p, hp, rfl⟩ := Service.process_cases hstep
      obtain ⟨hinv, ho⟩ := h.process.step hok hp
      refine ⟨⟨hlistens, hinv, ?_, h.closed⟩, ho⟩
      intro hserving
      have ha : ∀ e, a ≠ .main e := by
        rintro e rfl
        exact hserving (Service.serving_of_allows hallows)
      exact (Process.step_others hp ha).2.trans (h.empty hserving)
  | shutdown =>
      obtain ⟨-, rfl, rfl⟩ := Service.shutdown_cases hstep
      refine ⟨⟨hlistens, h.process, h.empty, ?_⟩, rfl⟩
      intro hend
      simp only [h.closed hend]
      rfl

/-- **The invariant**: the process is where it should be, and its handlers have made a run of the
server over the device. -/
structure DeviceService.Inv (M : ℕ) (s : DeviceService) : Prop where
  service : s.service.Inv
  served : ∃ t, (server M).Trace (Server.Guard M anyChunks) .init t s.handlers

theorem DeviceService.Inv.init (M : ℕ) : DeviceService.init.Inv M where
  service := .init
  served := ⟨[], .nil⟩

/-- **Every step** keeps the invariant, and nothing happens that must not. -/
theorem DeviceService.Inv.step (h : s.Inv M) (hok : s.Orderly M a)
    (hstep : s.step M daemon a = some (s', o)) : s'.Inv M ∧ o = [] := by
  obtain ⟨hservice, hserver⟩ := DeviceService.step_cases hstep
  obtain ⟨hinv, ho⟩ := h.service.step hok.1 hservice
  refine ⟨⟨hinv, ?_⟩, ho⟩
  obtain ⟨t, ht⟩ := h.served
  rcases hserver with ⟨-, hsame⟩ | ⟨b, hact, hb⟩
  · exact ⟨t, hsame ▸ ht⟩
  · exact ⟨_, ht.snoc (hok.2 b hact) (Option.map_eq_some_iff.2 ⟨_, hb, rfl⟩)⟩

/-! ### To the end -/

/-- **What is left to do**: the calls of `main` around its loop, the second steps of
`signal_handler`, and what is left of the loop. -/
def DeviceService.todo (s : DeviceService) : ℕ :=
  17 - s.service.pc.rank + s.service.handling + s.service.process.todo s.handlers.left

theorem LifePc.rank_le (pc : LifePc) : pc.rank ≤ 16 := by
  cases pc <;> decide

/-- A process that was told to stop, in which no handler has crashed, and where the device has room
for what was received. -/
structure DeviceService.Stopping (M : ℕ) (s : DeviceService) : Prop where
  inv : s.Inv M
  signal : s.service.process.isActive = false
  sound : ∀ i, s.handlers.pc i ≠ some .crashed
  room : s.handlers.Room M

/-- A handler that has returned has nothing left to do. -/
theorem DeviceService.left_of_done (i : ℕ) (h : s.service.process.threads.pc i = some .done) :
    s.handlers.left i = 0 := by
  have hpc : s.handlers.pc i = some .done := h
  exact Server.left_of_pc hpc

/-- A call of `main` changes nothing for the handlers, or creates one. -/
theorem DeviceService.Stopping.main {e : MainEvent} (h : s.Stopping M)
    (hstep : s.step M daemon (.process (.main e)) = some (s', o)) :
    (∀ i, s'.handlers.pc i ≠ some .crashed) ∧ s'.handlers.Room M ∧
      ∀ i, s'.handlers.left i = s.handlers.left i ∨
        s.service.process.main = .creating i ∧ s'.handlers.left i ≤ 10 := by
  obtain ⟨-, hserver⟩ := DeviceService.step_cases hstep
  rcases hserver with ⟨-, hsame⟩ | ⟨b, hact, hb⟩
  · rw [hsame]
    exact ⟨h.sound, h.room, fun i => Or.inl rfl⟩
  · rcases Service.serverAct_eq_some hact with ⟨i, -, hmain, rfl⟩ | ⟨i, e, ha, -⟩
    · obtain ⟨t, ht⟩ := h.inv.served
      rcases Server.step_cases hb with ⟨j, hj, haccepts⟩ | ⟨_, _, _, _, hj, -⟩
      · cases hj
        obtain ⟨hnew, hothers⟩ := haccepts.left
        refine ⟨?_, (server_serial ht).accept_room haccepts h.room, ?_⟩
        · intro j
          by_cases hji : j = i
          · rw [hji, haccepts.pc]
            exact nofun
          · rw [(haccepts.others j hji).1]
            exact h.sound j
        · intro j
          by_cases hji : j = i
          · subst hji
            exact Or.inr ⟨hmain, by rw [hnew]; decide⟩
          · exact Or.inl (hothers j hji)
      · cases hj
    · cases ha

/-- What a call of a handler does, when its client sends nothing. -/
theorem DeviceService.Stopping.handler {i : ℕ} {e : Event} (hM : 10 * M < 2 ^ 31)
    (h : s.Stopping M) (hok : s.Unaided M (.process (.handler i e)))
    (hstep : s.step M daemon (.process (.handler i e)) = some (s', o)) :
    (∀ j, s'.handlers.pc j ≠ some .crashed) ∧ s'.handlers.Room M ∧
      s'.handlers.left i < s.handlers.left i ∧
        ∀ j, j ≠ i → s'.handlers.left j = s.handlers.left j := by
  obtain ⟨-, hserver⟩ := DeviceService.step_cases hstep
  obtain ⟨t, ht⟩ := h.inv.served
  have hchunk : e.isChunk = false := Bool.eq_false_iff.2 hok.2
  rcases hserver with ⟨hact, -⟩ | ⟨b, hact, hb⟩
  · cases hact
  · cases hact
    have hguard := hok.1.2 _ rfl
    rcases Server.step_cases hb with ⟨_, hj, -⟩ | ⟨_, _, pc, pc', hj, hc⟩
    · cases hj
    · cases hj
      obtain ⟨hless, hothers⟩ :=
        (server_serial ht).call_left hM hc (hguard pc hc.here) hchunk
      refine ⟨?_, (server_serial ht).call_room hM hc (hguard pc hc.here) hchunk h.room,
        hless, hothers⟩
      intro j
      by_cases hji : j = i
      · rw [hji, hc.there]
        exact fun hcrash => Pc.next_sound hc.next hchunk
          (fun hpc => h.sound i (hc.here.trans (congrArg some hpc))) (Option.some.inj hcrash)
      · rw [(hc.others j hji).1]
        exact h.sound j

/-- A step that the process makes alone keeps it like that. -/
theorem DeviceService.Stopping.kept (hM : 10 * M < 2 ^ 31) (h : s.Stopping M)
    (hok : s.Unaided M a) (hstep : s.step M daemon a = some (s', o)) : s'.Stopping M := by
  obtain ⟨hservice, hserver⟩ := DeviceService.step_cases hstep
  have hhandlers : (∀ i, s'.handlers.pc i ≠ some .crashed) ∧ s'.handlers.Room M := by
    rcases hserver with ⟨-, hsame⟩ | ⟨b, hact, -⟩
    · exact ⟨hsame ▸ h.sound, hsame ▸ h.room⟩
    · rcases Service.serverAct_eq_some hact with ⟨i, rfl, -, -⟩ | ⟨i, e, rfl, -⟩
      · obtain ⟨hsound, hroom, -⟩ := h.main hstep
        exact ⟨hsound, hroom⟩
      · obtain ⟨hsound, hroom, -⟩ := h.handler hM hok hstep
        exact ⟨hsound, hroom⟩
  exact ⟨(h.inv.step hok.1 hstep).1, (h.inv.service.listens.step_open h.signal hservice).1,
    hhandlers.1, hhandlers.2⟩

/-- **A step on the way to the end** leaves less to do. -/
theorem DeviceService.Stopping.todo_lt (hM : 10 * M < 2 ^ 31) (h : s.Stopping M)
    (hok : s.Unaided M a) (hstep : s.step M daemon a = some (s', o)) : s'.todo < s.todo := by
  obtain ⟨hservice, hserver⟩ := DeviceService.step_cases hstep
  -- where the handlers do nothing
  have hsame : s.service.serverAct a = none → s'.handlers = s.handlers := by
    intro hnone
    rcases hserver with ⟨-, hsame⟩ | ⟨b, hb, -⟩
    · exact hsame
    · rw [hnone] at hb
      cases hb
  unfold DeviceService.todo
  cases a with
  | call ok =>
      obtain ⟨pc, hpc, -, hs', -⟩ := Service.call_cases hservice
      have hrank := LifePc.next_rank hpc
      have hle := s.service.pc.rank_le
      rw [hsame rfl, hs']
      dsimp only
      omega
  | leave =>
      obtain ⟨hserving, -, hs', -⟩ := Service.leave_cases hservice
      rw [hsame rfl, hs', hserving]
      simp only [LifePc.rank]
      omega
  | shutdown =>
      obtain ⟨hhandling, hs', -⟩ := Service.shutdown_cases hservice
      rw [hsame rfl, hs']
      dsimp only
      omega
  | process a =>
      obtain ⟨-, p, hp, hs'⟩ := Service.process_cases hservice
      rw [hs']
      cases a with
      | main e =>
          have hnobody : ∀ i, e ≠ .accept (some i) := by
            rintro i rfl
            exact hok.2 (Or.inl (Option.some_ne_none i))
          have hless := h.inv.service.process.mainStep_todo hok.1.1 h.signal hnobody
            DeviceService.left_of_done (h.main hstep).2.2 hp
          simp only [ProcessAct.signals, Bool.false_eq_true, if_false]
          omega
      | handler i e =>
          obtain ⟨-, -, hlt, hothers⟩ := h.handler hM hok hstep
          have hless := h.inv.service.process.handlerStep_todo hlt hothers hp
          simp only [ProcessAct.signals, Bool.false_eq_true, if_false]
          omega
      | signal => exact absurd trivial hok.2
      | cancelled i =>
          rw [Process.step, h.inv.service.process.endStep] at hp
          cases hp

/-- The calls around the loop are always possible. -/
theorem LifePc.next_possible {pc : LifePc} (daemon : Bool) (hserving : pc ≠ .serving)
    (hreturned : pc ≠ .returned) : ∃ pc', pc.next true daemon true = some pc' := by
  cases pc <;> first | exact ⟨_, rfl⟩ | exact absurd rfl hserving | exact absurd rfl hreturned

/-- A step in the loop, other than a signal. -/
theorem Service.process_possible {p : Process} {a : ProcessAct} (daemon : Bool)
    (hallows : service.allows a = true) (hsignals : a.signals = false)
    (hp : service.process.step a = some (p, o)) :
    service.step daemon (.process a) = some ({ service with process := p }, o) := by
  rw [Service.step, if_pos hallows, hp, hsignals]
  rfl

/-- In the loop `main` makes its next call, unless it waits for a connection. -/
theorem DeviceService.main_progress (hserving : s.service.pc = .serving)
    (hshut : s.service.process.main = .accepting → s.service.listener = .shut) {p : Process}
    (hwaits : s.service.process.Waits (.main s.service.process.main.event))
    (hp : s.service.process.mainStep s.service.process.main.event = some (p, o)) :
    ∃ a s' o, s.Unaided M a ∧ s.step M daemon a = some (s', o) := by
  obtain ⟨horderly, hnobody⟩ := MainPc.event_orderly hwaits
  have hallows : s.service.allows (.main s.service.process.main.event) = true := by
    unfold Service.allows
    split
    · next i heq => exact absurd (ProcessAct.main.inj heq) (hnobody i)
    · exact decide_eq_true hserving
    all_goals exact decide_eq_true (by rw [hserving]; exact nofun)
  have hservice := Service.process_possible daemon hallows rfl hp
  -- a handler that is created is one of the server
  have hcreates : ∀ b,
      s.service.serverAct (.process (.main s.service.process.main.event)) = some b →
        (∃ server, s.handlers.step M b = some server) ∧ s.handlers.Guard M anyChunks b := by
    intro b hb
    rcases Service.serverAct_eq_some hb with ⟨i, -, -, rfl⟩ | ⟨i, e, ha, -⟩
    · have hthreads := Service.step_threads hservice
      rw [hb] at hthreads
      refine ⟨⟨⟨p.threads, Function.update s.conn i .init, s.kern⟩, ?_⟩, trivial⟩
      simp only [Server.step, DeviceService.handlers, hthreads, Option.bind_eq_bind,
        Option.bind_some]
    · cases ha
  obtain ⟨s', hs'⟩ := DeviceService.step_possible hservice fun b hb => (hcreates b hb).1
  refine ⟨.process (.main s.service.process.main.event), s', o,
    ⟨⟨horderly, fun b hb => (hcreates b hb).2⟩, ?_⟩, hs'⟩
  cases hmain : s.service.process.main with
  | accepting =>
      rintro (hc | hc)
      · exact hc rfl
      · exact hc (hshut hmain)
  | _ => exact id

/-- Where a handler has not returned, some handler makes its next call. -/
theorem DeviceService.Stopping.handler_progress {i : ℕ} {pc : Pc} (hM : 10 * M < 2 ^ 31)
    (h : s.Stopping M) (hreturned : s.service.pc ≠ .returned) (hpc : s.handlers.pc i = some pc)
    (hdone : pc ≠ .done) : ∃ a s' o, s.Unaided M a ∧ s.step M daemon a = some (s', o) := by
  obtain ⟨t, ht⟩ := h.inv.served
  obtain ⟨j, e, server', hserver, hguard, hchunk⟩ :=
    (server_serial ht).progress hM h.room h.sound hpc hdone
  have hthreads := Server.step_threads hserver
  obtain ⟨pc₁, pc', hcalls⟩ := Threads.step_handler hthreads
  have hdone₁ : pc₁ ≠ .done := by
    rintro rfl
    exact absurd hcalls.next (by rw [Pc.next_done]; exact nofun)
  obtain ⟨⟨p, o⟩, hp⟩ := h.inv.service.process.handler_possible hcalls.here hdone₁ hthreads
  obtain ⟨s', hs'⟩ := DeviceService.step_possible (M := M)
    (Service.process_possible daemon (a := .handler j e) (decide_eq_true hreturned) rfl hp)
    fun b hb => ⟨server', Option.some.inj hb ▸ hserver⟩
  refine ⟨.process (.handler j e), s', o,
    ⟨⟨⟨trivial, trivial⟩, fun b hb => Option.some.inj hb ▸ hguard⟩,
      Bool.eq_false_iff.1 hchunk⟩, hs'⟩

/-- **There is always a step on the way to the end.** -/
theorem DeviceService.Stopping.progress (hM : 10 * M < 2 ^ 31) (h : s.Stopping M)
    (hreturned : s.service.pc ≠ .returned) :
    ∃ a s' o, s.Unaided M a ∧ s.step M daemon a = some (s', o) := by
  -- a step that is none of the handlers'
  have halone : ∀ a service' o, s.service.step daemon a = some (service', o) →
      s.service.serverAct a = none → s.service.Orderly a → ¬ s.service.Aided a →
      ∃ a s' o, s.Unaided M a ∧ s.step M daemon a = some (s', o) := by
    intro a service' o hservice hnone horderly haided
    have hnever : ∀ b, s.service.serverAct a ≠ some b := fun b hb => by
      rw [hnone] at hb
      cases hb
    obtain ⟨s', hs'⟩ := DeviceService.step_possible (M := M) hservice
      fun b hb => absurd hb (hnever b)
    exact ⟨a, s', o, ⟨⟨horderly, fun b hb => absurd hb (hnever b)⟩, haided⟩, hs'⟩
  by_cases hserving : s.service.pc = .serving
  · by_cases hend : s.service.process.main = .returned
    · exact halone .leave _ _ (if_pos ⟨hserving, hend⟩) rfl trivial id
    · rcases Nat.eq_zero_or_pos s.service.handling with hthrough | hhandling
      · have hshut : s.service.process.main = .accepting → s.service.listener = .shut := by
          intro hmain
          rcases h.inv.service.listens.waits hmain with hactive | hhandling | hshut
          · rw [h.signal] at hactive
            cases hactive
          · omega
          · exact hshut
        rcases h.inv.service.process.progress hend with
          ⟨hwaits, ⟨p, o⟩, hp⟩ | ⟨i, pc, hpc, hdone⟩
        · exact DeviceService.main_progress hserving hshut hwaits hp
        · exact h.handler_progress hM hreturned hpc hdone
      · exact halone .shutdown _ _ (if_pos hhandling) rfl trivial id
  · obtain ⟨pc, hpc⟩ := LifePc.next_possible daemon hserving hreturned
    refine halone (.call true) { s.service with
      pc := pc
      listener := s.service.pc.listener true s.service.listener } [] ?_ rfl trivial id
    rw [Service.step, hpc]
    rfl

/-! ### What is left of the process -/

/-- **How the process leaves things**: the listening socket is closed, the mutex is free, everything
that a connection had was released; and the connections were served, each as if alone, in the order
`is`: the device has stored their data in this order, and every client was sent the reply to what it
sent. -/
structure DeviceService.Finished (s : DeviceService) (is : List ℕ) : Prop where
  listener : s.service.listener = .absent
  mutex : s.service.process.threads.owner = none
  released : ∀ i c, s.service.process.client i = some c → c = .released ∧ i ∈ is
  nodup : is.Nodup
  stored : s.kern.log = s.handlers.stored is
  replied : ∀ i ∈ is, ∃ pre post, is = pre ++ i :: post ∧
    (s.conn i).handed.flatten = (s.conn i).payload ∧
    (s.conn i).seeks = requests (s.conn i).delivered ∧
    (s.conn i).accepted
      = replyTo (s.handlers.stored pre) (s.handlers.stored (pre ++ [i])) (s.conn i).delivered

/-- When `main` has returned, everything has come to rest. -/
theorem DeviceService.Inv.finished (hM : 10 * M < 2 ^ 31) (h : s.Inv M)
    (hreturned : s.service.pc = .returned) : ∃ is, s.Finished is := by
  have hserving : s.service.pc ≠ .serving := by
    rw [hreturned]
    exact nofun
  have hsubject : s.service.process.main.subject = none := by
    rcases h.service.listens.idle hserving with hmain | hmain <;> rw [hmain] <;> rfl
  have hsettled : ∀ i, s.service.process.Settled i := fun i =>
    h.service.process.settled i (by rw [h.service.empty hserving]; exact List.not_mem_nil)
      (by rw [hsubject]; exact nofun)
  have hdone : ∀ i pc, s.handlers.pc i = some pc → pc = .done := by
    intro i pc hpc
    rcases hsettled i with ⟨-, hnone⟩ | ⟨-, hdone⟩
    · rw [show s.handlers.pc i = none from Threads.pc_eq_none hnone] at hpc
      cases hpc
    · exact Option.some.inj (hpc.symm.trans hdone)
  obtain ⟨t, ht⟩ := h.served
  have hord := server_serial ht
  refine ⟨acquired t, ?_, ?_, ?_, hord.nodup, (hord.serial.stored hM).2.2, ?_⟩
  · exact h.service.closed (by rw [hreturned]; decide)
  · cases howner : s.service.process.threads.owner with
    | none => rfl
    | some i =>
        obtain ⟨pc, -, hpc, -⟩ := hord.holder hM howner
        have hinside := (hord.owner_iff hpc).1 howner
        rw [hdone i pc hpc] at hinside
        cases hinside
  · intro i c hc
    rcases hsettled i with ⟨hnone, -⟩ | ⟨hreleased, hend⟩
    · rw [hc] at hnone
      cases hnone
    · exact ⟨Option.some.inj (hc.symm.trans hreleased), (hord.mem i).2 ⟨_, hend, nofun⟩⟩
  · intro i hi
    obtain ⟨pc, hpc, -⟩ := (hord.mem i).1 hi
    exact hord.replied hM hpc (by rw [hdone i pc hpc]; rfl)

/-- **The process comes to its end alone.**  Take any state in which `is_active` is cleared, where
no call of the loop and of a handler has failed, no handler has crashed, and the allocator has room
for what the handler that has the mutex still holds.  From there on let nothing come from outside,
except that clients shut down their sending sides and take what they are sent; let no call of the
loop and of a handler fail, let `syslog` return in `signal_handler`, and let the shutdown meet no
handler at work.  Then the process can come to its end, and nothing that it does instead keeps it
from it: all its runs together are bounded, nothing happens in them that must not, each of them can
go on until `main` has returned, and then everything was released and every client was answered. -/
theorem server_stops {M : ℕ} {daemon : Bool} {s : DeviceService} (hM : 10 * M < 2 ^ 31)
    (hs : (deviceService M daemon).Reach (DeviceService.Orderly M) .init s)
    (hsignal : s.service.process.isActive = false) (hsound : ∀ i, s.handlers.pc i ≠ some .crashed)
    (hroom : s.handlers.Room M) :
    (∃ s', (deviceService M daemon).Reach (DeviceService.Unaided M) s s' ∧
      s'.service.pc = .returned) ∧
    ∃ n, ∀ t s', (deviceService M daemon).Trace (DeviceService.Unaided M) s t s' →
      t.length ≤ n ∧ (∀ p ∈ t, p.2 = []) ∧
      (s'.service.pc ≠ .returned →
        ∃ a, s'.Unaided M a ∧ ((deviceService M daemon).step s' a).isSome) ∧
      (s'.service.pc = .returned → ∃ is, s'.Finished is) := by
  have hinv : s.Inv M := hs.invariant (.init M) fun _ _ _ _ h hok hstep => (h.step hok hstep).1
  have hstopping : s.Stopping M := ⟨hinv, hsignal, hsound, hroom⟩
  constructor
  · have hend : ∃ s', (deviceService M daemon).Reach (DeviceService.Unaided M) s s' ∧
        s'.Stopping M ∧ s'.service.pc = .returned :=
      Machine.reach_final (I := DeviceService.Stopping M) (fun s => s.service.pc = .returned)
        hstopping (fun _ _ _ _ h hok hstep => ⟨h.kept hM hok hstep, h.todo_lt hM hok hstep⟩)
        (fun _ h hreturned => h.progress hM hreturned)
    obtain ⟨s', hreach, -, hreturned⟩ := hend
    exact ⟨s', hreach, hreturned⟩
  · refine ⟨s.todo, ?_⟩
    intro t s' ht
    obtain ⟨hstopping', hlength⟩ := ht.length_add_le hstopping fun _ _ _ _ h hok hstep =>
      ⟨h.kept hM hok hstep, h.todo_lt hM hok hstep⟩
    have hquiet : s'.Inv M ∧ ∀ p ∈ t, p.2 = [] :=
      ht.invariant_outputs hinv fun _ _ _ _ h hok hstep => h.step hok.1 hstep
    refine ⟨by omega, hquiet.2, ?_, hquiet.1.finished hM⟩
    intro hreturned
    have hnext : ∃ a s'' o, s'.Unaided M a ∧ s'.step M daemon a = some (s'', o) :=
      hstopping'.progress hM hreturned
    obtain ⟨a, s'', o, hok, hstep⟩ := hnext
    exact ⟨a, hok, Option.isSome_iff_exists.2 ⟨_, hstep⟩⟩

instance Service.decidableOrderly (s : Service) : (a : ServiceAct) → Decidable (s.Orderly a)
  | .process a => inferInstanceAs (Decidable (s.process.Orderly a))
  | .call _ => isTrue trivial
  | .leave => isTrue trivial
  | .shutdown => isTrue trivial

instance DeviceService.decidableOrderly (M : ℕ) (s : DeviceService) (a : ServiceAct) :
    Decidable (s.Orderly M a) := inferInstanceAs (Decidable (_ ∧ _))

/-- The labels of a run in which a client has sent a line, the stream still holds it, and a signal
arrives. -/
def signalReplying : List ServiceAct :=
  List.replicate 6 (.call true) ++
    [MainEvent.go, .accept (some 0), .malloc true, .malloc true, .pthreadCreate true,
      .queueEnqueue true, .go, .go, .go].map (fun e => .process (.main e)) ++
    [Event.lock 0, .fopen true, .recv (.chunk [97, 98, 10]), .fwrite].map
      (fun e => .process (.handler 0 e)) ++ [.process .signal]

theorem server_stops_signalReplying :
    ∃ s, (deviceService 64 false).Reach (DeviceService.Orderly 64) .init s ∧
      s.service.process.main = .accepting ∧ s.handlers.pc 0 = some .reading ∧
      (s.conn 0).unwritten = [97, 98, 10] ∧
      (∃ s', (deviceService 64 false).Reach (DeviceService.Unaided 64) s s' ∧
        s'.service.pc = .returned) ∧
      ∃ n, ∀ t s', (deviceService 64 false).Trace (DeviceService.Unaided 64) s t s' →
        t.length ≤ n ∧ (∀ p ∈ t, p.2 = []) ∧
        (s'.service.pc ≠ .returned →
          ∃ a, s'.Unaided 64 a ∧ ((deviceService 64 false).step s' a).isSome) ∧
        (s'.service.pc = .returned → ∃ is, s'.Finished is) := by
  have hex : ∃ p, (deviceService 64 false).run .init signalReplying = some p :=
    Option.isSome_iff_exists.1 (by decide +kernel)
  obtain ⟨⟨s, os⟩, hrun⟩ := hex
  have hservice : (s.service.process.main, s.service.process.queue, s.service.process.isActive)
      = (.accepting, [0], false) :=
    Machine.run_map hrun (fun p => (p.1.service.process.main, p.1.service.process.queue,
      p.1.service.process.isActive)) (by decide +kernel)
  have hhandler : (s.service.process.threads.owner, s.handlers.pc 0, s.kern.pending,
      (s.conn 0).unwritten) = (some 0, some .reading, [], [97, 98, 10]) :=
    Machine.run_map hrun (fun p => (p.1.service.process.threads.owner, p.1.handlers.pc 0,
      p.1.kern.pending, (p.1.conn 0).unwritten)) (by decide +kernel)
  simp only [Prod.mk.injEq] at hservice hhandler
  obtain ⟨hmain, hqueue, hsignal⟩ := hservice
  obtain ⟨howner, hpc, hpending, hunwritten⟩ := hhandler
  have hreach : (deviceService 64 false).Reach (DeviceService.Orderly 64) .init s :=
    ⟨_, Machine.trace_of_run hrun (by decide +kernel)⟩
  have hinv : s.Inv 64 :=
    hreach.invariant (.init 64) fun _ _ _ _ h hok hstep => (h.step hok hstep).1
  have hsound : ∀ i, s.handlers.pc i ≠ some .crashed := by
    intro i
    by_cases hi : i = 0
    · rw [hi, hpc]
      exact nofun
    · -- nobody else has connected
      rcases hinv.service.process.settled i (by simp [hqueue, hi]) (by rw [hmain]; exact nofun) with
        ⟨-, hnone⟩ | ⟨-, hdone⟩
      · rw [show s.handlers.pc i = none from Threads.pc_eq_none hnone]
        exact nofun
      · rw [show s.handlers.pc i = some .done from hdone]
        exact nofun
  have hroom : s.handlers.Room 64 := by
    intro i pc howner' hpc'
    obtain rfl := Option.some.inj (howner.symm.trans howner')
    obtain rfl := Option.some.inj (hpc.symm.trans hpc')
    simp [Session.Room, Session.held, DeviceService.handlers, Pc.inflight, hpending, hunwritten]
  obtain ⟨hend, hruns⟩ := server_stops (by decide) hreach hsignal hsound hroom
  exact ⟨s, hreach, hmain, hpc, hunwritten, hend, hruns⟩

end Aesd
