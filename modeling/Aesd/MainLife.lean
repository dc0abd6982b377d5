/-
**`main` from its first call to its last: what the process holds, and who uses the mutex.**

Before its loop `main` makes seven to ten calls, each of which can fail; all but the first failure
go to one label, behind which everything is undone that a whole run has to undo, whether it was done
or not.  Behind the loop the same label is reached when the queue is drained.  In the temp-file
build there is a timer among the things that are undone, and its callbacks are threads that nobody
joins: they use the mutex on the stack of `main` while `main` deletes the timer and destroys it.

Here `main` is the automaton of these calls, with the loop and the drain of `MainThread` between
them, next to its handlers and to the callbacks of the timer.  The loop knows nothing of the
callbacks, and what was shown of it holds of the process without them, `Process.handlersOnly`.  What
must not happen — undoing what was not done, using a mutex that is not there, and what must not
happen to a connection — does not stop a run but is the output of the step in which it happens.

* `LifePc`, `LifePc.next` — `main`, from one call to the next;
* `Life`, `mainLife` — `main` with its loop and the threads, as a machine;
* `Life.Calm` — nothing fails in the loop, the drain meets no handler at work, and no callback is at
  work when the timer is deleted;
* `Process.mainStep_handlersOnly`, `Process.handlerCall_handlersOnly` — the steps of the loop and of
  the handlers are steps of the process without callbacks;
* `Life.Inv`, `Life.Inv.step` — what is held at each call, and who is at work;
* `main_releases` — **everything is given back, and which failures are undone right**;
* `callback_outlives_mutex` — without that condition on the timer the mutex is locked after it was
  destroyed.
-/

import Aesd.MainThread

set_option relaxedAutoImplicit false
set_option autoImplicit false

namespace Aesd

/-! ### The calls -/

/-- A control point of `main`: the call it is about to make. -/
inductive LifePc where
  /-- `getaddrinfo` -/
  | gettingAddrinfo
  /-- `socket` -/
  | creatingSocket
  /-- `setsockopt` -/
  | settingOption
  /-- `bind` -/
  | binding
  /-- `daemon` -/
  | daemonizing
  /-- `listen` -/
  | listening
  /-- `pthread_mutex_init` -/
  | initMutex
  /-- `timer_create` -/
  | creatingTimer
  /-- `timer_settime` -/
  | settingTimer
  /-- The loop, and the joins behind it. -/
  | serving
  /-- `timer_delete` -/
  | deletingTimer
  /-- `pthread_mutex_destroy` -/
  | destroyingMutex
  /-- `freeaddrinfo` -/
  | freeingAddrinfo
  /-- `close` of the listening socket -/
  | closingSocket
  /-- the store of `-1` to `sockfd` -/
  | clearingSockfd
  /-- `remove_data_file` -/
  | removingFile
  /-- returned -/
  | returned
  deriving DecidableEq

/-- The label `exit`. -/
def LifePc.exit (charDevice : Bool) : LifePc :=
  if charDevice then .freeingAddrinfo else .deletingTimer

/-- **`main`**, from one call to the next, by whether the call succeeds. -/
def LifePc.next (charDevice daemon : Bool) : LifePc → Bool → Option LifePc
  | .gettingAddrinfo, ok => some (if ok then .creatingSocket else .returned)
  | .creatingSocket, ok => some (if ok then .settingOption else .exit charDevice)
  | .settingOption, ok => some (if ok then .binding else .exit charDevice)
  | .binding, ok =>
      some (if ok then (if daemon then .daemonizing else .listening) else .exit charDevice)
  | .daemonizing, ok => some (if ok then .listening else .exit charDevice)
  | .listening, ok => some (if ok then .initMutex else .exit charDevice)
  | .initMutex, ok =>
      some (if ok then (if charDevice then .serving else .creatingTimer) else .exit charDevice)
  | .creatingTimer, ok => some (if ok then .settingTimer else .exit charDevice)
  | .settingTimer, ok => some (if ok then .serving else .exit charDevice)
  -- the results of these are logged only
  | .deletingTimer, _ => some .destroyingMutex
  | .destroyingMutex, _ => some .freeingAddrinfo
  | .freeingAddrinfo, _ => some .closingSocket
  | .closingSocket, _ => some .clearingSockfd
  | .clearingSockfd, _ => some .removingFile
  | .removingFile, _ => some .returned
  | .serving, _ | .returned, _ => none

/-- The calls before the loop. -/
def LifePc.setup : LifePc → Bool
  | .gettingAddrinfo | .creatingSocket | .settingOption | .binding | .daemonizing | .listening
  | .initMutex | .creatingTimer | .settingTimer => true
  | _ => false

/-- What `main` returns if this call fails; the branches of the timer do not set `return_val`. -/
def LifePc.errorVal : LifePc → ℤ
  | .creatingTimer | .settingTimer => 0
  | _ => -1

/-- What `main` holds; the timer expires once it was set. -/
structure Resources where
  addrinfo : Bool
  socket : Bool
  mutex : Bool
  timer : Bool
  armed : Bool
  deriving DecidableEq

/-- What a call changes, by whether it succeeds. -/
def LifePc.effect : LifePc → Bool → Resources → Resources
  | .gettingAddrinfo, ok, r => { r with addrinfo := ok }
  | .creatingSocket, ok, r => { r with socket := ok }
  | .initMutex, ok, r => { r with mutex := ok }
  | .creatingTimer, ok, r => { r with timer := ok }
  | .settingTimer, ok, r => { r with armed := ok }
  | .deletingTimer, _, r => { r with timer := false, armed := false }
  | .destroyingMutex, _, r => { r with mutex := false }
  | .freeingAddrinfo, _, r => { r with addrinfo := false }
  | .closingSocket, _, r => { r with socket := false }
  | .settingOption, _, r | .binding, _, r | .daemonizing, _, r | .listening, _, r | .serving, _, r
  | .clearingSockfd, _, r | .removingFile, _, r | .returned, _, r => r

/-- `main` at one of its calls: what it is going to return, the call of the setup that failed, and
what it holds. -/
structure MainState where
  pc : LifePc
  returnVal : ℤ
  failed : Option LifePc
  held : Resources
  deriving DecidableEq

/-- `main` when it starts. -/
def MainState.init : MainState := ⟨.gettingAddrinfo, 0, none, ⟨false, false, false, false, false⟩⟩

/-- The next call. -/
def MainState.next (charDevice daemon : Bool) (m : MainState) (ok : Bool) : Option MainState :=
  (m.pc.next charDevice daemon ok).map fun pc =>
    if m.pc.setup && !ok then ⟨pc, m.pc.errorVal, some m.pc, m.pc.effect ok m.held⟩
    else ⟨pc, m.returnVal, m.failed, m.pc.effect ok m.held⟩

/-! ### The process -/

/-- The process: `main` at its calls around the loop, the loop with its handlers, and the callbacks
that were started; these are among the threads too. -/
structure Life where
  main : MainState
  process : Process
  callbacks : List ℕ

/-- The process when it starts. -/
def Life.init : Life := ⟨.init, .init, []⟩

/-- What must not happen. -/
inductive LifeMisuse where
  /-- A timer is deleted that was not created. -/
  | timer
  /-- A mutex is destroyed, locked or unlocked that is not initialised. -/
  | mutex
  /-- A mutex is destroyed that is locked. -/
  | locked
  /-- A list of addresses is freed that was not obtained. -/
  | addrinfo
  /-- What must not happen to a connection. -/
  | connection (m : Misuse)
  deriving DecidableEq

/-- What the next call of `main` around its loop does that must not happen; closing `-1` is no such
thing. -/
def Life.misuse (s : Life) : List LifeMisuse :=
  match s.main.pc with
  | .deletingTimer => if s.main.held.timer then [] else [.timer]
  | .destroyingMutex =>
      (if s.main.held.mutex then [] else [.mutex]) ++
        (if s.process.threads.owner = none then [] else [.locked])
  | .freeingAddrinfo => if s.main.held.addrinfo then [] else [.addrinfo]
  | _ => []

/-- The call uses the mutex. -/
def TaskEvent.usesMutex : TaskEvent → Bool
  | .handler (.lock _) | .handler .unlock | .timer (.lock _) | .timer .unlock => true
  | _ => false

/-- What a call of a thread does to a mutex that must not happen. -/
def Life.mutexMisuse (s : Life) (e : TaskEvent) : List LifeMisuse :=
  if e.usesMutex && !s.main.held.mutex then [.mutex] else []

/-- What the process does: `main` makes a call around its loop, leaves it, or makes a call in it; a
signal arrives; the timer expires; a handler or a callback makes a call; or a handler that was
cancelled ends. -/
inductive LifeAct where
  | call (ok : Bool)
  | leave
  | loop (e : MainEvent)
  | signal
  | expire (i : ℕ)
  | handler (i : ℕ) (e : Event)
  | callback (i : ℕ) (e : TimerEvent)
  | cancelled (i : ℕ)

/-- **A step of the process.**  The loop is there between the setup and the label `exit`; the timer
expires while it is set; signals and threads are there as long as the process is.  A thread gets a
number that is new. -/
def Life.step (charDevice daemon : Bool) (s : Life) : LifeAct → Option (Life × List LifeMisuse)
  | .call ok =>
      (s.main.next charDevice daemon ok).map fun main => ({ s with main := main }, s.misuse)
  | .leave =>
      if s.main.pc = .serving ∧ s.process.main = .returned then
        some ({ s with main := { s.main with pc := .exit charDevice } }, [])
      else none
  | .loop e =>
      if s.main.pc = .serving then
        (s.process.mainStep e).map fun p => ({ s with process := p.1 }, p.2.map .connection)
      else none
  | .signal =>
      if s.main.pc = .returned then none
      else some ({ s with process := { s.process with isActive := false } }, [])
  | .expire i =>
      if s.main.held.armed ∧ s.process.client i = none then
        (s.process.threads.step charDevice (.expire i)).map fun threads =>
          ({ s with
            process := { s.process with threads := threads }
            callbacks := i :: s.callbacks }, [])
      else none
  | .handler i e =>
      if s.main.pc = .returned then none
      else
        (s.process.handlerCall charDevice i e).map fun p =>
          ({ s with process := p.1 }, p.2.map .connection ++ s.mutexMisuse (.handler e))
  | .callback i e =>
      if s.main.pc = .returned then none
      else
        (s.process.threads.step charDevice (.call i (.timer e))).map fun threads =>
          ({ s with process := { s.process with threads := threads } }, s.mutexMisuse (.timer e))
  | .cancelled i =>
      if s.main.pc = .returned then none
      else
        (s.process.endStep i).map fun p => ({ s with process := p.1 }, p.2.map .connection)

/-- **The process as a machine.** -/
def mainLife (charDevice daemon : Bool) : Machine Life LifeAct (List LifeMisuse) where
  step := Life.step charDevice daemon

/-- Nothing fails in the loop, and the drain meets no handler at work; no lock of a handler and no
`fopen` of a callback fails; and no callback is at work when the timer is deleted. -/
def Life.Calm (s : Life) : LifeAct → Prop
  | .call _ => s.main.pc = .deletingTimer → ∀ i ∈ s.callbacks, ∀ th ∈ s.process.threads.thread i,
      th.task.returned = true
  | .loop e => s.process.Orderly (.main e)
  | .handler _ e => (TaskEvent.handler e).Good
  | .callback _ e => (TaskEvent.timer e).Good
  | .leave | .signal | .expire _ | .cancelled _ => True

instance Life.decidableCalm (s : Life) : (a : LifeAct) → Decidable (s.Calm a)
  | .call _ => inferInstanceAs (Decidable (s.main.pc = .deletingTimer → ∀ i ∈ s.callbacks,
      ∀ th ∈ s.process.threads.thread i, th.task.returned = true))
  | .loop e => inferInstanceAs (Decidable (s.process.Orderly (.main e)))
  | .handler _ e => inferInstanceAs (Decidable (TaskEvent.handler e).Good)
  | .callback _ e => inferInstanceAs (Decidable (TaskEvent.timer e).Good)
  | .leave => isTrue trivial
  | .signal => isTrue trivial
  | .expire _ => isTrue trivial
  | .cancelled _ => isTrue trivial

/-! ### What is held -/

/-- The calls of `main` in the order of the source. -/
def LifePc.rank : LifePc → ℕ
  | .gettingAddrinfo => 0
  | .creatingSocket => 1
  | .settingOption => 2
  | .binding => 3
  | .daemonizing => 4
  | .listening => 5
  | .initMutex => 6
  | .creatingTimer => 7
  | .settingTimer => 8
  | .serving => 9
  | .deletingTimer => 10
  | .destroyingMutex => 11
  | .freeingAddrinfo => 12
  | .closingSocket => 13
  | .clearingSockfd => 14
  | .removingFile => 15
  | .returned => 16

/-- The control points that a build has. -/
def LifePc.ofBuild (charDevice : Bool) : LifePc → Bool
  | .creatingTimer | .settingTimer | .deletingTimer | .destroyingMutex => !charDevice
  | _ => true

/-- How far the setup came. -/
def progress (pc : LifePc) (failed : Option LifePc) : ℕ := ((failed.getD pc).rank)

/-- **What `main` holds** at a call: what it has obtained, and not given back. -/
def LifePc.holds (charDevice : Bool) (pc : LifePc) (progress : ℕ) : Resources where
  addrinfo := 0 < progress && pc.rank ≤ 12
  socket := 1 < progress && pc.rank ≤ 13
  mutex := 6 < progress && (charDevice || pc.rank ≤ 11)
  timer := 7 < progress && !charDevice && pc.rank ≤ 10
  armed := 8 < progress && !charDevice && pc.rank ≤ 10

/-- `main` at a call, as the call and the failure determine it. -/
def MainState.at (charDevice : Bool) (pc : LifePc) (failed : Option LifePc) : MainState :=
  ⟨pc, (failed.map LifePc.errorVal).getD 0, failed, pc.holds charDevice (progress pc failed)⟩

/-- Where `main` can be: the setup goes on until a call of it fails, and the label `exit` is not
reached if it was the first. -/
def LifePc.After (charDevice : Bool) (pc : LifePc) : Option LifePc → Bool
  | none => pc.ofBuild charDevice
  | some f => pc.ofBuild charDevice && f.ofBuild charDevice && f.setup && 9 < pc.rank &&
      (f ≠ .gettingAddrinfo || pc = .returned)

/-- **A call of `main`** leads from such a state to such a state. -/
theorem MainState.next_at {charDevice daemon : Bool} {pc : LifePc} {failed : Option LifePc}
    (h : pc.After charDevice failed = true) {ok : Bool} {m : MainState}
    (hm : (MainState.at charDevice pc failed).next charDevice daemon ok = some m) :
    m = .at charDevice m.pc m.failed ∧ m.pc.After charDevice m.failed = true := by
  cases failed with
  | none =>
      cases pc <;> cases ok <;> cases charDevice <;> cases daemon <;> cases h <;> cases hm <;>
        exact ⟨rfl, rfl⟩
  | some f =>
      cases pc <;> cases charDevice <;> cases f <;> cases h <;> cases hm <;> exact ⟨rfl, rfl⟩

theorem LifePc.next_rank {charDevice daemon ok : Bool} {pc pc' : LifePc}
    (h : pc.next charDevice daemon ok = some pc') : pc.rank < pc'.rank := by
  cases pc <;> cases ok <;> cases charDevice <;> cases daemon <;> cases h <;> decide

theorem LifePc.rank_of_setup {pc : LifePc} : pc.setup = true ↔ pc.rank < 9 := by
  cases pc <;> simp [LifePc.setup, LifePc.rank]

/-- The loop and the label behind it, by their ranks. -/
theorem LifePc.eq_of_rank {pc : LifePc} :
    (pc.rank = 9 → pc = .serving) ∧ (pc.rank = 10 → pc = .deletingTimer) := by
  cases pc <;> simp [LifePc.rank]

/-- All failures but the first go to the label. -/
theorem LifePc.next_failed {charDevice daemon : Bool} {pc pc' : LifePc} (hsetup : pc.setup = true)
    (hpos : 0 < pc.rank) (h : pc.next charDevice daemon false = some pc') :
    pc' = .exit charDevice := by
  cases pc <;>
    first
      | exact absurd hpos (lt_irrefl 0)
      | exact (Option.some.inj h).symm
      | cases hsetup

theorem LifePc.rank_exit (charDevice : Bool) :
    (LifePc.exit charDevice).rank = if charDevice then 12 else 10 := by
  cases charDevice <;> rfl

/-! ### What the threads do -/

/-- A callback that starts. -/
theorem Threads.step_expire {charDevice : Bool} {s s' : Threads} {i : ℕ}
    (h : s.step charDevice (.expire i) = some s') :
    charDevice = false ∧ s.thread i = none ∧ s'.thread i = some ⟨.timer .gettingTime, 0, 0⟩ ∧
      ∀ j, j ≠ i → s'.thread j = s.thread j := by
  rw [Threads.step] at h
  split at h
  · cases h
  next hbuild =>
    rw [Threads.spawn] at h
    split at h
    · next hnone =>
        cases h
        exact ⟨Bool.not_eq_true _ ▸ hbuild, hnone, Threads.put_self ..,
          fun j hj => Threads.put_of_ne _ _ _ hj⟩
    · cases h

/-- A thread that makes a call is at work, and goes on as a thread of its kind. -/
theorem Threads.step_call {charDevice : Bool} {s s' : Threads} {i : ℕ} {e : TaskEvent}
    (h : s.step charDevice (.call i e) = some s') :
    ∃ th th', s.thread i = some th ∧ s'.thread i = some th' ∧
      th.task.next charDevice e = some th'.task ∧ ∀ j, j ≠ i → s'.thread j = s.thread j := by
  rw [Threads.step] at h
  split at h
  · cases h
  next th hth =>
    split at h
    · cases h
    next task htask =>
      obtain ⟨o, l, u, rfl, -⟩ := Threads.goOn_eq h
      exact ⟨th, ⟨task, l, u⟩, hth, Threads.put_self .., htask,
        fun j hj => Threads.put_of_ne _ _ _ hj⟩

/-- A thread that has returned makes no call. -/
theorem Task.next_returned {charDevice : Bool} {task : Task} (h : task.returned = true)
    (e : TaskEvent) : task.next charDevice e = none := by
  cases task with
  | handler pc =>
      cases pc with
      | done =>
          cases e with
          | handler e => cases e <;> rfl
          | timer e => rfl
      | _ => cases h
  | timer pc =>
      cases pc with
      | done =>
          cases e with
          | handler e => rfl
          | timer e => cases e <;> rfl
      | _ => cases h

/-- The thread is a handler. -/
def Task.isHandler : Task → Bool
  | .handler _ => true
  | .timer _ => false

/-- A call is one of a thread of its kind, which it stays. -/
theorem Task.next_isHandler {charDevice : Bool} {task task' : Task} {e : TaskEvent}
    (h : task.next charDevice e = some task') :
    task'.isHandler = task.isHandler ∧
      ((∃ e', e = .handler e') ↔ task.isHandler = true) := by
  cases task with
  | handler pc =>
      cases e with
      | handler e =>
          obtain ⟨pc', -, rfl⟩ := Option.map_eq_some_iff.1 h
          exact ⟨rfl, iff_of_true ⟨e, rfl⟩ rfl⟩
      | timer e => cases h
  | timer pc =>
      cases e with
      | handler e => cases h
      | timer e =>
          obtain ⟨pc', -, rfl⟩ := Option.map_eq_some_iff.1 h
          exact ⟨rfl, iff_of_false (fun hc => TaskEvent.noConfusion hc.choose_spec)
            Bool.false_ne_true⟩

/-! ### The process without callbacks -/

/-- The handlers alone. -/
def Threads.handlers (s : Threads) : Threads :=
  ⟨s.owner, fun i => (s.thread i).filter fun th => th.task.isHandler⟩

/-- The loop and the handlers, without the callbacks. -/
def Process.handlersOnly (s : Process) : Process := { s with threads := s.threads.handlers }

theorem Threads.handlers_of_none {s : Threads} {i : ℕ} (h : s.thread i = none) :
    s.handlers.thread i = none := by
  simp only [Threads.handlers, h, Option.filter_none]

theorem Threads.handlers_of_handler {s : Threads} {i : ℕ} {th : Thread} (h : s.thread i = some th)
    (htask : th.task.isHandler = true) : s.handlers.thread i = some th := by
  simp only [Threads.handlers, h, Option.filter_some, htask, if_true]

theorem Threads.handlers_of_timer {s : Threads} {i : ℕ} {th : Thread} (h : s.thread i = some th)
    (htask : th.task.isHandler = false) : s.handlers.thread i = none := by
  simp only [Threads.handlers, h, Option.filter_some, htask, Bool.false_eq_true, if_false]

@[simp] theorem Threads.pc_handlers (s : Threads) (i : ℕ) : s.handlers.pc i = s.pc i := by
  cases hth : s.thread i with
  | none => rw [Threads.pc_eq_none hth, Threads.pc_eq_none (Threads.handlers_of_none hth)]
  | some th =>
      obtain ⟨task, locks, unlocks⟩ := th
      cases task with
      | handler pc => exact Threads.pc_congr ((Threads.handlers_of_handler hth rfl).trans hth.symm)
      | timer pc =>
          rw [Threads.pc_eq_none (Threads.handlers_of_timer hth rfl)]
          simp only [Threads.pc, hth]

/-- A thread that is a handler is put among the handlers. -/
theorem Threads.handlers_put (s : Threads) (o : Option ℕ) (i : ℕ) {th : Thread}
    (htask : th.task.isHandler = true) : (s.put o i th).handlers = s.handlers.put o i th := by
  simp only [Threads.handlers, Threads.put, Threads.mk.injEq, true_and]
  funext j
  by_cases hji : j = i
  · subst hji
    rw [Function.update_self, Function.update_self, Option.filter_some, if_pos htask]
  · rw [Function.update_of_ne hji, Function.update_of_ne hji]

/-- The creation of a handler. -/
theorem Threads.step_accept_handlers {charDevice : Bool} {s s' : Threads} {i : ℕ}
    (h : s.step charDevice (.accept i) = some s') :
    s.handlers.step charDevice (.accept i) = some s'.handlers := by
  simp only [Threads.step, Threads.spawn] at h ⊢
  split at h
  · next hnone =>
      cases h
      rw [if_pos (Threads.handlers_of_none hnone), Threads.handlers_put _ _ _ rfl]
      rfl
  · cases h

/-- A call of a handler. -/
theorem Threads.step_handler_handlers {charDevice : Bool} {s s' : Threads} {i : ℕ} {e : Event}
    (h : s.step charDevice (.call i (.handler e)) = some s') :
    s.handlers.step charDevice (.call i (.handler e)) = some s'.handlers := by
  simp only [Threads.step] at h
  split at h
  · cases h
  next th hth =>
    split at h
    · cases h
    next task htask =>
      obtain ⟨hkind, hcall⟩ := Task.next_isHandler htask
      have hhandler := hcall.1 ⟨e, rfl⟩
      have hkind : task.isHandler = true := hkind.trans hhandler
      simp only [Threads.step, Threads.handlers_of_handler hth hhandler, htask]
      cases hop : (TaskEvent.handler e).mutexOp with
      | idle =>
          rw [hop] at h
          cases h
          rw [Threads.goOn, Threads.handlers_put _ _ _ hkind]
          rfl
      | release =>
          rw [hop] at h
          cases h
          rw [Threads.goOn, Threads.handlers_put _ _ _ hkind]
      | acquire =>
          rw [hop, Threads.goOn] at h
          split at h
          · next hfree =>
              cases h
              rw [Threads.goOn, if_pos (show s.handlers.owner = none from hfree),
                Threads.handlers_put _ _ _ hkind]
          · cases h

/-- A callback that starts or makes a call leaves the handlers alone. -/
theorem Threads.handlers_of_callback {s s' : Threads} {i : ℕ}
    (hothers : ∀ j, j ≠ i → s'.thread j = s.thread j)
    (hnone : s.handlers.thread i = none) (hnone' : s'.handlers.thread i = none) :
    s'.handlers.thread = s.handlers.thread := by
  funext j
  by_cases hji : j = i
  · rw [hji, hnone, hnone']
  · simp only [Threads.handlers, hothers j hji]

/-- **A call of `main` in its loop** is one of the process without callbacks. -/
theorem Process.mainStep_handlersOnly {s s' : Process} {e : MainEvent} {o : List Misuse}
    (h : s.mainStep e = some (s', o)) :
    s.handlersOnly.mainStep e = some (s'.handlersOnly, o) := by
  cases Process.mainStep_moves h with
  | accepted i hmain hclient hthread =>
      simp only [Process.mainStep, Process.handlersOnly, hmain, hclient,
        Threads.handlers_of_none hthread, and_self, if_true]
      rfl
  | created i threads hmain hthreads =>
      simp only [Process.mainStep, Process.handlersOnly, hmain, if_true,
        Threads.step_accept_handlers hthreads, Option.bind_eq_bind, Option.bind_some]
  | join i rest c hmain hc hend =>
      simp only [Process.mainStep, Process.handlersOnly, hmain, hc, Threads.pc_handlers,
        Option.bind_eq_bind, Option.bind_some, if_pos hend]
      rfl
  | close i rest c hmain hc hfd =>
      simp only [Process.mainStep, Process.handlersOnly, hmain, hc, Option.bind_eq_bind,
        Option.bind_some, if_pos hfd]
      rfl
  | closed i rest c hmain hc hfd =>
      simp only [Process.mainStep, Process.handlersOnly, hmain, hc, Option.bind_eq_bind,
        Option.bind_some, hfd, Bool.false_eq_true, if_false]
  | dataFailed i hmain | instanceFailed i hmain =>
      simp only [Process.mainStep, hmain, Option.bind_eq_bind, Option.bind_eq_some_iff] at h
      obtain ⟨c, hc, -⟩ := h
      simp only [Process.mainStep, Process.handlersOnly, hmain, hc, Option.bind_eq_bind,
        Option.bind_some, Bool.false_eq_true, if_false]
  | returned hmain hqueue | dequeue i queue hmain hqueue =>
      simp only [Process.mainStep, Process.handlersOnly, hmain, hqueue]
  | test hmain | interrupted hmain | enqueued i hmain | passEnds hmain | remove i nodes hmain =>
      simp only [Process.mainStep, Process.handlersOnly, hmain, if_true]
  | createFailed i hmain | enqueueFailed i hmain =>
      simp only [Process.mainStep, Process.handlersOnly, hmain, Bool.false_eq_true, if_false]
  | dataAllocated i c hmain hc | instanceAllocated i c hmain hc =>
      simp only [Process.mainStep, Process.handlersOnly, hmain, hc, Option.bind_eq_bind,
        Option.bind_some, if_true]
      rfl
  | checked i nodes c hmain hc =>
      simp only [Process.mainStep, Process.handlersOnly, hmain, hc, Option.bind_eq_bind,
        Option.bind_some]
  | freeData i rest c hmain hc | freeInstance i rest c hmain hc | kill i c hmain hc
  | undoInstance i c hmain hc | undoData i c hmain hc | undoClient i c hmain hc =>
      simp only [Process.mainStep, Process.handlersOnly, hmain, hc, Option.bind_eq_bind,
        Option.bind_some]
      rfl

/-- **A call of a handler** is one of the process without callbacks. -/
theorem Process.handlerCall_handlersOnly {charDevice : Bool} {s s' : Process} {i : ℕ} {e : Event}
    {o : List Misuse} (h : s.handlerCall charDevice i e = some (s', o)) :
    s.handlersOnly.handlerCall charDevice i e = some (s'.handlersOnly, o) := by
  simp only [Process.handlerCall, Option.bind_eq_bind, Option.bind_eq_some_iff] at h
  obtain ⟨c, hc, h⟩ := h
  split at h
  · cases h
  next hended =>
    simp only [Option.bind_eq_some_iff, Option.some.injEq, Prod.mk.injEq] at h
    obtain ⟨threads, hthreads, rfl, rfl⟩ := h
    simp only [Process.handlerCall, Process.handlersOnly, hc, Option.bind_eq_bind,
      Option.bind_some, hended, Bool.false_eq_true, if_false,
      Threads.step_handler_handlers hthreads]

/-- No handler was cancelled. -/
theorem Process.Inv.endStep_handlersOnly {s : Process} {i : ℕ} (h : s.handlersOnly.Inv) :
    s.endStep i = none := by
  have hnone := h.endStep (i := i)
  simp only [Process.endStep, Process.handlersOnly, Threads.pc_handlers] at hnone ⊢
  cases hc : s.client i with
  | none => rfl
  | some c =>
      cases hpc : s.threads.pc i with
      | none => rfl
      | some pc =>
          simp only [hc, hpc, Option.bind_eq_bind, Option.bind_some] at hnone ⊢
          refine if_neg fun hcond => ?_
          rw [if_pos hcond] at hnone
          cases hnone

/-- The loop changes the threads by creating a handler only. -/
theorem Process.mainStep_threads {s s' : Process} {e : MainEvent} {o : List Misuse}
    (h : s.mainStep e = some (s', o)) :
    s'.threads = s.threads ∨ ∃ i, s.threads.step true (.accept i) = some s'.threads := by
  cases Process.mainStep_moves h with
  | created i threads _ hthreads => exact Or.inr ⟨i, hthreads⟩
  | _ => exact Or.inl rfl

/-! ### The invariant -/

/-- **The invariant**: `main` holds what its call says; the loop and its handlers are where
`Process.Inv` says; a thread that is no handler is a callback that was started; there are threads
from the loop on only; outside the loop there is nothing in the queue; and the callbacks have
returned when the timer is deleted. -/
structure Life.Inv (charDevice : Bool) (s : Life) : Prop where
  main : s.main = .at charDevice s.main.pc s.main.failed
  after : s.main.pc.After charDevice s.main.failed = true
  threads : s.process.threads.Inv
  process : s.process.handlersOnly.Inv
  called : ∀ i th, s.process.threads.thread i = some th → th.task.isHandler = false →
    i ∈ s.callbacks
  served : ∀ i th, s.process.threads.thread i = some th →
    s.main.failed = none ∧ 9 ≤ s.main.pc.rank
  uncalled : charDevice = true → s.callbacks = []
  idle : s.main.pc ≠ .serving → s.process.main = .testing ∨ s.process.main = .returned
  empty : s.main.pc ≠ .serving → s.process.queue = []
  calm : 10 < s.main.pc.rank → ∀ i th, s.process.threads.thread i = some th →
    th.task.returned = true

theorem Life.Inv.init (charDevice : Bool) : Life.init.Inv charDevice where
  main := by cases charDevice <;> rfl
  after := rfl
  threads := Threads.Inv.init
  process := Process.Inv.init.congr rfl rfl rfl rfl
  called _ _ := nofun
  served _ _ := nofun
  uncalled _ := rfl
  idle _ := Or.inl rfl
  empty _ := rfl
  calm h := absurd h (by decide)

variable {charDevice daemon : Bool} {s s' : Life} {o : List LifeMisuse}

/-- In the loop nothing has failed. -/
theorem Life.Inv.failed_serving (h : s.Inv charDevice) (hpc : s.main.pc.rank ≤ 9) :
    s.main.failed = none := by
  have hafter := h.after
  cases hf : s.main.failed with
  | none => rfl
  | some f =>
      rw [hf] at hafter
      simp only [LifePc.After, Bool.and_eq_true, decide_eq_true_eq] at hafter
      omega

/-- When the loop is at rest every connection was released, and its handler has returned. -/
theorem Process.Inv.at_rest {s : Process} (h : s.handlersOnly.Inv)
    (hidle : s.main = .testing ∨ s.main = .returned) (hempty : s.queue = []) (i : ℕ) :
    s.handlersOnly.Settled i := by
  refine h.settled i ?_ ?_
  · rw [show s.handlersOnly.queue = [] from hempty]
    exact List.not_mem_nil
  · rcases hidle with hmain | hmain
    · rw [show s.handlersOnly.main = .testing from hmain]
      exact nofun
    · rw [show s.handlersOnly.main = .returned from hmain]
      exact nofun

theorem Process.Inv.handler_returned {s : Process} (h : s.handlersOnly.Inv)
    (hidle : s.main = .testing ∨ s.main = .returned) (hempty : s.queue = []) {i : ℕ} {th : Thread}
    (hth : s.threads.thread i = some th) (htask : th.task.isHandler = true) :
    th.task.returned = true := by
  rcases h.at_rest hidle hempty i with ⟨-, hnone⟩ | ⟨-, hdone⟩
  · rw [show s.handlersOnly.threads.thread i = some th from
      Threads.handlers_of_handler hth htask] at hnone
    cases hnone
  · rw [show s.handlersOnly.threads.pc i = s.threads.pc i from Threads.pc_handlers ..] at hdone
    obtain ⟨th', hth', htask'⟩ := Threads.thread_of_pc hdone
    obtain rfl := Option.some.inj (hth.symm.trans hth')
    rw [htask']
    rfl

/-- **A call of `main` around its loop.** -/
theorem Life.Inv.call (h : s.Inv charDevice) {ok : Bool} (hcalm : s.Calm (.call ok))
    (hstep : s.step charDevice daemon (.call ok) = some (s', o)) : s'.Inv charDevice := by
  obtain ⟨m, hm, heq⟩ := Option.map_eq_some_iff.1 hstep
  cases heq
  have hat := hm
  rw [h.main] at hat
  obtain ⟨hmain, hafter⟩ := MainState.next_at h.after hat
  obtain ⟨pc, hpc, hrest⟩ := Option.map_eq_some_iff.1 hm
  have hrank := LifePc.next_rank hpc
  have hpc' : m.pc = pc := by rw [← hrest]; split <;> rfl
  have hserving : s.main.pc ≠ .serving := by
    intro hserving
    rw [hserving] at hpc
    cases hpc
  -- threads are there behind the setup only, where a failure does not count
  have hlate : ∀ i th, s.process.threads.thread i = some th → m.failed = s.main.failed := by
    intro i th hth
    have hsetup : s.main.pc.setup = false := by
      rw [← Bool.not_eq_true, LifePc.rank_of_setup]
      have := (h.served i th hth).2
      omega
    rw [← hrest, hsetup]
    rfl
  refine ⟨hmain, hafter, h.threads, h.process, h.called, ?_, h.uncalled, fun _ => h.idle hserving,
    fun _ => h.empty hserving, ?_⟩
  · intro i th hth
    obtain ⟨hnone, hle⟩ := h.served i th hth
    exact ⟨(hlate i th hth).trans hnone, by rw [hpc']; omega⟩
  · intro hlt i th hth
    by_cases hbehind : 10 < s.main.pc.rank
    · exact h.calm hbehind i th hth
    · have hle := (h.served i th hth).2
      have hten : s.main.pc.rank = 10 := by
        rcases (show s.main.pc.rank = 9 ∨ s.main.pc.rank = 10 by omega) with hnine | hten
        · exact absurd (LifePc.eq_of_rank.1 hnine) hserving
        · exact hten
      cases hkind : th.task.isHandler with
      | true => exact h.process.handler_returned (h.idle hserving) (h.empty hserving) hth hkind
      | false => exact hcalm (LifePc.eq_of_rank.2 hten) i (h.called i th hth hkind) th hth

/-- **The loop is left** when the queue is drained. -/
theorem Life.Inv.leave (h : s.Inv charDevice)
    (hstep : s.step charDevice daemon .leave = some (s', o)) :
    s'.Inv charDevice ∧ s.main.failed = none ∧ s'.main.failed = none ∧ o = [] := by
  rw [Life.step] at hstep
  split at hstep
  next hcond =>
    cases hstep
    obtain ⟨hserving, hreturned⟩ := hcond
    have hnone := h.failed_serving (by rw [hserving]; decide)
    have hmain := h.main
    rw [hserving, hnone] at hmain
    have hempty : s.process.queue = [] := by
      have hhere := h.process.here
      unfold Process.Subject at hhere
      simpa only [Process.handlersOnly, hreturned] using hhere
    have hnine : 9 ≤ (LifePc.exit charDevice).rank := by
      rw [LifePc.rank_exit]
      split <;> decide
    have hinv : Life.Inv charDevice
        { s with main := { s.main with pc := .exit charDevice } } := by
      refine ⟨?_, ?_, h.threads, h.process, h.called, fun _ _ _ => ⟨hnone, hnine⟩, h.uncalled,
        fun _ => Or.inr hreturned, fun _ => hempty, ?_⟩
      · rw [hnone, hmain]
        cases charDevice <;> rfl
      · rw [hnone]
        cases charDevice <;> rfl
      · intro hlt i th hth
        cases charDevice with
        | false => exact absurd hlt (lt_irrefl 10)
        | true =>
            -- a build without a timer has no callbacks, and the handlers were joined
            cases hkind : th.task.isHandler with
            | false =>
                have hmem := h.called i th hth hkind
                rw [h.uncalled rfl] at hmem
                cases hmem
            | true => exact h.process.handler_returned (Or.inr hreturned) hempty hth hkind
    exact ⟨hinv, hnone, hnone, rfl⟩
  next => cases hstep

/-- **A call of `main` in its loop.** -/
theorem Life.Inv.loop (h : s.Inv charDevice) {e : MainEvent} (hcalm : s.Calm (.loop e))
    (hstep : s.step charDevice daemon (.loop e) = some (s', o)) : s'.Inv charDevice ∧ o = [] := by
  rw [Life.step] at hstep
  split at hstep
  next hserving =>
    obtain ⟨⟨p, o'⟩, hp, heq⟩ := Option.map_eq_some_iff.1 hstep
    cases heq
    obtain ⟨hprocess, rfl⟩ := h.process.mainStep hcalm (Process.mainStep_handlersOnly hp)
    have hnine : s.main.pc.rank = 9 := by rw [hserving]; rfl
    have hnone := h.failed_serving hnine.le
    have hnot : ∀ {P : Prop}, s.main.pc ≠ .serving → P := fun hc => absurd hserving hc
    have hthreads : p.threads.Inv ∧ ∀ i th, p.threads.thread i = some th →
        th.task.isHandler = false → i ∈ s.callbacks := by
      rcases Process.mainStep_threads hp with hsame | ⟨i, haccept⟩
      · rw [hsame]
        exact ⟨h.threads, h.called⟩
      · refine ⟨h.threads.step (a := .accept i) trivial haccept, ?_⟩
        obtain ⟨-, hpc, -, hothers⟩ := Threads.step_accept haccept
        intro j th hth hkind
        by_cases hji : j = i
        · subst hji
          obtain ⟨th', hth', htask⟩ := Threads.thread_of_pc hpc
          obtain rfl := Option.some.inj (hth.symm.trans hth')
          rw [htask] at hkind
          cases hkind
        · rw [hothers j hji] at hth
          exact h.called j th hth hkind
    exact ⟨⟨h.main, h.after, hthreads.1, hprocess, hthreads.2, fun _ _ _ => ⟨hnone, hnine.ge⟩,
      h.uncalled, hnot, hnot, fun hlt => absurd hlt (by change ¬ 10 < s.main.pc.rank; omega)⟩, rfl⟩
  next => cases hstep

/-- The timer is set from the loop on, and until it is deleted. -/
theorem Life.Inv.of_armed (h : s.Inv charDevice) (harmed : s.main.held.armed = true) :
    s.main.failed = none ∧ 9 ≤ s.main.pc.rank ∧ s.main.pc.rank ≤ 10 := by
  rw [h.main] at harmed
  simp only [MainState.at, LifePc.holds, Bool.and_eq_true, decide_eq_true_eq] at harmed
  obtain ⟨⟨hprogress, -⟩, hten⟩ := harmed
  have hafter := h.after
  cases hf : s.main.failed with
  | none =>
      rw [hf, progress, Option.getD_none] at hprogress
      exact ⟨rfl, hprogress, hten⟩
  | some f =>
      rw [hf] at hafter hprogress
      simp only [LifePc.After, Bool.and_eq_true] at hafter
      have hlt := LifePc.rank_of_setup.1 hafter.1.1.2
      rw [progress, Option.getD_some] at hprogress
      omega

/-- **The timer expires.** -/
theorem Life.Inv.expire (h : s.Inv charDevice) {i : ℕ}
    (hstep : s.step charDevice daemon (.expire i) = some (s', o)) :
    s'.Inv charDevice ∧ o = [] := by
  rw [Life.step] at hstep
  split at hstep
  next hcond =>
    obtain ⟨threads, hthreads, heq⟩ := Option.map_eq_some_iff.1 hstep
    cases heq
    obtain ⟨hnone, hnine, hten⟩ := h.of_armed hcond.1
    obtain ⟨hbuild, hnew, hth, hothers⟩ := Threads.step_expire hthreads
    have hsame : threads.handlers.thread = s.process.threads.handlers.thread :=
      Threads.handlers_of_callback hothers (Threads.handlers_of_none hnew)
        (Threads.handlers_of_timer hth rfl)
    refine ⟨⟨h.main, h.after, h.threads.step (a := .expire i) trivial hthreads,
      h.process.congr rfl rfl rfl hsame, ?_, fun _ _ _ => ⟨hnone, hnine⟩,
      fun hc => absurd (hbuild.symm.trans hc) Bool.false_ne_true, h.idle, h.empty,
      fun hlt => absurd hlt (by change ¬ 10 < s.main.pc.rank; omega)⟩, rfl⟩
    intro j th' hth' hkind
    by_cases hji : j = i
    · rw [hji]
      exact List.mem_cons_self
    · rw [hothers j hji] at hth'
      exact List.mem_cons_of_mem _ (h.called j th' hth' hkind)
  next => cases hstep

/-- A thread makes calls where the mutex is, between the setup and the end of the timer. -/
theorem Life.Inv.at_work (h : s.Inv charDevice) {i : ℕ} {e : TaskEvent} {threads : Threads}
    (hthreads : s.process.threads.step charDevice (.call i e) = some threads) :
    s.main.failed = none ∧ 9 ≤ s.main.pc.rank ∧ s.main.pc.rank ≤ 10 ∧ s.mutexMisuse e = [] := by
  obtain ⟨th, th', hth, hth', hnext, hothers⟩ := Threads.step_call hthreads
  obtain ⟨hnone, hnine⟩ := h.served i th hth
  have hten : s.main.pc.rank ≤ 10 := by
    by_contra hlt
    rw [Task.next_returned (h.calm (by omega) i th hth)] at hnext
    cases hnext
  have hmutex : s.main.held.mutex = true := by
    rw [h.main, hnone]
    simp only [MainState.at, LifePc.holds, progress, Option.getD_none, Bool.and_eq_true,
      Bool.or_eq_true, decide_eq_true_eq]
    exact ⟨decide_eq_true (by omega), Or.inr (by omega)⟩
  refine ⟨hnone, hnine, hten, ?_⟩
  rw [Life.mutexMisuse, hmutex, Bool.not_true, Bool.and_false]
  rfl

/-- A call of a thread keeps what is known of the callbacks. -/
theorem Life.Inv.called_call (h : s.Inv charDevice) {i : ℕ} {e : TaskEvent} {threads : Threads}
    (hthreads : s.process.threads.step charDevice (.call i e) = some threads) (j : ℕ) (th : Thread)
    (hth : threads.thread j = some th) (hkind : th.task.isHandler = false) : j ∈ s.callbacks := by
  obtain ⟨th₀, th₁, hth₀, hth₁, hnext, hothers⟩ := Threads.step_call hthreads
  by_cases hji : j = i
  · subst hji
    obtain rfl := Option.some.inj (hth.symm.trans hth₁)
    exact h.called j th₀ hth₀ ((Task.next_isHandler hnext).1.symm.trans hkind)
  · rw [hothers j hji] at hth
    exact h.called j th hth hkind

/-- **A call of a handler.** -/
theorem Life.Inv.handler (h : s.Inv charDevice) {i : ℕ} {e : Event}
    (hcalm : s.Calm (.handler i e))
    (hstep : s.step charDevice daemon (.handler i e) = some (s', o)) :
    s'.Inv charDevice ∧ o = [] := by
  rw [Life.step] at hstep
  split at hstep
  · cases hstep
  obtain ⟨⟨p, o'⟩, hp, heq⟩ := Option.map_eq_some_iff.1 hstep
  cases heq
  obtain ⟨hprocess, rfl⟩ := h.process.handlerCall (Process.handlerCall_handlersOnly hp)
  obtain ⟨threads, hthreads, hmain, hqueue, rfl⟩ : ∃ threads,
      s.process.threads.step charDevice (.call i (.handler e)) = some threads ∧
        p.main = s.process.main ∧ p.queue = s.process.queue ∧ threads = p.threads := by
    simp only [Process.handlerCall, Option.bind_eq_bind, Option.bind_eq_some_iff] at hp
    obtain ⟨c, -, hp⟩ := hp
    split at hp
    · cases hp
    · simp only [Option.bind_eq_some_iff, Option.some.injEq, Prod.mk.injEq] at hp
      obtain ⟨threads, hthreads, rfl, -⟩ := hp
      exact ⟨threads, hthreads, rfl, rfl, rfl⟩
  obtain ⟨hnone, hnine, hten, hmisuse⟩ := h.at_work hthreads
  refine ⟨⟨h.main, h.after, h.threads.step (a := .call i (.handler e)) hcalm hthreads, hprocess,
    h.called_call hthreads, fun _ _ _ => ⟨hnone, hnine⟩, h.uncalled, ?_, ?_,
    fun hlt => absurd hlt (by change ¬ 10 < s.main.pc.rank; omega)⟩, by rw [hmisuse]; rfl⟩
  · intro hserving
    rw [show p.main = s.process.main from hmain]
    exact h.idle hserving
  · intro hserving
    exact hqueue.trans (h.empty hserving)

/-- **A call of a callback.** -/
theorem Life.Inv.callback (h : s.Inv charDevice) {i : ℕ} {e : TimerEvent}
    (hcalm : s.Calm (.callback i e))
    (hstep : s.step charDevice daemon (.callback i e) = some (s', o)) :
    s'.Inv charDevice ∧ o = [] := by
  rw [Life.step] at hstep
  split at hstep
  · cases hstep
  obtain ⟨threads, hthreads, heq⟩ := Option.map_eq_some_iff.1 hstep
  cases heq
  obtain ⟨hnone, hnine, hten, hmisuse⟩ := h.at_work hthreads
  obtain ⟨th, th', hth, hth', hnext, hothers⟩ := Threads.step_call hthreads
  obtain ⟨hkind, hcall⟩ := Task.next_isHandler hnext
  have htimer : th.task.isHandler = false := by
    cases htask : th.task.isHandler with
    | false => rfl
    | true =>
        obtain ⟨e', he'⟩ := hcall.2 htask
        cases he'
  have hsame : threads.handlers.thread = s.process.threads.handlers.thread :=
    Threads.handlers_of_callback hothers (Threads.handlers_of_timer hth htimer)
      (Threads.handlers_of_timer hth' (hkind.trans htimer))
  exact ⟨⟨h.main, h.after, h.threads.step (a := .call i (.timer e)) hcalm hthreads,
    h.process.congr rfl rfl rfl hsame, h.called_call hthreads, fun _ _ _ => ⟨hnone, hnine⟩,
    h.uncalled, h.idle, h.empty,
    fun hlt => absurd hlt (by change ¬ 10 < s.main.pc.rank; omega)⟩, hmisuse⟩

/-- **A signal.** -/
theorem Life.Inv.signal (h : s.Inv charDevice)
    (hstep : s.step charDevice daemon .signal = some (s', o)) : s'.Inv charDevice ∧ o = [] := by
  rw [Life.step] at hstep
  split at hstep
  · cases hstep
  · cases hstep
    exact ⟨⟨h.main, h.after, h.threads, h.process.congr rfl rfl rfl rfl, h.called, h.served,
      h.uncalled, h.idle, h.empty, h.calm⟩, rfl⟩

/-! ### What is undone -/

theorem Life.Inv.held (h : s.Inv charDevice) :
    s.main.held = s.main.pc.holds charDevice (progress s.main.pc s.main.failed) :=
  congrArg MainState.held h.main

/-- A failure that the label `exit` meets was not that of the first call. -/
theorem Life.Inv.rank_pos (h : s.Inv charDevice) {f : LifePc} (hf : s.main.failed = some f)
    (hpc : s.main.pc ≠ .returned) : 0 < f.rank := by
  have hafter := h.after
  rw [hf] at hafter
  simp only [LifePc.After, Bool.and_eq_true, Bool.or_eq_true, decide_eq_true_eq] at hafter
  have hne : f ≠ .gettingAddrinfo := hafter.2.resolve_right hpc
  cases f <;> first | exact absurd rfl hne | decide

theorem Life.Inv.ofBuild (h : s.Inv charDevice) : s.main.pc.ofBuild charDevice = true := by
  have hafter := h.after
  cases hf : s.main.failed with
  | none =>
      rw [hf] at hafter
      exact hafter
  | some f =>
      rw [hf] at hafter
      simp only [LifePc.After, Bool.and_eq_true] at hafter
      exact hafter.1.1.1.1

/-- **What `main` undoes that was not done**: the timer and the mutex. -/
theorem Life.Inv.misuse_ne_nil (h : s.Inv charDevice) : s.misuse ≠ [] ↔
    (s.main.pc = .deletingTimer ∧ progress s.main.pc s.main.failed ≤ 7) ∨
      (s.main.pc = .destroyingMutex ∧ progress s.main.pc s.main.failed ≤ 6) := by
  have hheld := h.held
  have hbuild := h.ofBuild
  unfold Life.misuse
  split
  · next hpc =>
      rw [hpc] at hheld hbuild ⊢
      obtain rfl : charDevice = false := by simpa [LifePc.ofBuild] using hbuild
      simp [hheld, LifePc.holds, LifePc.rank]
  · next hpc =>
      have hfree : s.process.threads.owner = none := (h.threads.disciplined charDevice).free
        (h.calm (by rw [hpc]; decide))
      rw [hpc] at hheld hbuild ⊢
      obtain rfl : charDevice = false := by simpa [LifePc.ofBuild] using hbuild
      simp [hheld, hfree, LifePc.holds, LifePc.rank]
  · next hpc =>
      have hpos : 0 < progress s.main.pc s.main.failed := by
        cases hf : s.main.failed with
        | none =>
            rw [hpc]
            decide
        | some f => exact h.rank_pos hf (by rw [hpc]; decide)
      rw [hpc] at hheld hpos ⊢
      simp [hheld, hpos, LifePc.holds, LifePc.rank]
  · next hdeleting hdestroying _ =>
      exact iff_of_false (fun hc => hc rfl)
        (not_or.2 ⟨fun hc => hdeleting hc.1, fun hc => hdestroying hc.1⟩)

/-- The setup failed before the timer was there, and the label `exit` has deleted it
nevertheless. -/
def Life.Overdone (charDevice : Bool) (s : Life) : Prop :=
  charDevice = false ∧ 10 < s.main.pc.rank ∧ ∃ f, s.main.failed = some f ∧ 0 < f.rank ∧ f.rank ≤ 7

/-- A call of `main` does what must not happen only on such a way through the label. -/
theorem Life.Inv.call_overdone (h : s.Inv charDevice) {ok : Bool}
    (hstep : s.step charDevice daemon (.call ok) = some (s', o)) :
    s'.Overdone charDevice ↔ s.Overdone charDevice ∨ o ≠ [] := by
  obtain ⟨m, hm, heq⟩ := Option.map_eq_some_iff.1 hstep
  cases heq
  obtain ⟨pc, hpc, hrest⟩ := Option.map_eq_some_iff.1 hm
  have hrank := LifePc.next_rank hpc
  have hpc' : m.pc = pc := by rw [← hrest]; split <;> rfl
  have hbuild := h.ofBuild
  rw [h.misuse_ne_nil]
  cases hf : s.main.failed with
  | some f =>
      have hafter := h.after
      rw [hf] at hafter
      simp only [LifePc.After, Bool.and_eq_true, decide_eq_true_eq] at hafter
      have hbehind : 9 < s.main.pc.rank := hafter.1.2
      have hpos := h.rank_pos hf (by intro hc; rw [hc] at hpc; cases hpc)
      have hsetup : s.main.pc.setup = false := by
        rw [← Bool.not_eq_true, LifePc.rank_of_setup]
        omega
      have hfailed : m.failed = some f := by
        rw [← hrest, hsetup]
        exact hf
      have hdone : Life.Overdone charDevice { s with main := m } ↔
          charDevice = false ∧ f.rank ≤ 7 := by
        constructor
        · rintro ⟨hcd, -, f', hf', -, hle⟩
          obtain rfl := Option.some.inj (hfailed.symm.trans hf')
          exact ⟨hcd, hle⟩
        · rintro ⟨hcd, hle⟩
          exact ⟨hcd, by change 10 < m.pc.rank; rw [hpc']; omega, f, hfailed, hpos, hle⟩
      rw [hdone]
      constructor
      · rintro ⟨hcd, hle⟩
        by_cases hlt : 10 < s.main.pc.rank
        · exact Or.inl ⟨hcd, hlt, f, hf, hpos, hle⟩
        · exact Or.inr (Or.inl ⟨LifePc.eq_of_rank.2 (by omega), hle⟩)
      · rintro (⟨hcd, -, f', hf', -, hle⟩ | ⟨hdeleting, hle⟩ | ⟨hdestroying, hle⟩)
        · obtain rfl := Option.some.inj (hf.symm.trans hf')
          exact ⟨hcd, hle⟩
        · rw [hdeleting] at hbuild
          exact ⟨by simpa [LifePc.ofBuild] using hbuild, hle⟩
        · rw [hdestroying] at hbuild
          exact ⟨by simpa [LifePc.ofBuild] using hbuild, le_trans hle (by decide)⟩
  | none =>
      refine iff_of_false ?_ ?_
      · rintro ⟨rfl, hlt, f, hf', hpos, -⟩
        -- a call of the setup has failed just now
        have hfail : s.main.pc.setup = true ∧ ok = false ∧ f = s.main.pc := by
          change m.failed = some f at hf'
          rw [← hrest] at hf'
          split at hf'
          · next hcond =>
              simp only [Bool.and_eq_true, Bool.not_eq_true'] at hcond
              exact ⟨hcond.1, hcond.2, (Option.some.inj hf').symm⟩
          · rw [hf] at hf'
            cases hf'
        obtain ⟨hsetup, rfl, rfl⟩ := hfail
        change 10 < m.pc.rank at hlt
        rw [hpc', LifePc.next_failed hsetup hpos hpc] at hlt
        exact absurd hlt (lt_irrefl 10)
      · rintro (⟨-, -, f, hf', -⟩ | ⟨hc, hle⟩ | ⟨hc, hle⟩)
        · rw [hf] at hf'
          cases hf'
        · rw [hc] at hle
          exact absurd hle (by decide)
        · rw [hc] at hle
          exact absurd hle (by decide)

/-- The steps in the loop and of the threads do not change what `main` has done around it. -/
theorem Life.step_main {a : LifeAct} (ha : ∀ ok, a ≠ .call ok) (hleave : a ≠ .leave)
    (h : s.step charDevice daemon a = some (s', o)) : s'.main = s.main := by
  cases a with
  | call ok => exact absurd rfl (ha ok)
  | leave => exact absurd rfl hleave
  | loop e | expire i =>
      rw [Life.step] at h
      split at h
      · obtain ⟨p, -, heq⟩ := Option.map_eq_some_iff.1 h
        cases heq
        rfl
      · cases h
  | signal =>
      rw [Life.step] at h
      split at h
      · cases h
      · cases h
        rfl
  | handler i e | callback i e | cancelled i =>
      rw [Life.step] at h
      split at h
      · cases h
      · obtain ⟨p, -, heq⟩ := Option.map_eq_some_iff.1 h
        cases heq
        rfl

/-- **A step in the loop or of a thread** keeps the invariant, and nothing happens that must not. -/
theorem Life.Inv.inside (h : s.Inv charDevice) {a : LifeAct} (ha : ∀ ok, a ≠ .call ok)
    (hleave : a ≠ .leave) (hcalm : s.Calm a) (hstep : s.step charDevice daemon a = some (s', o)) :
    s'.Inv charDevice ∧ o = [] := by
  cases a with
  | call ok => exact absurd rfl (ha ok)
  | leave => exact absurd rfl hleave
  | loop e => exact h.loop hcalm hstep
  | signal => exact h.signal hstep
  | expire i => exact h.expire hstep
  | handler i e => exact h.handler hcalm hstep
  | callback i e => exact h.callback hcalm hstep
  | cancelled i =>
      rw [Life.step, h.process.endStep_handlersOnly] at hstep
      split at hstep <;> cases hstep

/-- **Every step of the process** keeps the invariant; what must not happen is done on a way through
the label only that begins before the timer is there. -/
theorem Life.Inv.step (h : s.Inv charDevice) {a : LifeAct} (hcalm : s.Calm a)
    (hstep : s.step charDevice daemon a = some (s', o)) :
    s'.Inv charDevice ∧ (s'.Overdone charDevice ↔ s.Overdone charDevice ∨ o ≠ []) := by
  by_cases hcall : ∃ ok, a = .call ok
  · obtain ⟨ok, rfl⟩ := hcall
    exact ⟨h.call hcalm hstep, h.call_overdone hstep⟩
  by_cases hleave : a = .leave
  · subst hleave
    obtain ⟨hinv, hnone, hnone', rfl⟩ := h.leave hstep
    have hnot : ∀ s : Life, s.main.failed = none → ¬ s.Overdone charDevice := by
      rintro s hnone ⟨-, -, f, hf, -⟩
      rw [hnone] at hf
      cases hf
    exact ⟨hinv, iff_of_false (hnot s' hnone')
      (not_or.2 ⟨hnot s hnone, fun hne => hne rfl⟩)⟩
  · have ha : ∀ ok, a ≠ .call ok := fun ok hok => hcall ⟨ok, hok⟩
    obtain ⟨hinv, rfl⟩ := h.inside ha hleave hcalm hstep
    refine ⟨hinv, ?_⟩
    rw [Life.Overdone, Life.Overdone, Life.step_main ha hleave hstep]
    exact (or_iff_left fun hne => hne rfl).symm

/-- The same of a whole run. -/
theorem Life.Inv.trace {charDevice daemon : Bool} {t : List (LifeAct × List LifeMisuse)} {s : Life}
    (ht : (mainLife charDevice daemon).Trace Life.Calm .init t s) :
    s.Inv charDevice ∧ (s.Overdone charDevice ↔ ∃ p ∈ t, p.2 ≠ []) := by
  induction ht with
  | nil =>
      refine ⟨.init charDevice, iff_of_false ?_ ?_⟩
      · rintro ⟨-, -, f, hf, -⟩
        cases hf
      · rintro ⟨p, hp, -⟩
        cases hp
  | snoc _ hcalm hstep ih =>
      obtain ⟨hinv, hoverdone⟩ := ih.1.step hcalm hstep
      refine ⟨hinv, ?_⟩
      rw [hoverdone, ih.2]
      simp only [List.mem_append, List.mem_singleton, or_and_right, exists_or, exists_eq_left]

/-- **`main` gives everything back.**  In a run of the process in which nothing fails in the loop,
the drain meets no handler at work, no lock of a handler and no `fopen` of a callback fails, and no
callback is at work when the timer is deleted, `main` holds nothing when it has returned, but the
mutex in the build for the device, where nobody destroys it; every connection was released, all
threads have returned, and the mutex is free; it returns zero if nothing has failed but a call of
the timer; and what must not happen did not, just if the build has no timer, or nothing, the first
call or the last call of the setup has failed. -/
theorem main_releases {charDevice daemon : Bool} {t : List (LifeAct × List LifeMisuse)} {s : Life}
    (ht : (mainLife charDevice daemon).Trace Life.Calm .init t s)
    (hreturned : s.main.pc = .returned) :
    s.main.held = ⟨false, false, charDevice && s.main.failed.isNone, false, false⟩ ∧
      (∀ i c, s.process.client i = some c → c = .released) ∧
      (∀ i th, s.process.threads.thread i = some th → th.task.returned = true) ∧
      s.process.threads.owner = none ∧
      (s.main.returnVal = 0 ↔ ∀ f ∈ s.main.failed, f = .creatingTimer ∨ f = .settingTimer) ∧
      ((∀ p ∈ t, p.2 = []) ↔
        charDevice = true ∨ ∀ f ∈ s.main.failed, f = .gettingAddrinfo ∨ f = .settingTimer) := by
  obtain ⟨h, hoverdone⟩ := Life.Inv.trace ht
  have hserving : s.main.pc ≠ .serving := by
    rw [hreturned]
    exact nofun
  have hcalm := h.calm (by rw [hreturned]; decide)
  have hall : (∀ p ∈ t, p.2 = []) ↔ ¬ s.Overdone charDevice := by
    rw [hoverdone, not_exists]
    exact forall_congr' fun p => by rw [not_and, not_not]
  have hafter := h.after
  have hmain := h.main
  rw [hreturned] at hafter hmain
  refine ⟨?_, ?_, hcalm, (h.threads.disciplined charDevice).free hcalm, ?_, ?_⟩
  · rw [hmain]
    cases hf : s.main.failed with
    | none => cases charDevice <;> rfl
    | some f =>
        rw [hf] at hafter
        cases f <;> cases charDevice <;> first | rfl | cases hafter
  · intro i c hc
    rcases h.process.at_rest (h.idle hserving) (h.empty hserving) i with
      ⟨hnone, -⟩ | ⟨hreleased, -⟩
    · cases hc.symm.trans hnone
    · exact Option.some.inj (hc.symm.trans hreleased)
  · rw [hmain]
    cases hf : s.main.failed with
    | none => exact iff_of_true rfl fun _ hc => absurd hc (Option.not_mem_none _)
    | some f =>
        cases f <;> simp [MainState.at, LifePc.errorVal]
  · rw [hall, Life.Overdone, hreturned]
    cases hf : s.main.failed with
    | none => simp
    | some f =>
        rw [hf] at hafter
        cases f <;> cases charDevice <;> simp [LifePc.rank] <;> cases hafter

/-- The labels of a run in which nothing fails: a connection is accepted, the timer expires, the
connection is lost, and then comes a signal. -/
def quietLife : List LifeAct :=
  List.replicate 8 (.call true) ++
    [.loop .go, .loop (.accept (some 0)), .loop (.malloc true), .loop (.malloc true),
      .loop (.pthreadCreate true), .loop (.queueEnqueue true), .loop .go, .loop .go,
      .expire 1] ++
    [Event.lock 0, .fopen true, .recv .failed, .fclose, .unlock, .close, .clear, .complete].map
      (fun e => .handler 0 e) ++
    [TimerEvent.time true, .malloc true, .localtimeR true, .strftime true, .lock 0, .fopen true,
      .fwrite true, .fclose, .unlock, .free].map (fun e => .callback 1 e) ++
    .loop .go :: .signal :: .loop (.accept none) :: List.replicate 7 (.loop .go) ++
    .leave :: List.replicate 6 (.call true)

theorem main_releases_quietLife :
    ∃ (t : List (LifeAct × List LifeMisuse)) (s : Life),
      (mainLife false false).Trace Life.Calm .init t s ∧ s.main.pc = .returned ∧
      s.main.held = ⟨false, false, false, false, false⟩ ∧
      s.process.client 0 = some .released ∧ s.main.returnVal = 0 ∧ ∀ p ∈ t, p.2 = [] := by
  have hex : ∃ p, (mainLife false false).run .init quietLife = some p :=
    Option.isSome_iff_exists.1 (by decide +kernel)
  obtain ⟨⟨s, os⟩, hrun⟩ := hex
  have hreturned : s.main.pc = .returned := Machine.run_map hrun (fun p => p.1.main.pc) rfl
  have hnone : s.main.failed = none := Machine.run_map hrun (fun p => p.1.main.failed) rfl
  have hclient : (s.process.client 0).isSome = true :=
    Machine.run_map hrun (fun p => (p.1.process.client 0).isSome) rfl
  have hpasses : (mainLife false false).Passes Life.Calm .init quietLife := by decide +kernel
  have htrace := Machine.trace_of_run hrun hpasses
  obtain ⟨hheld, hreleased, -, -, hval, hall⟩ := main_releases htrace hreturned
  obtain ⟨c, hc⟩ := Option.isSome_iff_exists.1 hclient
  obtain rfl := hreleased 0 c hc
  rw [hnone] at hheld hval hall
  exact ⟨_, s, htrace, hreturned, hheld, hc, hval.2 fun _ hf => absurd hf (Option.not_mem_none _),
    hall.2 (Or.inr fun _ hf => absurd hf (Option.not_mem_none _))⟩

/-- **A callback outlives the mutex**: nothing fails, and a callback that has just formatted its
line when the timer is deleted locks the mutex when `main` has destroyed it. -/
theorem callback_outlives_mutex : ∃ (t : List (LifeAct × List LifeMisuse)) (s : Life),
    (mainLife false false).Trace Machine.free .init t s ∧ s.main.failed = none ∧
      ∃ p ∈ t, p.2 = [.mutex] := by
  have hex : ∃ p, (mainLife false false).run .init
      (List.replicate 8 (.call true) ++ [.expire 0] ++
        [TimerEvent.time true, .malloc true, .localtimeR true, .strftime true].map
          (fun e => .callback 0 e) ++
        [.signal, .loop .go, .loop .go, .leave, .call true, .call true,
          .callback 0 (.lock 0)]) = some p :=
    Option.isSome_iff_exists.1 (by decide +kernel)
  obtain ⟨⟨s, os⟩, hrun⟩ := hex
  have hnone : s.main.failed = none := Machine.run_map hrun (fun p => p.1.main.failed) rfl
  have hos : os = List.replicate 19 [] ++ [[.mutex]] := Machine.run_map hrun Prod.snd rfl
  subst hos
  exact ⟨_, s, Machine.trace_of_run hrun (Machine.passes_free _ _), hnone,
    (.callback 0 (.lock 0), [.mutex]), List.getLast_mem (List.cons_ne_nil _ _), rfl⟩

end Aesd
