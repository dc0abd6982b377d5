/-
**The discipline of `file_mutex`.**

The threads of the server share one mutex: a handler for every accepted connection and, in the
temp-file build, a callback for every expiration of the timer.  Here they are only what they do to
the mutex: each is an automaton that is at a control point, any of them may make its next call, any
call may return anything it can return, and a thread may be created at any time.  The number of
times a thread locked and unlocked the mutex is counted.

A handler whose `pthread_mutex_lock` fails goes to the same label as one that could not open the
file, and unlocks a mutex that it does not hold; a callback that cannot open the file skips the
unlock.  Without these two failures the mutex is held by one thread at a time, which unlocks it
once, before it returns, whatever else fails.

* `TimerPc.next` — `timer_expired_handler`, from one call to the next;
* `Threads`, `threads` — the threads under a scheduler;
* `Task.next_phase` — what a call can do to the mutex, once for both kinds of threads;
* `Threads.Disciplined`, `file_mutex_disciplined` — **the discipline**, and when it is kept.
-/

import Aesd.ConnectionHandler
import Aesd.Machine

set_option relaxedAutoImplicit false
set_option autoImplicit false

namespace Aesd

/-! ### The callback of the timer -/

/-- A control point of the callback: the call it is about to make. -/
inductive TimerPc where
  /-- `time` -/
  | gettingTime
  /-- `malloc` of the broken-down time -/
  | allocating
  /-- `localtime_r` -/
  | converting
  /-- `strftime` -/
  | formatting
  /-- `pthread_mutex_lock` -/
  | locking
  /-- `fopen` -/
  | opening
  /-- `fwrite` -/
  | writing
  /-- `fclose` -/
  | closingFile
  /-- `pthread_mutex_unlock` -/
  | unlocking
  /-- `free` of the broken-down time -/
  | freeing
  /-- returned -/
  | done
  deriving DecidableEq

/-- A call of the callback, with its result. -/
inductive TimerEvent where
  | time (ok : Bool)
  | malloc (ok : Bool)
  | localtimeR (ok : Bool)
  | strftime (ok : Bool)
  | lock (res : ℤ)
  | fopen (ok : Bool)
  | fwrite (ok : Bool)
  | fclose
  | unlock
  | free

/-- **`timer_expired_handler`**, from one call to the next. -/
def TimerPc.next : TimerPc → TimerEvent → Option TimerPc
  | .gettingTime, .time ok => some (if ok then .allocating else .done)
  | .allocating, .malloc ok => some (if ok then .converting else .done)
  | .converting, .localtimeR ok => some (if ok then .formatting else .freeing)
  | .formatting, .strftime ok => some (if ok then .locking else .freeing)
  | .locking, .lock res => some (if res ≠ 0 then .freeing else .opening)
  -- the mutex stays locked if the file cannot be opened
  | .opening, .fopen ok => some (if ok then .writing else .freeing)
  | .writing, .fwrite _ => some .closingFile
  | .closingFile, .fclose => some .unlocking
  | .unlocking, .unlock => some .freeing
  | .freeing, .free => some .done
  | _, _ => none

/-! ### Threads that share the mutex -/

/-- What a thread is about to do. -/
inductive Task where
  | handler (pc : Pc)
  | timer (pc : TimerPc)
  deriving DecidableEq

/-- A call of a thread, with its result. -/
inductive TaskEvent where
  | handler (e : Event)
  | timer (e : TimerEvent)

/-- What a thread does next. -/
def Task.next (charDevice : Bool) : Task → TaskEvent → Option Task
  | .handler pc, .handler e => (pc.next charDevice e).map .handler
  | .timer pc, .timer e => pc.next e |>.map .timer
  | _, _ => none

/-- The thread has returned. -/
def Task.returned : Task → Bool
  | .handler .done | .timer .done => true
  | _ => false

/-- What a call does to the mutex. -/
inductive MutexOp where
  | acquire
  | release
  | idle
  deriving DecidableEq

/-- A lock that fails leaves the mutex as it is; an unlock frees it, whoever locked it. -/
def TaskEvent.mutexOp : TaskEvent → MutexOp
  | .handler (.lock res) | .timer (.lock res) => if res = 0 then .acquire else .idle
  | .handler .unlock | .timer .unlock => .release
  | _ => .idle

/-- A thread, with the number of times it locked and unlocked the mutex. -/
structure Thread where
  task : Task
  locks : ℕ
  unlocks : ℕ
  deriving DecidableEq

/-- The mutex, with the thread that locked it, and the threads by their numbers. -/
structure Threads where
  owner : Option ℕ
  thread : ℕ → Option Thread

/-- No thread, and a mutex that is free. -/
def Threads.init : Threads := ⟨none, fun _ => none⟩

/-- A step of the scheduler: a thread is created, or makes its next call. -/
inductive Act where
  | accept (i : ℕ)
  | expire (i : ℕ)
  | call (i : ℕ) (e : TaskEvent)

/-- Thread `i` becomes `th`, and the mutex belongs to `o`. -/
def Threads.put (s : Threads) (o : Option ℕ) (i : ℕ) (th : Thread) : Threads :=
  ⟨o, Function.update s.thread i (some th)⟩

@[simp] theorem Threads.put_self (s : Threads) (o : Option ℕ) (i : ℕ) (th : Thread) :
    (s.put o i th).thread i = some th := Function.update_self ..

theorem Threads.put_of_ne (s : Threads) (o : Option ℕ) {i j : ℕ} (th : Thread) (hji : j ≠ i) :
    (s.put o i th).thread j = s.thread j := Function.update_of_ne hji ..

/-- Creating a thread. -/
def Threads.spawn (s : Threads) (i : ℕ) (task : Task) : Option Threads :=
  if s.thread i = none then some (s.put s.owner i ⟨task, 0, 0⟩) else none

/-- Thread `i` goes on to `task` by a call that does `op` to the mutex.  A lock waits until the
mutex is free. -/
def Threads.goOn (s : Threads) (i : ℕ) (th : Thread) (task : Task) : MutexOp → Option Threads
  | .idle => some (s.put s.owner i { th with task := task })
  | .acquire =>
      if s.owner = none then some (s.put (some i) i ⟨task, th.locks + 1, th.unlocks⟩) else none
  | .release => some (s.put none i ⟨task, th.locks, th.unlocks + 1⟩)

/-- One step of the scheduler; there is a timer in the temp-file build only. -/
def Threads.step (charDevice : Bool) (s : Threads) : Act → Option Threads
  | .accept i => s.spawn i (.handler .locking)
  | .expire i => if charDevice then none else s.spawn i (.timer .gettingTime)
  | .call i e =>
      match s.thread i with
      | none => none
      | some th =>
          match th.task.next charDevice e with
          | none => none
          | some task => s.goOn i th task e.mutexOp

/-- **The threads as a machine.** -/
def threads (charDevice : Bool) : Machine Threads Act Unit where
  step s a := (s.step charDevice a).map fun s' => (s', ())

/-! ### One handler among the threads -/

/-- The control point of a handler. -/
def Threads.pc (s : Threads) (i : ℕ) : Option Pc :=
  match s.thread i with
  | some ⟨.handler pc, _, _⟩ => some pc
  | _ => none

theorem Threads.pc_of_thread {s : Threads} {i : ℕ} {th : Thread} {pc : Pc}
    (hth : s.thread i = some th) (htask : th.task = .handler pc) : s.pc i = some pc := by
  obtain ⟨task, locks, unlocks⟩ := th
  obtain rfl : task = .handler pc := htask
  simp only [Threads.pc, hth]

theorem Threads.thread_of_pc {s : Threads} {i : ℕ} {pc : Pc} (h : s.pc i = some pc) :
    ∃ th, s.thread i = some th ∧ th.task = .handler pc := by
  unfold Threads.pc at h
  split at h
  · next hth => exact ⟨_, hth, by rw [Option.some.inj h]⟩
  · cases h

theorem Threads.pc_eq_none {s : Threads} {i : ℕ} (h : s.thread i = none) : s.pc i = none := by
  simp only [Threads.pc, h]

theorem Threads.pc_congr {s s' : Threads} {i : ℕ} (h : s'.thread i = s.thread i) :
    s'.pc i = s.pc i := by
  unfold Threads.pc
  rw [h]

@[simp] theorem Threads.pc_put (s : Threads) (o : Option ℕ) (i : ℕ) (pc : Pc) (l u : ℕ) :
    (s.put o i ⟨.handler pc, l, u⟩).pc i = some pc := by
  simp only [Threads.pc, Threads.put_self]

/-- What the creation of handler `i` does. -/
theorem Threads.step_accept {charDevice : Bool} {s s' : Threads} {i : ℕ}
    (h : s.step charDevice (.accept i) = some s') :
    s.thread i = none ∧ s'.pc i = some .locking ∧ s'.owner = s.owner ∧
      ∀ j, j ≠ i → s'.thread j = s.thread j := by
  simp only [Threads.step, Threads.spawn] at h
  split at h
  · next hnone =>
      cases h
      exact ⟨hnone, Threads.pc_put .., rfl, fun j hj => Threads.put_of_ne _ _ _ hj⟩
  · cases h

/-- What a call `e` of handler `i` does to the threads. -/
structure Threads.Calls (charDevice : Bool) (s : Threads) (i : ℕ) (e : Event) (s' : Threads)
    (pc pc' : Pc) : Prop where
  here : s.pc i = some pc
  next : pc.next charDevice e = some pc'
  there : s'.pc i = some pc'
  others : ∀ j, j ≠ i → s'.thread j = s.thread j
  acquire : (TaskEvent.handler e).mutexOp = .acquire → s'.owner = some i
  release : (TaskEvent.handler e).mutexOp = .release → s'.owner = none
  idle : (TaskEvent.handler e).mutexOp = .idle → s'.owner = s.owner

theorem Threads.goOn_eq {s s' : Threads} {i : ℕ} {th : Thread} {task : Task} {op : MutexOp}
    (h : s.goOn i th task op = some s') :
    ∃ o l u, s' = s.put o i ⟨task, l, u⟩ ∧ (op = .acquire → o = some i) ∧
      (op = .release → o = none) ∧ (op = .idle → o = s.owner) := by
  cases op with
  | idle =>
      cases h
      exact ⟨_, _, _, rfl, nofun, nofun, fun _ => rfl⟩
  | acquire =>
      simp only [Threads.goOn] at h
      split at h
      · cases h
        exact ⟨_, _, _, rfl, fun _ => rfl, nofun, nofun⟩
      · cases h
  | release =>
      cases h
      exact ⟨_, _, _, rfl, nofun, fun _ => rfl, nofun⟩

theorem Threads.step_handler {charDevice : Bool} {s s' : Threads} {i : ℕ} {e : Event}
    (h : s.step charDevice (.call i (.handler e)) = some s') :
    ∃ pc pc', s.Calls charDevice i e s' pc pc' := by
  simp only [Threads.step] at h
  split at h
  · cases h
  next th hth =>
    split at h
    · cases h
    next task htask =>
      cases hhandler : th.task with
      | timer pc =>
          rw [hhandler] at htask
          cases htask
      | handler pc =>
          rw [hhandler] at htask
          obtain ⟨pc', hpc, rfl⟩ := Option.map_eq_some_iff.1 htask
          obtain ⟨o, l, u, rfl, hacq, hrel, hidle⟩ := Threads.goOn_eq h
          exact ⟨pc, pc', Threads.pc_of_thread hth hhandler, hpc, Threads.pc_put ..,
            fun j hj => Threads.put_of_ne _ _ _ hj, hacq, hrel, hidle⟩

/-- A handler can make a call, unless it waits for the mutex. -/
theorem Threads.step_possible {s : Threads} {i : ℕ} {pc pc' : Pc} {e : Event}
    (hpc : s.pc i = some pc) (hnext : pc.next true e = some pc')
    (hfree : (TaskEvent.handler e).mutexOp = .acquire → s.owner = none) :
    ∃ s', s.step true (.call i (.handler e)) = some s' := by
  obtain ⟨th, hth, htask⟩ := Threads.thread_of_pc hpc
  have hgo : s.step true (.call i (.handler e))
      = s.goOn i th (.handler pc') (TaskEvent.handler e).mutexOp := by
    simp only [Threads.step, hth, htask, Task.next, hnext, Option.map_some]
  rw [hgo]
  cases hop : (TaskEvent.handler e).mutexOp with
  | acquire => exact ⟨_, if_pos (hfree hop)⟩
  | release | idle => exact ⟨_, rfl⟩

/-! ### The discipline -/

/-- The thread is between a successful lock and its unlock. -/
def Threads.Holds (s : Threads) (i : ℕ) : Prop :=
  ∃ th, s.thread i = some th ∧ th.unlocks < th.locks

/-- **The discipline of the mutex.** -/
structure Threads.Disciplined (charDevice : Bool) (s : Threads) : Prop where
  /-- At most one thread is between a successful lock and its unlock. -/
  exclusive : ∀ i j, s.Holds i → s.Holds j → i = j
  /-- It is the one that the mutex belongs to. -/
  owner : ∀ i, s.owner = some i ↔ s.Holds i
  /-- No thread locks more than once, or unlocks more often than it locked. -/
  once : ∀ i th, s.thread i = some th → th.unlocks ≤ th.locks ∧ th.locks ≤ 1
  /-- Only the thread that locked the mutex can unlock it. -/
  unlock : ∀ i e s', e.mutexOp = .release → s.step charDevice (.call i e) = some s' → s.Holds i
  /-- A thread that has returned has unlocked as often as it locked. -/
  returned : ∀ i th, s.thread i = some th → th.task.returned = true → th.unlocks = th.locks
  /-- When all threads have returned the mutex is free. -/
  free : (∀ i th, s.thread i = some th → th.task.returned = true) → s.owner = none

/-- The call is neither a lock that fails in a handler nor an `fopen` that fails in the callback of
the timer. -/
def TaskEvent.Good : TaskEvent → Prop
  | .handler (.lock res) => res = 0
  | .timer (.fopen ok) => ok = true
  | _ => True

/-- No step of the scheduler is such a call. -/
def Threads.Good (_ : Threads) : Act → Prop
  | .call _ e => e.Good
  | _ => True

instance (e : TaskEvent) : Decidable e.Good := by
  unfold TaskEvent.Good
  split <;> infer_instance

instance (s : Threads) (a : Act) : Decidable (s.Good a) := by
  unfold Threads.Good
  split <;> infer_instance

/-- A handler whose lock fails frees the mutex that another one holds, and a third one gets it; a
callback that cannot open the file returns with the mutex locked. -/
theorem file_mutex_undisciplined :
    (∃ t s, (threads true).Trace Machine.free Threads.init t s ∧ s.Holds 0 ∧ s.Holds 2) ∧
    (∃ t s, (threads false).Trace Machine.free Threads.init t s ∧
      s.thread 0 = some ⟨.timer .done, 1, 0⟩ ∧ s.owner = some 0) := by
  constructor
  · have hrun : ((threads true).run Threads.init
        [.accept 0, .accept 1, .accept 2, .call 0 (.handler (.lock 0)),
          .call 1 (.handler (.lock 22)), .call 1 (.handler .unlock),
          .call 2 (.handler (.lock 0))]).map (fun p => (p.1.thread 0, p.1.thread 2))
        = some (some ⟨.handler .opening, 1, 0⟩, some ⟨.handler .opening, 1, 0⟩) := by decide
    obtain ⟨⟨s, os⟩, hrun, hthreads⟩ := Option.map_eq_some_iff.1 hrun
    obtain ⟨h₀, h₂⟩ := Prod.mk.inj hthreads
    exact ⟨_, s, Machine.trace_of_run hrun (Machine.passes_free _ _), ⟨_, h₀, one_pos⟩,
      ⟨_, h₂, one_pos⟩⟩
  · have hrun : ((threads false).run Threads.init
        [.expire 0, .call 0 (.timer (.time true)), .call 0 (.timer (.malloc true)),
          .call 0 (.timer (.localtimeR true)), .call 0 (.timer (.strftime true)),
          .call 0 (.timer (.lock 0)), .call 0 (.timer (.fopen false)),
          .call 0 (.timer .free)]).map (fun p => (p.1.thread 0, p.1.owner))
        = some (some ⟨.timer .done, 1, 0⟩, some 0) := by decide
    obtain ⟨⟨s, os⟩, hrun, hend⟩ := Option.map_eq_some_iff.1 hrun
    obtain ⟨hthread, howner⟩ := Prod.mk.inj hend
    exact ⟨_, s, Machine.trace_of_run hrun (Machine.passes_free _ _), hthread, howner⟩

/-! ### Where a thread is -/

/-- Before the lock, between lock and unlock, or after the unlock. -/
inductive Phase where
  | before
  | inside
  | after
  deriving DecidableEq

def Pc.phase : Pc → Phase
  | .locking => .before
  | .closingClient | .clearing | .completing | .done => .after
  | _ => .inside

def TimerPc.phase : TimerPc → Phase
  | .gettingTime | .allocating | .converting | .formatting | .locking => .before
  | .freeing | .done => .after
  | _ => .inside

def Task.phase : Task → Phase
  | .handler pc => pc.phase
  | .timer pc => pc.phase

/-- What a call that does `op` does to the phase of its thread. -/
def MutexOp.moves : MutexOp → Phase → Phase → Prop
  | .acquire, p, p' => p = .before ∧ p' = .inside
  | .release, p, p' => p = .inside ∧ p' = .after
  | .idle, p, p' => p' = p ∨ (p = .before ∧ p' = .after)

theorem afterChunk_phase (charDevice : Bool) (buffer : List UInt8) (n : ℕ) :
    (afterChunk charDevice buffer n).phase = .inside := by
  unfold afterChunk
  split
  · split <;> rfl
  · rfl

theorem afterRecv_phase (charDevice : Bool) (bytes : List UInt8) :
    (afterRecv charDevice bytes).phase = .inside := by
  unfold afterRecv
  split
  · split <;> rfl
  · rfl

/-- **What a call of a handler does**, when no lock fails. -/
theorem Pc.next_phase {charDevice : Bool} {pc pc' : Pc} {e : Event}
    (h : pc.next charDevice e = some pc') (hgood : (TaskEvent.handler e).Good) :
    (TaskEvent.handler e).mutexOp.moves pc.phase pc'.phase := by
  cases Pc.next_moves h with
  | lock res =>
      obtain rfl := hgood
      exact ⟨rfl, rfl⟩
  | unlock => exact ⟨rfl, rfl⟩
  | chunk bytes => exact Or.inl (afterRecv_phase ..)
  | ioctl | fwrite => exact Or.inl (afterChunk_phase ..)
  | fopen | fseek | fread | send => split <;> exact Or.inl rfl
  | closed | fclose | close | clear | complete | flush | fill => exact Or.inl rfl

/-- **What a call of the callback does**, when `fopen` does not fail. -/
theorem TimerPc.next_phase {pc pc' : TimerPc} {e : TimerEvent} (h : pc.next e = some pc')
    (hgood : (TaskEvent.timer e).Good) :
    (TaskEvent.timer e).mutexOp.moves pc.phase pc'.phase := by
  unfold TimerPc.next at h
  split at h
  · cases h
    split
    · exact Or.inl rfl
    · exact Or.inr ⟨rfl, rfl⟩
  · cases h
    split
    · exact Or.inl rfl
    · exact Or.inr ⟨rfl, rfl⟩
  · cases h
    split
    · exact Or.inl rfl
    · exact Or.inr ⟨rfl, rfl⟩
  · cases h
    split
    · exact Or.inl rfl
    · exact Or.inr ⟨rfl, rfl⟩
  · -- lock
    next res =>
      cases h
      by_cases hres : res = 0
      · subst hres
        exact ⟨rfl, rfl⟩
      · rw [TaskEvent.mutexOp, if_neg hres, if_pos hres]
        exact Or.inr ⟨rfl, rfl⟩
  · obtain rfl := hgood
    cases h
    exact Or.inl rfl
  · cases h
    exact Or.inl rfl
  · cases h
    exact Or.inl rfl
  · cases h
    exact ⟨rfl, rfl⟩
  · cases h
    exact Or.inl rfl
  · cases h

theorem Task.next_phase {charDevice : Bool} {task task' : Task} {e : TaskEvent}
    (h : task.next charDevice e = some task') (hgood : e.Good) :
    e.mutexOp.moves task.phase task'.phase := by
  cases task with
  | handler pc =>
      cases e with
      | handler e =>
          obtain ⟨pc', hpc, rfl⟩ := Option.map_eq_some_iff.1 h
          exact Pc.next_phase hpc hgood
      | timer e => cases h
  | timer pc =>
      cases e with
      | handler e => cases h
      | timer e =>
          obtain ⟨pc', hpc, rfl⟩ := Option.map_eq_some_iff.1 h
          exact TimerPc.next_phase hpc hgood

/-! ### The invariant -/

/-- The counters of a thread agree with the place where it is. -/
def Thread.Counted (th : Thread) : Prop :=
  match th.task.phase with
  | .before => th.locks = 0 ∧ th.unlocks = 0
  | .inside => th.locks = 1 ∧ th.unlocks = 0
  | .after => th.unlocks = th.locks ∧ th.locks ≤ 1

/-- **The invariant**: the counters are right, and the mutex belongs to the thread that is
inside. -/
structure Threads.Inv (s : Threads) : Prop where
  counted : ∀ i th, s.thread i = some th → th.Counted
  owned : ∀ i th, s.thread i = some th → (s.owner = some i ↔ th.task.phase = .inside)
  live : ∀ i, s.owner = some i → s.thread i ≠ none

theorem Threads.Inv.init : Threads.init.Inv := ⟨fun _ _ => nofun, fun _ _ => nofun, fun _ => nofun⟩

/-- What has to be checked when one thread changes. -/
theorem Threads.Inv.put {s : Threads} (h : s.Inv) {i : ℕ} {o : Option ℕ} {th : Thread}
    (hcounted : th.Counted) (howned : o = some i ↔ th.task.phase = .inside)
    (hothers : ∀ j, j ≠ i → (o = some j ↔ s.owner = some j)) :
    (s.put o i th).Inv := by
  refine ⟨?_, ?_, ?_⟩
  · intro j th' hj
    by_cases hji : j = i
    · rw [hji, Threads.put_self] at hj
      exact Option.some.inj hj ▸ hcounted
    · rw [Threads.put_of_ne s o th hji] at hj
      exact h.counted j th' hj
  · intro j th' hj
    by_cases hji : j = i
    · rw [hji, Threads.put_self] at hj
      rw [hji]
      exact Option.some.inj hj ▸ howned
    · rw [Threads.put_of_ne s o th hji] at hj
      exact (hothers j hji).trans (h.owned j th' hj)
  · intro j hj
    by_cases hji : j = i
    · rw [hji, Threads.put_self]
      exact nofun
    · rw [Threads.put_of_ne s o th hji]
      exact h.live j ((hothers j hji).1 hj)

theorem Threads.Inv.spawn {s s' : Threads} (h : s.Inv) {i : ℕ} {task : Task}
    (hphase : task.phase = .before) (hs : s.spawn i task = some s') : s'.Inv := by
  unfold Threads.spawn at hs
  split at hs
  · next hnone =>
      cases hs
      refine h.put ?_ ?_ fun j _ => Iff.rfl
      · unfold Thread.Counted
        simp only [hphase, and_self]
      · rw [hphase]
        exact iff_of_false (fun howner => h.live i howner hnone) nofun
  · cases hs

/-- A call that a thread makes keeps the invariant. -/
theorem Threads.Inv.goOn {s s' : Threads} (h : s.Inv) {i : ℕ} {th : Thread} {task : Task}
    {op : MutexOp} (hth : s.thread i = some th) (hmoves : op.moves th.task.phase task.phase)
    (hs : s.goOn i th task op = some s') : s'.Inv := by
  have hcount := h.counted i th hth
  have howned := h.owned i th hth
  unfold Thread.Counted at hcount
  cases op with
  | idle =>
      cases hs
      refine h.put ?_ ?_ fun j _ => Iff.rfl
      · unfold Thread.Counted
        rcases hmoves with hsame | ⟨hbefore, hafter⟩
        · simpa only [hsame] using hcount
        · simp only [hbefore] at hcount
          simp [hafter, hcount.1, hcount.2]
      · rw [howned]
        rcases hmoves with hsame | ⟨hbefore, hafter⟩
        · simp only [hsame]
        · simp only [hbefore, hafter, reduceCtorEq]
  | acquire =>
      obtain ⟨hbefore, hinside⟩ := hmoves
      simp only [Threads.goOn] at hs
      split at hs
      · next hfree =>
          cases hs
          simp only [hbefore] at hcount
          refine h.put ?_ (iff_of_true rfl hinside) ?_
          · unfold Thread.Counted
            simp [hinside, hcount.1, hcount.2]
          · intro j hj
            rw [hfree]
            exact iff_of_false (fun heq => hj (Option.some.inj heq).symm) nofun
      · cases hs
  | release =>
      obtain ⟨hinside, hafter⟩ := hmoves
      cases hs
      simp only [hinside] at hcount
      refine h.put ?_ ?_ ?_
      · unfold Thread.Counted
        simp [hafter, hcount.1, hcount.2]
      · rw [hafter]
        exact iff_of_false nofun nofun
      · intro j hj
        rw [howned.2 hinside]
        exact iff_of_false nofun fun heq => hj (Option.some.inj heq).symm

/-- **A step of the scheduler keeps the invariant.** -/
theorem Threads.Inv.step {charDevice : Bool} {s s' : Threads} {a : Act} (h : s.Inv)
    (hgood : s.Good a) (hstep : s.step charDevice a = some s') : s'.Inv := by
  cases a with
  | accept i => exact h.spawn rfl hstep
  | expire i =>
      simp only [Threads.step] at hstep
      split at hstep
      · cases hstep
      · exact h.spawn rfl hstep
  | call i e =>
      simp only [Threads.step] at hstep
      split at hstep
      · cases hstep
      next th hth =>
        split at hstep
        · cases hstep
        next task htask => exact h.goOn hth (Task.next_phase htask hgood) hstep

theorem Threads.Inv.holds_iff {s : Threads} (h : s.Inv) (i : ℕ) :
    s.owner = some i ↔ s.Holds i := by
  constructor
  · intro howner
    obtain ⟨th, hth⟩ := Option.ne_none_iff_exists'.1 (h.live i howner)
    have hcount := h.counted i th hth
    unfold Thread.Counted at hcount
    simp only [(h.owned i th hth).1 howner] at hcount
    exact ⟨th, hth, by omega⟩
  · rintro ⟨th, hth, hlt⟩
    have hcount := h.counted i th hth
    unfold Thread.Counted at hcount
    rw [h.owned i th hth]
    cases hphase : th.task.phase with
    | before => simp only [hphase] at hcount; omega
    | inside => rfl
    | after => simp only [hphase] at hcount; omega

theorem Task.phase_of_returned {task : Task} (h : task.returned = true) : task.phase = .after := by
  unfold Task.returned at h
  split at h
  · rfl
  · rfl
  · cases h

/-- **The invariant is the discipline.** -/
theorem Threads.Inv.disciplined {s : Threads} (h : s.Inv) (charDevice : Bool) :
    s.Disciplined charDevice where
  exclusive := by
    intro i j hi hj
    have hi' := (h.holds_iff i).2 hi
    have hj' := (h.holds_iff j).2 hj
    exact Option.some.inj (hi'.symm.trans hj')
  owner := h.holds_iff
  once := by
    intro i th hth
    have hcount := h.counted i th hth
    unfold Thread.Counted at hcount
    split at hcount <;> omega
  unlock := by
    intro i e s' hop hstep
    simp only [Threads.step] at hstep
    split at hstep
    · cases hstep
    next th hth =>
      split at hstep
      · cases hstep
      next task htask =>
        -- an unlock is not one of the two failures
        have hgood : e.Good := by
          unfold TaskEvent.mutexOp at hop
          split at hop
          · split at hop <;> cases hop
          · split at hop <;> cases hop
          · trivial
          · trivial
          · cases hop
        have hmoves := Task.next_phase htask hgood
        rw [hop] at hmoves
        exact (h.holds_iff i).1 ((h.owned i th hth).2 hmoves.1)
  returned := by
    intro i th hth hret
    have hcount := h.counted i th hth
    unfold Thread.Counted at hcount
    simp only [Task.phase_of_returned hret] at hcount
    exact hcount.1
  free := by
    intro hall
    cases howner : s.owner with
    | none => rfl
    | some i =>
        obtain ⟨th, hth⟩ := Option.ne_none_iff_exists'.1 (h.live i howner)
        have hinside := (h.owned i th hth).1 howner
        rw [Task.phase_of_returned (hall i th hth)] at hinside
        cases hinside

/-- **The mutex is used with discipline** in every run in which no lock of a handler and no `fopen`
of the timer's callback fails: whatever else fails, and in any order of the threads' steps. -/
theorem file_mutex_disciplined {charDevice : Bool} {t : List (Act × Unit)} {s : Threads}
    (h : (threads charDevice).Trace Threads.Good Threads.init t s) : s.Disciplined charDevice := by
  have hinv : s.Inv := h.invariant Threads.Inv.init fun s a s' o hinv hgood hstep => by
    obtain ⟨s₁, hs₁, heq⟩ := Option.map_eq_some_iff.1 hstep
    obtain ⟨rfl, -⟩ := Prod.mk.inj heq
    exact hinv.step hgood hs₁
  exact hinv.disciplined charDevice

/-- Two handlers, one after the other; the first one's connection fails. -/
theorem file_mutex_disciplined_two_handlers :
    ∃ s : Threads, s.owner = some 1 ∧ s.Disciplined true := by
  have howner : ((threads true).run Threads.init
      [.accept 0, .accept 1, .call 0 (.handler (.lock 0)), .call 0 (.handler (.fopen true)),
        .call 0 (.handler (.recv .failed)), .call 0 (.handler .fclose),
        .call 0 (.handler .unlock), .call 1 (.handler (.lock 0))]).map (fun p => p.1.owner)
      = some (some 1) := by decide
  obtain ⟨⟨s, os⟩, hrun, howner⟩ := Option.map_eq_some_iff.1 howner
  exact ⟨s, howner, file_mutex_disciplined (Machine.trace_of_run hrun (by decide))⟩

end Aesd
