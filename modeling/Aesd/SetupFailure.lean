/-
**When setting up a connection fails.**

Between `accept` and the queue there are four calls that can fail, and behind the end of the loop
four labels that undo what was done before: each undoes one call and runs into the next.  Meanwhile
the handlers of other connections go on, and, when it is the queue that refuses the connection, so
does the handler of this one.

The labels are right for the two calls whose failure they meet before a thread runs and behind a
test.  The thread instance is cleared before it is compared with `NULL`; and the thread that the
queue refuses is cancelled but not joined, so that its data is freed and its descriptor is closed
while it runs, or closed again if it has already returned.

* `SetupCall`, `Process.Restores` — the four failures, and what undoing one of them means;
* `Process.Setup` — what a connection has at each of the four calls, in any run;
* `Process.Undoing` — what it still has on the way through the labels;
* `setup_failure_restores_iff` — **which failures are undone.**
-/

import Aesd.MainThread

set_option relaxedAutoImplicit false
set_option autoImplicit false

namespace Aesd

/-! ### Failures -/

/-- A call that can fail while a connection is set up. -/
inductive SetupCall where
  | threadData
  | threadInstance
  | pthreadCreate
  | queueEnqueue
  deriving DecidableEq

/-- Where the main thread makes the call. -/
def SetupCall.pc : SetupCall → ℕ → MainPc
  | .threadData, i => .allocatingData i
  | .threadInstance, i => .allocatingInstance i
  | .pthreadCreate, i => .creating i
  | .queueEnqueue, i => .enqueueing i

/-- The call, when it fails. -/
def SetupCall.failure : SetupCall → MainEvent
  | .threadData | .threadInstance => .malloc false
  | .pthreadCreate => .pthreadCreate false
  | .queueEnqueue => .queueEnqueue false

/-- A null pointer is written through, or it is connection `i` that what must not happen happens
to. -/
def Misuse.Concerns (i : ℕ) : Misuse → Prop
  | .nullPointer => True
  | .data j | .descriptor j | .threadInstance j | .thread j => j = i

/-- What the main thread keeps of a connection, besides the descriptor. -/
def Client.kept (c : Client) : Bool × Bool × Bool × Bool :=
  (c.dataLive, c.instanceLive, c.joined, c.cancelled)

/-- **The server is as it was** before connection `i` was accepted, in state `s`. -/
structure Process.Restored (s : Process) (i : ℕ) (s' : Process) : Prop where
  queue : s'.queue = s.queue
  /-- Everything that belonged to the connection was released. -/
  client : ∃ c, s'.client i = some c ∧ c.fdOpen = false ∧ c.dataLive = false ∧
    c.instanceLive = false
  /-- No handler of it is at work. -/
  handler : ∀ pc c, s'.threads.pc i = some pc → s'.client i = some c → pc = .done ∨ c.ended = true
  /-- The mutex does not belong to a handler of it that has ended. -/
  mutex : ∀ c, s'.client i = some c → c.ended = true → s'.threads.owner ≠ some i
  /-- The other connections have what they had. -/
  others : ∀ j, j ≠ i → (s'.client j).map Client.kept = (s.client j).map Client.kept

/-- The main thread has not come back to the head of its loop. -/
def Process.InLoop (s : Process) (_ : ProcessAct) : Prop := s.main ≠ .testing

/-- The step is one of the main thread, which has not come back yet. -/
def Process.MainOnly (s : Process) (a : ProcessAct) : Prop := s.main ≠ .testing ∧ ∃ e, a = .main e

/-- **The failure is undone**: whatever the handlers do meanwhile, nothing happens to the connection
that must not, the main thread can come back to the head of its loop, and when it does the server is
as it was. -/
def Process.Restores (s : Process) (f : SetupCall) (i : ℕ) : Prop :=
  ∀ s₁ o, s.mainStep f.failure = some (s₁, o) → (∀ m ∈ o, ¬ m.Concerns i) ∧
    ∀ t s', process.Trace Process.InLoop s₁ t s' →
      (∀ p ∈ t, ∀ m ∈ p.2, ¬ m.Concerns i) ∧
      (s'.main = .testing → s.Restored i s') ∧
      ∃ s'', process.Reach Process.MainOnly s' s'' ∧ s''.main = .testing

/-! ### What a connection has at the calls that can fail -/

variable {s s' s₀ : Process} {i : ℕ} {a : ProcessAct} {o : List Misuse}

/-- What there is of the connection that is set up. -/
def Process.Setup (s : Process) : Prop :=
  match s.main with
  | .allocatingData i => s.threads.thread i = none ∧ s.client i = some .accepted
  | .allocatingInstance i =>
      s.threads.thread i = none ∧ s.client i = some { Client.serving with instanceLive := false }
  | .creating i => s.threads.thread i = none ∧ s.client i = some .serving
  | .enqueueing i => ∃ pc, s.Serves i pc
  | _ => True

theorem kept_update {client : ℕ → Option Client} {j : ℕ} {c c' : Client} (hc : client j = some c)
    (hkept : c'.kept = c.kept) (k : ℕ) :
    (Function.update client j (some c') k).map Client.kept = (client k).map Client.kept := by
  by_cases hk : k = j
  · subst hk
    rw [Function.update_self, hc, Option.map_some, Option.map_some, hkept]
  · rw [Function.update_of_ne hk]

/-- What the end of a cancelled handler does. -/
theorem Process.endStep_cases (h : s.endStep i = some (s', o)) :
    ∃ c pc, s.client i = some c ∧ s.threads.pc i = some pc ∧ c.cancelled = true ∧
      s' = { s with client := Function.update s.client i (some { c with ended := true }) } ∧
      o = [] := by
  simp only [Process.endStep, Option.bind_eq_bind, Option.bind_eq_some_iff] at h
  obtain ⟨c, hc, pc, hpc, h⟩ := h
  split at h
  · next hend =>
      cases h
      exact ⟨c, pc, hc, hpc, hend.1, rfl, rfl⟩
  · cases h

/-- Only the main thread goes on in its program and changes the queue. -/
theorem Process.step_others (h : s.step a = some (s', o)) (ha : ∀ e, a ≠ .main e) :
    s'.main = s.main ∧ s'.queue = s.queue := by
  cases a with
  | main e => exact absurd rfl (ha e)
  | signal =>
      cases h
      exact ⟨rfl, rfl⟩
  | handler j e =>
      obtain ⟨c, threads, pc, pc', -, -, -, rfl, -⟩ := Process.handlerStep_cases h
      exact ⟨rfl, rfl⟩
  | cancelled j =>
      obtain ⟨c, pc, -, -, -, rfl, -⟩ := Process.endStep_cases h
      exact ⟨rfl, rfl⟩

/-- What a step of another thread means for a connection that has no handler. -/
theorem Process.untouched (h : s.step a = some (s', o)) (ha : ∀ e, a ≠ .main e)
    (hi : s.threads.thread i = none) :
    s'.threads.thread i = none ∧ s'.client i = s.client i ∧ (∀ m ∈ o, ¬ m.Concerns i) ∧
      ∀ j, (s'.client j).map Client.kept = (s.client j).map Client.kept := by
  have hpc := Threads.pc_eq_none hi
  cases a with
  | main e => exact absurd rfl (ha e)
  | signal =>
      cases h
      exact ⟨hi, rfl, fun m hm => absurd hm List.not_mem_nil, fun _ => rfl⟩
  | handler j e =>
      obtain ⟨c, threads, pc, pc', hc, -, hcalls, rfl, rfl⟩ := Process.handlerStep_cases h
      have hij : i ≠ j := by
        rintro rfl
        have hhere := hcalls.here
        rw [hpc] at hhere
        cases hhere
      refine ⟨(hcalls.others i hij).trans hi, Function.update_of_ne hij .., ?_,
        kept_update hc (by cases e <;> rfl)⟩
      · intro m hm hconcerns
        have hm' : m = .data j ∨ m = .descriptor j := by
          rw [Client.misuse, List.mem_append] at hm
          unfold check at hm
          rcases hm with hm | hm
          · split at hm
            · cases hm
            · exact Or.inl (List.mem_singleton.1 hm)
          · split at hm
            · cases hm
            · exact Or.inr (List.mem_singleton.1 hm)
        rcases hm' with rfl | rfl <;> exact hij hconcerns.symm
  | cancelled j =>
      obtain ⟨c, pc, hc, hpcj, -, rfl, rfl⟩ := Process.endStep_cases h
      have hij : i ≠ j := by
        rintro rfl
        rw [hpc] at hpcj
        cases hpcj
      exact ⟨hi, Function.update_of_ne hij .., fun m hm => absurd hm List.not_mem_nil,
        kept_update hc rfl⟩

/-- A connection that has a handler and all that needs keeps it in the steps of other threads. -/
theorem Process.Serves.step {pc : Pc} (hs : s.Serves i pc) (h : s.step a = some (s', o))
    (ha : ∀ e, a ≠ .main e) : ∃ pc', s'.Serves i pc' := by
  cases a with
  | main e => exact absurd rfl (ha e)
  | signal =>
      cases h
      exact ⟨pc, hs⟩
  | handler j e =>
      obtain ⟨c, threads, pc₁, pc', hc, -, hcalls, rfl, rfl⟩ := Process.handlerStep_cases h
      by_cases hij : i = j
      · subst hij
        obtain rfl := Option.some.inj (hs.1.symm.trans hcalls.here)
        obtain rfl := Option.some.inj (hc.symm.trans hs.2)
        refine ⟨pc', hcalls.there, ?_⟩
        rw [(Client.running_step hcalls.next i).1]
        exact Function.update_self ..
      · exact ⟨pc, (Threads.pc_congr (hcalls.others i hij)).trans hs.1,
          (Function.update_of_ne hij ..).trans hs.2⟩
  | cancelled j =>
      obtain ⟨c, pc₁, hc, -, hcancelled, rfl, rfl⟩ := Process.endStep_cases h
      have hij : i ≠ j := by
        rintro rfl
        obtain rfl := Option.some.inj (hc.symm.trans hs.2)
        rw [Client.running_cancelled] at hcancelled
        cases hcancelled
      exact ⟨pc, hs.1, (Function.update_of_ne hij ..).trans hs.2⟩

theorem Process.Setup.mainStep {e : MainEvent} (h : s.Setup)
    (hstep : s.mainStep e = some (s', o)) : s'.Setup := by
  unfold Process.Setup at h
  cases Process.mainStep_moves hstep with
  | accepted i hmain hclient hthread => exact ⟨hthread, Function.update_self ..⟩
  | dataAllocated i c hmain hc | instanceAllocated i c hmain hc =>
      simp only [hmain] at h
      obtain rfl := Option.some.inj (hc.symm.trans h.2)
      exact ⟨h.1, Function.update_self ..⟩
  | created i threads hmain hthreads =>
      simp only [hmain] at h
      exact ⟨.locking, (Threads.step_accept hthreads).2.1, h.2⟩
  -- no connection is being set up behind the other calls
  | test hmain =>
      unfold Process.Setup
      cases s.isActive <;> trivial
  | checked i nodes c hmain hc =>
      unfold Process.Setup
      cases c.threadCompleted <;> trivial
  | join i rest c hmain hc _ => cases rest <;> trivial
  | freeInstance i rest c hmain hc => cases rest <;> trivial
  | interrupted | dataFailed | instanceFailed | createFailed | enqueued | enqueueFailed | passEnds
  | close | closed | freeData | remove | kill | undoInstance | undoData | undoClient | returned
  | dequeue => trivial

/-- **What a connection has at the calls that can fail**, in every run. -/
theorem Process.Setup.of_reach (h : process.Reach Machine.free Process.init s) : s.Setup := by
  refine h.invariant (I := Process.Setup) trivial ?_
  intro s a s' o hsetup _ hstep
  by_cases ha : ∃ e, a = .main e
  · obtain ⟨e, rfl⟩ := ha
    exact hsetup.mainStep hstep
  · have ha' : ∀ e, a ≠ .main e := fun e he => ha ⟨e, he⟩
    obtain ⟨hmain, -⟩ := Process.step_others hstep ha'
    unfold Process.Setup at hsetup ⊢
    rw [hmain]
    cases hpc : s.main <;> simp only [hpc] at hsetup ⊢
    case allocatingData i | allocatingInstance i | creating i =>
      obtain ⟨hthread, hclient, -, -⟩ := Process.untouched hstep ha' hsetup.1
      exact ⟨hthread, hclient.trans hsetup.2⟩
    case enqueueing i =>
      obtain ⟨pc, hserves⟩ := hsetup
      exact hserves.step hstep ha'

/-! ### Through the labels -/

/-- What is still to be released at the labels behind the loop. -/
def MainPc.remaining (i : ℕ) : MainPc → Client → Prop
  | .freeThreadInstance j, c =>
      j = i ∧ c.fdOpen = true ∧ c.dataLive = true ∧ c.instanceLive = true
  | .freeThreadData j, c => j = i ∧ c.fdOpen = true ∧ c.dataLive = true ∧ c.instanceLive = false
  | .closeClient j, c => j = i ∧ c.fdOpen = true ∧ c.dataLive = false ∧ c.instanceLive = false
  | .testing, c => c.fdOpen = false ∧ c.dataLive = false ∧ c.instanceLive = false
  | _, _ => False

/-- **On the way through the labels**, for a connection without handler; `s₀` is the state
before. -/
structure Process.Undoing (s₀ : Process) (i : ℕ) (s : Process) : Prop where
  thread : s.threads.thread i = none
  queue : s.queue = s₀.queue
  others : ∀ j, j ≠ i → (s.client j).map Client.kept = (s₀.client j).map Client.kept
  client : ∃ c, s.client i = some c ∧ c.ended = false ∧ s.main.remaining i c

/-- The labels that are still to come. -/
def MainPc.labels : MainPc → ℕ
  | .freeThreadInstance _ => 3
  | .freeThreadData _ => 2
  | .closeClient _ => 1
  | _ => 0

theorem Process.Undoing.goto (h : s₀.Undoing i s) {pc : MainPc} {c : Client}
    (hended : c.ended = false) (hremaining : pc.remaining i c) : s₀.Undoing i (s.goto pc i c) where
  thread := h.thread
  queue := h.queue
  others := fun j hj => by
    have hclient : (s.goto pc i c).client j = s.client j := Function.update_of_ne hj ..
    rw [hclient]
    exact h.others j hj
  client := ⟨c, Function.update_self .., hended, hremaining⟩

/-- A step of the main thread undoes one call. -/
theorem Process.Undoing.mainStep {e : MainEvent} (h : s₀.Undoing i s) (hloop : s.main ≠ .testing)
    (hstep : s.mainStep e = some (s', o)) :
    s₀.Undoing i s' ∧ o = [] ∧ s'.main.labels < s.main.labels := by
  obtain ⟨c, hc, hended, hremaining⟩ := h.client
  cases hmain : s.main <;> rw [hmain] at hremaining hloop <;>
    simp only [MainPc.remaining] at hremaining
  case testing => exact absurd rfl hloop
  case freeThreadInstance j =>
    obtain ⟨rfl, hfd, hdata, hinstance⟩ := hremaining
    cases e <;> simp only [Process.mainStep, hmain, reduceCtorEq] at hstep
    simp only [hc, hinstance, check_true, Option.bind_eq_bind, Option.bind_some] at hstep
    cases hstep
    exact ⟨h.goto hended ⟨rfl, hfd, hdata, rfl⟩, rfl, Nat.lt_succ_self _⟩
  case freeThreadData j =>
    obtain ⟨rfl, hfd, hdata, hinstance⟩ := hremaining
    cases e <;> simp only [Process.mainStep, hmain, reduceCtorEq] at hstep
    simp only [hc, hdata, check_true, Option.bind_eq_bind, Option.bind_some] at hstep
    cases hstep
    exact ⟨h.goto hended ⟨rfl, hfd, rfl, hinstance⟩, rfl, Nat.lt_succ_self _⟩
  case closeClient j =>
    obtain ⟨rfl, hfd, hdata, hinstance⟩ := hremaining
    cases e <;> simp only [Process.mainStep, hmain, reduceCtorEq] at hstep
    simp only [hc, hfd, check_true, Option.bind_eq_bind, Option.bind_some] at hstep
    cases hstep
    exact ⟨h.goto hended ⟨rfl, hdata, hinstance⟩, rfl, Nat.lt_succ_self _⟩

/-- **A step on the way through the labels**, of whatever thread. -/
theorem Process.Undoing.step (h : s₀.Undoing i s) (hloop : s.InLoop a)
    (hstep : s.step a = some (s', o)) : s₀.Undoing i s' ∧ ∀ m ∈ o, ¬ m.Concerns i := by
  by_cases ha : ∃ e, a = .main e
  · obtain ⟨e, rfl⟩ := ha
    obtain ⟨hundoing, rfl, -⟩ := h.mainStep hloop hstep
    exact ⟨hundoing, fun m hm => absurd hm List.not_mem_nil⟩
  · have ha' : ∀ e, a ≠ .main e := fun e he => ha ⟨e, he⟩
    obtain ⟨hmain, hqueue⟩ := Process.step_others hstep ha'
    obtain ⟨hthread, hclient, hclean, hkept⟩ := Process.untouched hstep ha' h.thread
    obtain ⟨c, hc, hended, hremaining⟩ := h.client
    refine ⟨⟨hthread, hqueue.trans h.queue, fun j hj => (hkept j).trans (h.others j hj), c, ?_,
      hended, ?_⟩, hclean⟩
    · rw [hclient, hc]
    · rwa [hmain]

/-- The main thread can come to the end of the labels. -/
theorem Process.Undoing.reach (h : s₀.Undoing i s) :
    ∃ s', process.Reach Process.MainOnly s s' ∧ s'.main = .testing := by
  have hdown : ∀ s a s' (o : List Misuse), s₀.Undoing i s → s.MainOnly a →
      process.step s a = some (s', o) → s₀.Undoing i s' ∧ s'.main.labels < s.main.labels := by
    rintro s a s' o hundoing ⟨hloop, e, rfl⟩ hstep
    obtain ⟨hundoing', -, hlt⟩ := hundoing.mainStep hloop hstep
    exact ⟨hundoing', hlt⟩
  have hprogress : ∀ s, s₀.Undoing i s → ¬ s.main = .testing →
      ∃ a s' o, s.MainOnly a ∧ process.step s a = some (s', o) := by
    intro s hundoing hloop
    obtain ⟨c, hc, -, hremaining⟩ := hundoing.client
    have hgo : ∃ p, s.mainStep .go = some p := by
      cases hmain : s.main <;> rw [hmain] at hremaining <;>
        simp only [MainPc.remaining] at hremaining
      case testing => exact absurd hmain hloop
      case freeThreadInstance j | freeThreadData j | closeClient j =>
        obtain ⟨rfl, -⟩ := hremaining
        simp only [Process.mainStep, hmain, hc, Option.bind_eq_bind, Option.bind_some]
        exact ⟨_, rfl⟩
    obtain ⟨⟨s', o⟩, hgo⟩ := hgo
    exact ⟨.main .go, s', o, ⟨hloop, .go, rfl⟩, hgo⟩
  obtain ⟨s', hreach, -, hend⟩ :=
    Machine.reach_final (fun s => s.main = .testing) h hdown hprogress
  exact ⟨s', hreach, hend⟩

/-- A failure that leads to one of the labels, and leaves what that label undoes, is undone. -/
theorem Process.Undoing.restores {f : SetupCall} (s₁ : Process)
    (hstep : s.mainStep f.failure = some (s₁, [])) (h : s.Undoing i s₁) : s.Restores f i := by
  intro s₂ o hs₂
  obtain ⟨rfl, rfl⟩ := Prod.mk.inj (Option.some.inj (hstep.symm.trans hs₂))
  refine ⟨fun m hm => absurd hm List.not_mem_nil, ?_⟩
  intro t s' ht
  have hrun : s.Undoing i s' ∧ ∀ p ∈ t, ∀ m ∈ p.2, ¬ m.Concerns i :=
    ht.invariant_outputs h fun _ _ _ _ hundoing hloop hstep => hundoing.step hloop hstep
  obtain ⟨hundoing, hclean⟩ := hrun
  refine ⟨hclean, ?_, hundoing.reach⟩
  intro hmain
  obtain ⟨c, hc, hended, hremaining⟩ := hundoing.client
  rw [hmain] at hremaining
  refine ⟨hundoing.queue, ⟨c, hc, hremaining⟩, ?_, ?_, hundoing.others⟩
  · intro pc _ hpc
    rw [Threads.pc_eq_none hundoing.thread] at hpc
    cases hpc
  · intro c' hc' hended'
    obtain rfl := Option.some.inj (hc.symm.trans hc')
    rw [hended] at hended'
    cases hended'

/-! ### Which failures are undone -/

/-- The way of the main thread through all four labels, while every handler stands still. -/
theorem Process.killThread_run {c : Client} (hmain : s.main = .killThread i)
    (hc : s.client i = some c) :
    ∃ t s', process.Trace Process.InLoop s t s' ∧ s'.main = .testing ∧ s'.threads = s.threads ∧
      s'.client i = some { c with
        cancelled := true, instanceLive := false, dataLive := false, fdOpen := false } ∧
      ∃ p ∈ t, p.2 = check c.fdOpen (.descriptor i) := by
  have hrun : process.run s [.main .go, .main .go, .main .go, .main .go]
      = some ({ s with
          main := .testing
          client := Function.update s.client i (some { c with
            cancelled := true, instanceLive := false, dataLive := false, fdOpen := false }) },
        [[], check c.instanceLive (.threadInstance i), check c.dataLive (.data i),
          check c.fdOpen (.descriptor i)]) := by
    simp [Machine.run, process, Process.step, Process.mainStep, Process.goto, hmain, hc]
  refine ⟨_, _, Machine.trace_of_run hrun ?_, rfl, rfl, Function.update_self ..,
    (.main .go, check c.fdOpen (.descriptor i)), by simp, rfl⟩
  simp [Machine.Passes, process, Process.step, Process.mainStep, Process.goto, Process.InLoop,
    hmain, hc]

/-- The thread instance is cleared before it is compared with `NULL`. -/
theorem Process.not_restores_threadInstance {c : Client} (hmain : s.main = .allocatingInstance i)
    (hc : s.client i = some c) : ¬ s.Restores .threadInstance i := by
  intro h
  have hstep : s.mainStep (.malloc false) = some ({ s with main := .crashed }, [.nullPointer]) := by
    simp [Process.mainStep, hmain, hc]
  exact (h _ _ hstep).1 .nullPointer (List.mem_singleton_self _) trivial

/-- The thread that the queue refuses is not joined. -/
theorem Process.not_restores_queueEnqueue {pc : Pc} (hmain : s.main = .enqueueing i)
    (hserves : s.Serves i pc) : ¬ s.Restores .queueEnqueue i := by
  intro h
  have hstep : s.mainStep (.queueEnqueue false) = some ({ s with main := .killThread i }, []) := by
    simp [Process.mainStep, hmain]
  obtain ⟨t, s', ht, hend, hthreads, hclient', p, hp, hmisuse⟩ :=
    Process.killThread_run (s := { s with main := .killThread i }) rfl hserves.2
  obtain ⟨hclean, hrestored, -⟩ := (h _ _ hstep).2 t s' ht
  have hpc' : s'.threads.pc i = some pc := by rw [hthreads, hserves.1]
  rcases (hrestored hend).handler pc _ hpc' hclient' with hdone | hended
  · -- it has returned: its descriptor is closed again
    rw [hdone] at hmisuse
    refine hclean p hp (.descriptor i) ?_ rfl
    rw [hmisuse]
    exact List.mem_singleton_self _
  · -- it is at work, on data that was freed
    rw [Client.running_ended] at hended
    cases hended

/-- **Which failures are undone**: in every state that the server reaches, whatever failed before
and whatever the handlers are doing, exactly those of the `malloc` of the thread data and of
`pthread_create`. -/
theorem setup_failure_restores_iff (hs : process.Reach Machine.free Process.init s) (f : SetupCall)
    (hmain : s.main = f.pc i) : s.Restores f i ↔ f = .threadData ∨ f = .pthreadCreate := by
  have hsetup := Process.Setup.of_reach hs
  unfold Process.Setup at hsetup
  rw [hmain] at hsetup
  cases f with
  | threadData =>
      obtain ⟨hthread, hclient⟩ := hsetup
      refine iff_of_true (Process.Undoing.restores { s with main := .closeClient i } ?_ ?_)
        (Or.inl rfl)
      · simp [SetupCall.failure, Process.mainStep, show s.main = .allocatingData i from hmain,
          hclient]
      · exact ⟨hthread, rfl, fun _ _ => rfl, .accepted, hclient, rfl, rfl, rfl, rfl, rfl⟩
  | pthreadCreate =>
      obtain ⟨hthread, hclient⟩ := hsetup
      refine iff_of_true
        (Process.Undoing.restores { s with main := .freeThreadInstance i } ?_ ?_)
        (Or.inr rfl)
      · simp [SetupCall.failure, Process.mainStep, show s.main = .creating i from hmain]
      · exact ⟨hthread, rfl, fun _ _ => rfl, .serving, hclient, rfl, rfl, rfl, rfl, rfl⟩
  | threadInstance =>
      exact iff_of_false (Process.not_restores_threadInstance hmain hsetup.2) (by simp)
  | queueEnqueue =>
      obtain ⟨pc, hserves⟩ := hsetup
      exact iff_of_false (Process.not_restores_queueEnqueue hmain hserves) (by simp)

/-- The creation of the first thread fails. -/
theorem setup_failure_restores_iff_first :
    ∃ s, process.Reach Machine.free Process.init s ∧ s.main = .creating 0 ∧
      s.Restores .pthreadCreate 0 := by
  have hrun : (process.run Process.init
      [.main .go, .main (.accept (some 0)), .main (.malloc true), .main (.malloc true)]).map
      (fun p => p.1.main) = some (.creating 0) := by decide
  obtain ⟨⟨s, os⟩, hrun, hmain⟩ := Option.map_eq_some_iff.1 hrun
  have hreach : process.Reach Machine.free Process.init s :=
    ⟨_, Machine.trace_of_run hrun (Machine.passes_free _ _)⟩
  exact ⟨s, hreach, hmain,
    (setup_failure_restores_iff hreach .pthreadCreate hmain).2 (Or.inr rfl)⟩

/-- There is no memory for a node of the queue, and the handler, which has the mutex and waits for
data, ends when it is cancelled. -/
def nodeRefused : List ProcessAct :=
  [.main .go, .main (.accept (some 0)), .main (.malloc true), .main (.malloc true),
    .main (.pthreadCreate true), .handler 0 (.lock 0), .handler 0 (.fopen true),
    .main (.queueEnqueue false), .main .go, .cancelled 0, .main .go, .main .go, .main .go]

/-- Without memory for the instance of the first thread a null pointer is written through; without
memory for its node the mutex stays locked by a handler that has ended. -/
theorem setup_failures_not_undone :
    (∃ s, process.Reach Machine.free Process.init s ∧ s.main = .allocatingInstance 0 ∧
      ¬ s.Restores .threadInstance 0) ∧
    (process.run Process.init nodeRefused).map (fun p =>
        (p.1.main, p.1.queue, p.1.threads.owner, (p.1.client 0).map Client.ended))
      = some (.testing, [], some 0, some true) := by
  refine ⟨?_, by decide⟩
  have hrun : (process.run Process.init
      [.main .go, .main (.accept (some 0)), .main (.malloc true)]).map
      (fun p => (p.1.main, (p.1.client 0).isSome)) = some (.allocatingInstance 0, true) := by decide
  obtain ⟨⟨s, os⟩, hrun, hend⟩ := Option.map_eq_some_iff.1 hrun
  obtain ⟨hmain, hsome⟩ := Prod.mk.inj hend
  obtain ⟨c, hc⟩ := Option.isSome_iff_exists.1 hsome
  exact ⟨s, ⟨_, Machine.trace_of_run hrun (Machine.passes_free _ _)⟩, hmain,
    Process.not_restores_threadInstance hmain hc⟩

end Aesd
