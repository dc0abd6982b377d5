/-
**The pass over the queue, behind every accepted connection.**

The pass looks at every instance in the queue, and releases those whose handler has set
`thread_completed`: it frees the thread data, joins the thread, takes the instance out of the queue
and frees it.  Handlers go on meanwhile, and may set `thread_completed` before the pass comes to
their instance, or behind it.

What the pass did is in the reports of its steps.  With each step that finds a handler completed,
`main` comes to owe four deeds, which it does in the steps that follow, `MainPc.owed`; and a visit
takes one connection from what is behind the cursor.  Both are kept account of over a whole run:
`history`.

* `history` — the connections with which `main` did something, in order;
* `MainPc.Calls`, `LinkedProcess.Moves.owed`, `LinkedProcess.Moves.queue` — the account of a step;
* `LinkedProcess.Recorded` — the account of a run of the accept loop: its queue has what was spawned
  and is not yet reaped;
* `LinkedProcess.Passed` — and that of a pass;
* `reap_pass_exact` — **the pass removes exactly the threads it finds completed.**
-/

import Aesd.AcceptLoop

set_option relaxedAutoImplicit false
set_option autoImplicit false

namespace Aesd

/-! ### What was done -/

/-- The connection with which a report says that `d` was done. -/
def Report.of (d : Deed) : Report → Option ℕ
  | .did d' i => if d' = d then some i else none
  | _ => none

/-- The connections with which `d` was done in a step. -/
def did (d : Deed) (o : List Report) : List ℕ := o.filterMap (Report.of d)

/-- The connections with which `d` was done in a run, in order. -/
def history (d : Deed) (t : List (LinkedAct × List Report)) : List ℕ := t.flatMap fun p => did d p.2

/-- The number of steps of `main` in a run. -/
def mainCalls (t : List (LinkedAct × List Report)) : ℕ := t.countP fun p => p.1.shown.ofMain

/-- The connections of `q` that are not in `d`, in their order. -/
def remaining (q d : List ℕ) : List ℕ := q.filter fun i => i ∉ d

@[simp] theorem did_nil (d : Deed) : did d [] = [] := rfl

@[simp] theorem did_append (d : Deed) (o o' : List Report) :
    did d (o ++ o') = did d o ++ did d o' := List.filterMap_append

@[simp] theorem did_misuses (d : Deed) (o : List Misuse) : did d (o.map .misuse) = [] := by
  induction o with
  | nil => rfl
  | cons m o ih => exact ih

theorem Client.did_visit (c : Client) (i : ℕ) (d : Deed) :
    did d (c.visit i) = match d with
      | .visit => [i]
      | .find => if c.threadCompleted then [i] else []
      | _ => [] := by
  rw [Client.visit, did_append, did_misuses, List.append_nil]
  cases d <;> cases c.threadCompleted <;> rfl

theorem history_snoc (d : Deed) (t : List (LinkedAct × List Report)) (a : LinkedAct)
    (o : List Report) : history d (t ++ [(a, o)]) = history d t ++ did d o := by
  rw [history, List.flatMap_append, List.flatMap_singleton, history]

@[simp] theorem remaining_nil (q : List ℕ) : remaining q [] = q := by
  simp [remaining]

theorem remaining_append (q d d' : List ℕ) :
    remaining q (d ++ d') = remaining (remaining q d) d' := by
  simp only [remaining, List.filter_filter, List.mem_append, not_or]
  refine List.filter_congr ?_
  intro i _
  rw [Bool.decide_and, Bool.and_comm]

/-- Removing one. -/
theorem remaining_singleton {q : List ℕ} (h : q.Nodup) (i : ℕ) : remaining q [i] = q.erase i := by
  rw [h.erase_eq_filter, remaining]
  refine List.filter_congr ?_
  intro j _
  by_cases hij : j = i
  · simp [hij]
  · simp [hij]

theorem mem_remaining {q d : List ℕ} {i : ℕ} : i ∈ remaining q d ↔ i ∈ q ∧ i ∉ d := by
  simp [remaining]

/-- What is new is not removed. -/
theorem remaining_concat {q d q' : List ℕ} (h : ∀ i ∈ q', i ∉ d) :
    remaining (q ++ q') d = remaining q d ++ q' := by
  have hnew : q'.filter (fun i => i ∉ d) = q' := List.filter_eq_self.2 (by simpa using h)
  rw [remaining, List.filter_append, hnew, remaining]

/-! ### A step of the accept loop -/

/-- The accept loop is not left. -/
def MainPc.inLoop : MainPc → Bool
  | .closing _ none | .freeingData _ none | .joining _ none | .freeingInstance _ none | .draining
  | .returned | .crashed => false
  | _ => true

/-- A step of the accept loop, in which nothing fails. -/
def LinkedProcess.Accepting (l : LinkedProcess) (a : LinkedAct) : Prop :=
  l.Fresh a ∧ l.bare.Allocates a.shown ∧ l.main.inLoop = true

instance (l : LinkedProcess) (a : LinkedAct) : Decidable (l.Accepting a) :=
  inferInstanceAs (Decidable (_ ∧ _))

/-- A step of the pass over the queue. -/
def LinkedProcess.Passing (l : LinkedProcess) (a : LinkedAct) : Prop :=
  l.Accepting a ∧ l.main.inPass = true

instance (l : LinkedProcess) (a : LinkedAct) : Decidable (l.Passing a) :=
  inferInstanceAs (Decidable (_ ∧ _))

theorem LinkedProcess.Accepting.orderly {l : LinkedProcess} {a : LinkedAct} (h : l.Accepting a) :
    l.Orderly a := by
  obtain ⟨hfresh, hallocates, hloop⟩ := h
  refine ⟨hfresh, hallocates, ?_⟩
  cases a with
  | main e | enqueue newNode =>
      simp only [Process.Waits, LinkedAct.shown, LinkedProcess.bare]
      split
      · next hmain =>
          rw [hmain] at hloop
          cases hloop
      · next hmain =>
          rw [hmain] at hloop
          cases hloop
      · trivial
  | _ => trivial

/-- Before a thread is there. -/
def MainPc.settingUp : MainPc → Bool
  | .testing | .accepting | .allocatingData _ | .allocatingInstance _ | .creating _ | .draining =>
      true
  | _ => false

/-- **The calls of `main` in the loop that are not on the queue**, by the control points, and what
is done. -/
inductive MainPc.Calls : MainPc → MainPc → List Report → Prop
  | setUp (pc pc' : MainPc) : pc.settingUp = true → pc'.settingUp = true → Calls pc pc' []
  | spawn (i : ℕ) : Calls (.creating i) (.enqueueing i) [.did .spawn i]
  | close (i : ℕ) (nodes : List ℕ) :
      Calls (.closing i (some nodes)) (.freeingData i (some nodes)) []
  | freeData (i : ℕ) (nodes : List ℕ) :
      Calls (.freeingData i (some nodes)) (.joining i (some nodes)) [.did .freeData i]
  | join (i : ℕ) (nodes : List ℕ) :
      Calls (.joining i (some nodes)) (.removing i nodes) [.did .join i]
  | freeInstance (i : ℕ) (nodes : List ℕ) :
      Calls (.freeingInstance i (some nodes)) (.checking nodes) [.did .freeInstance i]

/-- The steps of `main` outside the pass are those before a thread is there, and its creation; in
the pass they release a connection. -/
theorem Process.mainStep_calls {s s' : Process} {queue nodes : List ℕ} {e : MainEvent}
    {o : List Misuse} (hhere : (s.within queue nodes).Subject) (hallocates : s.Allocates (.main e))
    (hloop : s.main.inLoop = true) (hqueue : s.main.queueless = true)
    (hs : s.mainStep e = some (s', o)) : s.main.Calls s'.main (s.main.deeds e) := by
  cases Process.mainStep_moves hs with
  | test hmain =>
      rw [hmain]
      refine .setUp _ _ rfl ?_
      cases s.isActive <;> rfl
  | interrupted hmain | accepted i hmain | dataAllocated i c hmain | instanceAllocated i c hmain =>
      rw [hmain]
      exact .setUp _ _ rfl rfl
  | created i threads hmain =>
      rw [hmain]
      exact .spawn i
  | dataFailed | instanceFailed | createFailed => cases hallocates
  | enqueued i hmain | enqueueFailed i hmain | passEnds hmain | checked i nodes c hmain
  | remove i nodes hmain | returned hmain | dequeue i queue hmain =>
      rw [hmain] at hqueue
      cases hqueue
  | close i rest c hmain | closed i rest c hmain =>
      rw [hmain] at hloop ⊢
      cases rest with
      | none => cases hloop
      | some nodes => exact .close i nodes
  | freeData i rest c hmain =>
      rw [hmain] at hloop ⊢
      cases rest with
      | none => cases hloop
      | some nodes => exact .freeData i nodes
  | join i rest c hmain =>
      rw [hmain] at hloop ⊢
      cases rest with
      | none => cases hloop
      | some nodes => exact .join i nodes
  | freeInstance i rest c hmain =>
      rw [hmain] at hloop ⊢
      cases rest with
      | none => cases hloop
      | some nodes => exact .freeInstance i nodes
  -- the labels behind the loop are reached when something fails
  | kill i c hmain | undoInstance i c hmain | undoData i c hmain | undoClient i c hmain =>
      simp only [Process.Subject, Process.within, hmain, MainPc.before] at hhere

variable {l l' : LinkedProcess} {pre post pre' post' : List (ℕ × ℕ)} {a : LinkedAct}
  {o : List Report}

/-! ### What is owed -/

/-- The deed with which `main` comes to owe this one. -/
def Deed.cause : Deed → Option Deed
  | .enqueue => some .spawn
  | .freeData | .join | .dequeue | .freeInstance => some .find
  | _ => none

/-- The connections with which `main` is still to do this. -/
def MainPc.owed : MainPc → Deed → List ℕ
  | .enqueueing i, .enqueue
  | .closing i _, .freeData | .closing i _, .join | .closing i _, .dequeue
  | .closing i _, .freeInstance
  | .freeingData i _, .freeData | .freeingData i _, .join | .freeingData i _, .dequeue
  | .freeingData i _, .freeInstance
  | .joining i _, .join | .joining i _, .dequeue | .joining i _, .freeInstance
  | .removing i _, .dequeue | .removing i _, .freeInstance
  | .freeingInstance i _, .freeInstance => [i]
  | _, _ => []

theorem MainPc.owed_of_settingUp {pc : MainPc} (h : pc.settingUp = true) (d : Deed) :
    pc.owed d = [] := by
  cases pc <;> first | rfl | cases h

/-- **What comes to be owed is done later.** -/
theorem MainPc.Calls.owed {pc pc' : MainPc} (h : pc.Calls pc' o) {d c : Deed}
    (hcause : d.cause = some c) : pc.owed d ++ did c o = did d o ++ pc'.owed d := by
  cases h with
  | setUp _ _ hpc hpc' =>
      rw [MainPc.owed_of_settingUp hpc, MainPc.owed_of_settingUp hpc']
      rfl
  | _ => cases d <;> cases hcause <;> rfl

theorem LinkedProcess.Moves.owed (h : l.Moves pre post a l' pre' post' o)
    (hinv : (l.shown pre post).Inv) (hok : l.Accepting a) {d c : Deed} (hcause : d.cause = some c) :
    l.main.owed d ++ did c o = did d o ++ l'.main.owed d := by
  cases h with
  | call e s o' hqueue hs =>
      rw [did_append, did_append, did_misuses, did_misuses, List.append_nil, List.append_nil]
      exact (Process.mainStep_calls hinv.here hok.2.1 hok.2.2 hqueue hs).owed hcause
  | other _ s o' hother hs =>
      have hmain : s.main = l.main := (Process.step_other hother hs).1
      rw [did_misuses, did_misuses, List.append_nil, List.nil_append]
      exact congrArg (MainPc.owed · d) hmain.symm
  | enqueued i a queue hmain =>
      rw [hmain]
      cases d <;> cases hcause <;> rfl
  | enqueueFailed i hmain => cases hok.2.1
  | passEnds nodes hmain =>
      rw [hmain]
      cases d <;> cases hcause <;> rfl
  | visited nodes i a rest c' hmain =>
      rw [hmain, Client.did_visit, Client.did_visit]
      cases c'.threadCompleted <;> cases d <;> cases hcause <;> rfl
  | removed nodes i a pre₁ pre₂ queue hmain =>
      rw [hmain]
      cases d <;> cases hcause <;> rfl
  -- the loop is left
  | drained hmain | dequeued i a rest queue hmain =>
      have hloop := hok.2.2
      rw [hmain] at hloop
      cases hloop

/-! ### The queue and the cursor -/

/-- What is done with the nodes of the queue. -/
def Deed.onNode : Deed → Bool
  | .enqueue | .visit | .find | .dequeue => true
  | _ => false

theorem MainPc.did_deeds {d : Deed} (h : d.onNode = true) (pc : MainPc) (e : MainEvent) :
    did d (pc.deeds e) = [] := by
  unfold MainPc.deeds
  split <;> cases d <;> first | rfl | cases h

/-- **The queue has what was put in and not taken out.** -/
theorem LinkedProcess.Moves.queue (h : l.Moves pre post a l' pre' post' o)
    (hnodup : ((pre ++ post).map Prod.snd).Nodup) (hok : l.Accepting a) :
    (pre' ++ post').map Prod.snd
        = remaining ((pre ++ post).map Prod.snd ++ did .enqueue o) (did .dequeue o) ∧
      (did .dequeue o).Nodup ∧ ∀ i ∈ did .dequeue o, i ∈ (pre ++ post).map Prod.snd := by
  cases h with
  | call e s o' =>
      rw [did_append, did_append, did_misuses, did_misuses, MainPc.did_deeds rfl,
        MainPc.did_deeds rfl]
      exact ⟨by simp, List.nodup_nil, nofun⟩
  | other _ s o' =>
      rw [did_misuses, did_misuses]
      exact ⟨by simp, List.nodup_nil, nofun⟩
  | enqueued i a queue hmain => exact ⟨by simp [did, Report.of], List.nodup_nil, nofun⟩
  | enqueueFailed i hmain => cases hok.2.1
  | passEnds nodes hmain hpost =>
      subst hpost
      exact ⟨by simp, List.nodup_nil, nofun⟩
  | visited nodes i a _ c hmain hpost =>
      subst hpost
      rw [Client.did_visit, Client.did_visit]
      exact ⟨by simp, List.nodup_nil, nofun⟩
  | removed nodes i a pre₁ pre₂ queue hmain hpre hfirst =>
      subst hpre
      refine ⟨?_, List.nodup_singleton i, ?_⟩
      · have hleft := remaining_singleton hnodup i
        rw [erase_before hfirst] at hleft
        rw [show did .enqueue [.did .dequeue i] = [] from rfl, List.append_nil]
        exact hleft.symm
      · intro j hj
        obtain rfl : j = i := List.mem_singleton.1 hj
        simp
  -- the loop is left
  | drained hmain | dequeued i a rest queue hmain =>
      have hloop := hok.2.2
      rw [hmain] at hloop
      cases hloop

/-- **In the pass, a visit takes one connection from what is behind the cursor**; what is found
completed was visited, and nothing is put in the queue. -/
theorem LinkedProcess.Moves.visits (h : l.Moves pre post a l' pre' post' o)
    (hpass : l.main.inPass = true) :
    post.map Prod.snd = did .visit o ++ post'.map Prod.snd ∧
      (did .find o).Sublist (did .visit o) ∧ did .enqueue o = [] := by
  cases h with
  | call e s o' =>
      have hdid : ∀ d, d.onNode = true → did d (l.main.deeds e ++ o'.map .misuse) = [] := by
        intro d hd
        rw [did_append, did_misuses, MainPc.did_deeds hd]
        rfl
      rw [hdid .visit rfl, hdid .find rfl, hdid .enqueue rfl]
      exact ⟨rfl, List.Sublist.refl _, rfl⟩
  | other _ s o' =>
      rw [did_misuses, did_misuses, did_misuses]
      exact ⟨rfl, List.Sublist.refl _, rfl⟩
  | passEnds nodes hmain hpost =>
      subst hpost
      exact ⟨rfl, List.Sublist.refl _, rfl⟩
  | visited nodes i a _ c hmain hpost =>
      subst hpost
      rw [Client.did_visit, Client.did_visit, Client.did_visit]
      refine ⟨rfl, ?_, rfl⟩
      cases c.threadCompleted with
      | true => exact List.Sublist.refl _
      | false => exact List.nil_sublist _
  | removed => exact ⟨rfl, List.Sublist.refl _, rfl⟩
  | enqueued i a queue hmain | enqueueFailed i hmain | drained hmain
  | dequeued i a rest queue hmain =>
      rw [hmain] at hpass
      cases hpass

/-! ### The end of the pass -/

/-- How many calls the pass has to make at most, with `n` nodes behind the cursor. -/
def MainPc.callsLeft (n : ℕ) : MainPc → ℕ
  | .checking _ => 6 * n + 1
  | .freeingInstance _ _ => 6 * n + 2
  | .removing _ _ => 6 * n + 3
  | .joining _ _ => 6 * n + 4
  | .freeingData _ _ => 6 * n + 5
  | .closing _ _ => 6 * n + 6
  | _ => 0

theorem MainPc.Calls.callsLeft {pc pc' : MainPc} (h : pc.Calls pc' o) (hpass : pc.inPass = true)
    (n : ℕ) : pc'.callsLeft n + 1 ≤ pc.callsLeft n ∧ pc'.inPass = true := by
  cases h with
  | setUp _ _ hpc =>
      cases pc <;> simp [MainPc.settingUp, MainPc.inPass] at hpc hpass
  | spawn => cases hpass
  | close | freeData | join | freeInstance => exact ⟨le_refl _, rfl⟩

/-- **A call in the pass leaves less to do**, and ends the pass or stays in it. -/
theorem LinkedProcess.Moves.callsLeft (h : l.Moves pre post a l' pre' post' o)
    (hinv : (l.shown pre post).Inv) (hok : l.Passing a) :
    l'.main.callsLeft post'.length + (if a.shown.ofMain then 1 else 0)
        ≤ l.main.callsLeft post.length ∧
      (l'.main.inPass = true ∨ (l'.main = .testing ∧ post' = [])) := by
  obtain ⟨hok, hpass⟩ := hok
  cases h with
  | call e s o' hqueue hs =>
      obtain ⟨hle, hpass'⟩ := MainPc.Calls.callsLeft
        (Process.mainStep_calls hinv.here hok.2.1 hok.2.2 hqueue hs) hpass post.length
      exact ⟨hle, Or.inl hpass'⟩
  | other _ s o' hother hs =>
      have hmain : (l.become s).main = l.main := (Process.step_other hother hs).1
      rw [hmain, hother]
      exact ⟨le_refl _, Or.inl hpass⟩
  | passEnds nodes hmain hpost =>
      subst hpost
      rw [hmain]
      exact ⟨le_refl _, Or.inr ⟨rfl, rfl⟩⟩
  | visited nodes i a _ c hmain hpost =>
      subst hpost
      rw [hmain, List.length_cons]
      cases c.threadCompleted with
      | true =>
          refine ⟨?_, Or.inl rfl⟩
          show 6 * post'.length + 6 + 1 ≤ 6 * (post'.length + 1) + 1
          omega
      | false =>
          refine ⟨?_, Or.inl rfl⟩
          show 6 * post'.length + 1 + 1 ≤ 6 * (post'.length + 1) + 1
          omega
  | removed nodes i a pre₁ pre₂ queue hmain =>
      rw [hmain]
      exact ⟨le_refl _, Or.inl rfl⟩
  | enqueued i a queue hmain | enqueueFailed i hmain | drained hmain
  | dequeued i a rest queue hmain =>
      rw [hmain] at hpass
      cases hpass

/-! ### Threads -/

/-- A thread that was created is known from then on. -/
theorem Process.step_threads {s s' : Process} {a : ProcessAct} {o : List Misuse}
    (h : s.step a = some (s', o)) {i : ℕ} (hi : s.threads.thread i ≠ none) :
    s'.threads.thread i ≠ none := by
  cases a with
  | main e =>
      cases Process.mainStep_moves h with
      | created j threads hmain hthreads =>
          obtain ⟨hnone, -, -, hothers⟩ := Threads.step_accept hthreads
          have hij : i ≠ j := fun hij => hi (hij ▸ hnone)
          rwa [hothers i hij]
      | _ => exact hi
  | handler j e =>
      obtain ⟨c, threads, pc, pc', -, -, hcalls, rfl, -⟩ := Process.handlerStep_cases h
      by_cases hij : i = j
      · subst hij
        intro hnone
        have hthere := hcalls.there
        rw [Threads.pc_eq_none hnone] at hthere
        cases hthere
      · rwa [hcalls.others i hij]
  | signal =>
      cases h
      exact hi
  | cancelled j =>
      obtain ⟨c, -, h⟩ := Option.bind_eq_some_iff.1 h
      obtain ⟨pc, -, h⟩ := Option.bind_eq_some_iff.1 h
      obtain ⟨-, h⟩ := Option.ite_none_right_eq_some.1 h
      cases h
      exact hi

/-- **A connection gets a thread once.** -/
theorem LinkedProcess.Moves.spawned (h : l.Moves pre post a l' pre' post' o) :
    did .spawn o = [] ∨
      ∃ i, did .spawn o = [i] ∧ l.threads.thread i = none ∧ l'.threads.thread i ≠ none := by
  cases h with
  | call e s o' hqueue hs =>
      rw [did_append, did_misuses, List.append_nil]
      unfold MainPc.deeds
      split
      · next i hmain =>
          refine Or.inr ⟨i, rfl, ?_⟩
          cases Process.mainStep_moves hs with
          | created j threads hj hthreads =>
              obtain rfl : i = j := by
                rw [show l.bare.main = l.main from rfl, hmain] at hj
                exact MainPc.creating.inj hj
              obtain ⟨hnone, hpc, -, -⟩ := Threads.step_accept hthreads
              refine ⟨hnone, ?_⟩
              intro hc
              have hc : threads.thread i = none := hc
              rw [Threads.pc_eq_none hc] at hpc
              cases hpc
      all_goals exact Or.inl rfl
  | other _ s o' => exact Or.inl (did_misuses ..)
  | visited nodes i a _ c => exact Or.inl (Client.did_visit ..)
  | _ => exact Or.inl rfl

/-- A thread that is known, and whose connection is neither in the queue nor being seen to by
`main`, has returned, and its connection is released. -/
theorem LinkedProcess.released {i : ℕ} (hinv : (l.shown pre post).Inv)
    (hqueue : i ∉ (pre ++ post).map Prod.snd) (hsubject : (l.shown pre post).main.subject ≠ some i)
    (hknown : l.threads.thread i ≠ none) :
    l.client i = some .released ∧ l.threads.pc i = some .done := by
  rcases hinv.settled i hqueue hsubject with hunknown | hreleased
  · exact absurd hunknown.2 hknown
  · exact hreleased

/-! ### The account of a run -/

theorem history_owed {d c : Deed} {t : List (LinkedAct × List Report)} {x x' : List ℕ}
    (h : history c t = history d t ++ x) (hstep : x ++ did c o = did d o ++ x') :
    history c (t ++ [(a, o)]) = history d (t ++ [(a, o)]) ++ x' := by
  rw [history_snoc, history_snoc, h, List.append_assoc, hstep, List.append_assoc]

/-- **The account of a run of the accept loop.** -/
structure LinkedProcess.Recorded (t : List (LinkedAct × List Report)) (l : LinkedProcess)
    (pre post : List (ℕ × ℕ)) : Prop where
  shows : l.Shows pre post
  inv : (l.shown pre post).Inv
  /-- What came to be owed was done, or is still owed. -/
  owed : ∀ d c, d.cause = some c → history c t = history d t ++ l.main.owed d
  spawned : (history .spawn t).Nodup ∧ ∀ i ∈ history .spawn t, l.threads.thread i ≠ none
  dequeued : (history .dequeue t).Nodup ∧ ∀ i ∈ history .dequeue t, i ∈ history .enqueue t
  queue : (pre ++ post).map Prod.snd = remaining (history .enqueue t) (history .dequeue t)

theorem LinkedProcess.Recorded.init : LinkedProcess.init.Recorded [] [] [] where
  shows := .init
  inv := .init
  owed := by
    intro d _ _
    cases d <;> rfl
  spawned := ⟨List.nodup_nil, nofun⟩
  dequeued := ⟨List.nodup_nil, nofun⟩
  queue := rfl

theorem LinkedProcess.Recorded.step {t : List (LinkedAct × List Report)}
    (h : LinkedProcess.Recorded t l pre post) (hok : l.Accepting a)
    (hstep : l.step a = some (l', o)) :
    ∃ pre' post', LinkedProcess.Recorded (t ++ [(a, o)]) l' pre' post' := by
  obtain ⟨pre', post', hmoves, hshows, hinv, -⟩ := h.shows.orderly h.inv hok.orderly hstep
  have howed : ∀ d c, d.cause = some c →
      history c (t ++ [(a, o)]) = history d (t ++ [(a, o)]) ++ l'.main.owed d := by
    intro d c hc
    exact history_owed (h.owed d c hc) (hmoves.owed h.inv hok hc)
  have hthreads : ∀ i, l.threads.thread i ≠ none → l'.threads.thread i ≠ none := by
    intro i hi
    exact Process.step_threads hmoves.shown hi
  have hspawned : (history .spawn (t ++ [(a, o)])).Nodup ∧
      ∀ i ∈ history .spawn (t ++ [(a, o)]), l'.threads.thread i ≠ none := by
    rw [history_snoc]
    rcases hmoves.spawned with hnone | ⟨i, hi, hnew, hthere⟩
    · rw [hnone, List.append_nil]
      exact ⟨h.spawned.1, fun j hj => hthreads j (h.spawned.2 j hj)⟩
    · rw [hi]
      constructor
      · refine List.nodup_append.2 ⟨h.spawned.1, List.nodup_singleton i, ?_⟩
        rintro j hj k hk rfl
        rw [List.mem_singleton.1 hk] at hj
        exact h.spawned.2 i hj hnew
      · intro j hj
        rcases List.mem_append.1 hj with hj | hj
        · exact hthreads j (h.spawned.2 j hj)
        · rw [List.mem_singleton.1 hj]
          exact hthere
  -- what is put in the queue is new
  have hnew : ∀ i ∈ did .enqueue o, i ∉ history .dequeue t := by
    intro i hi hd
    have hnodup := hspawned.1
    rw [howed .enqueue .spawn rfl, history_snoc, List.append_assoc, List.nodup_append] at hnodup
    exact hnodup.2.2 i (h.dequeued.2 i hd) i (List.mem_append_left _ hi) rfl
  obtain ⟨hqueue, honce, hin⟩ := hmoves.queue h.inv.nodup hok
  rw [h.queue] at hqueue hin
  refine ⟨pre', post', hshows, hinv, howed, hspawned, ⟨?_, ?_⟩, ?_⟩
  · rw [history_snoc, List.nodup_append]
    refine ⟨h.dequeued.1, honce, ?_⟩
    rintro i hi j hj rfl
    exact (mem_remaining.1 (hin i hj)).2 hi
  · intro i hi
    rw [history_snoc] at hi ⊢
    refine List.mem_append_left _ ?_
    rcases List.mem_append.1 hi with hi | hi
    · exact h.dequeued.2 i hi
    · exact (mem_remaining.1 (hin i hi)).1
  · rw [history_snoc, history_snoc, remaining_append, remaining_concat hnew, hqueue]

/-- **A run of the accept loop keeps its account.** -/
theorem LinkedProcess.recorded {t : List (LinkedAct × List Report)}
    (h : linkedProcess.Trace LinkedProcess.Accepting .init t l) :
    ∃ pre post, LinkedProcess.Recorded t l pre post := by
  induction h with
  | nil => exact ⟨[], [], .init⟩
  | snoc _ hok hstep ih =>
      obtain ⟨pre, post, hrecorded⟩ := ih
      exact hrecorded.step hok hstep

/-! ### The account of a pass -/

/-- **The account of a pass** over the queue `q`. -/
structure LinkedProcess.Passed (q : List ℕ) (t : List (LinkedAct × List Report)) (l : LinkedProcess)
    (pre post : List (ℕ × ℕ)) : Prop where
  shows : l.Shows pre post
  inv : (l.shown pre post).Inv
  /-- The threads of the connections in `q` were created. -/
  known : ∀ i ∈ q, l.threads.thread i ≠ none
  /-- What is behind the cursor was not visited yet. -/
  visits : q = history .visit t ++ post.map Prod.snd
  finds : (history .find t).Sublist (history .visit t)
  owed : ∀ d, d.cause = some .find → history .find t = history d t ++ l.main.owed d
  queue : (pre ++ post).map Prod.snd = remaining q (history .dequeue t)
  calls : mainCalls t + l.main.callsLeft post.length ≤ 6 * q.length + 1
  main : l.main.inPass = true ∨ (l.main = .testing ∧ post = [])

theorem mainCalls_snoc (t : List (LinkedAct × List Report)) :
    mainCalls (t ++ [(a, o)]) = mainCalls t + if a.shown.ofMain then 1 else 0 := by
  rw [mainCalls, List.countP_append, List.countP_singleton, mainCalls]

theorem LinkedProcess.Passed.step {q : List ℕ} {t : List (LinkedAct × List Report)}
    (h : LinkedProcess.Passed q t l pre post) (hok : l.Passing a)
    (hstep : l.step a = some (l', o)) :
    ∃ pre' post', LinkedProcess.Passed q (t ++ [(a, o)]) l' pre' post' := by
  obtain ⟨hacc, hpass⟩ := hok
  obtain ⟨pre', post', hmoves, hshows, hinv, -⟩ := h.shows.orderly h.inv hacc.orderly hstep
  obtain ⟨hvisits, hfinds, hnone⟩ := hmoves.visits hpass
  obtain ⟨hqueue, -, -⟩ := hmoves.queue h.inv.nodup hacc
  obtain ⟨hcalls, hmain⟩ := hmoves.callsLeft h.inv ⟨hacc, hpass⟩
  refine ⟨pre', post', hshows, hinv, ?_, ?_, ?_, ?_, ?_, ?_, hmain⟩
  · intro i hi
    exact Process.step_threads hmoves.shown (h.known i hi)
  · rw [history_snoc, List.append_assoc, ← hvisits]
    exact h.visits
  · rw [history_snoc, history_snoc]
    exact h.finds.append hfinds
  · intro d hd
    exact history_owed (h.owed d hd) (hmoves.owed h.inv hacc hd)
  · rw [hqueue, h.queue, hnone, List.append_nil, history_snoc, remaining_append]
  · have hbefore := h.calls
    rw [mainCalls_snoc]
    omega

/-- The calls that release a connection whose handler has returned are possible. -/
theorem LinkedProcess.release_progress {i : ℕ} {c : Client} (hqueue : l.main.queueless = true)
    (hpass : l.main.inPass = true) (hi : l.main.subject = some i) (hc : l.client i = some c)
    (hdone : l.threads.pc i = some .done) : ∃ p, l.step (.main .go) = some p := by
  have hs : (l.bare.mainStep .go).isSome = true := by
    cases hmain : l.main with
    | closing j rest =>
        rw [hmain] at hi
        cases hi
        simp only [Process.mainStep, LinkedProcess.bare, hmain, hc, Option.bind_eq_bind,
          Option.bind_some]
        split <;> rfl
    | joining j rest =>
        rw [hmain] at hi
        cases hi
        simp only [Process.mainStep, LinkedProcess.bare, hmain, hc, Option.bind_eq_bind,
          Option.bind_some, if_pos (Or.inl hdone)]
        rfl
    | freeingData j rest | freeingInstance j rest =>
        rw [hmain] at hi
        cases hi
        simp only [Process.mainStep, LinkedProcess.bare, hmain, hc, Option.bind_eq_bind,
          Option.bind_some]
        rfl
    | checking | removing =>
        rw [hmain] at hqueue
        cases hqueue
    | _ =>
        rw [hmain] at hpass
        cases hpass
  obtain ⟨p, hs⟩ := Option.isSome_iff_exists.1 hs
  refine ⟨(l.become p.1, l.main.deeds .go ++ p.2.map .misuse), ?_⟩
  rw [LinkedProcess.step, LinkedProcess.mainStep, if_pos hqueue, hs]
  rfl

/-- **`main` is never stuck in the pass.** -/
theorem LinkedProcess.Shows.progress (h : l.Shows pre post) (hinv : (l.shown pre post).Inv)
    (hpass : l.main.inPass = true) : ∃ p, l.step (.main .go) = some p := by
  have hhere := hinv.here
  unfold Process.Subject at hhere
  have hqueueStep : l.main.queueless = false → l.step (.main .go) = l.queueStep := by
    intro hqueue
    rw [LinkedProcess.step, LinkedProcess.mainStep, hqueue]
    rfl
  cases hmain : l.main with
  | checking nodes =>
      rw [hqueueStep (by rw [hmain]; rfl), LinkedProcess.queueStep, hmain, h.cursor hpass]
      cases post with
      | nil => exact ⟨_, rfl⟩
      | cons x rest =>
          obtain ⟨pc, hserves⟩ := hinv.queued x.2 (by simp [LinkedProcess.shown, Process.within])
            (by simp [LinkedProcess.shown, Process.within, LinkedProcess.bare, hmain, MainPc.before,
              MainPc.subject])
          have hc : l.client x.2 = some (.running pc) := hserves.2
          simp only [List.head?_cons, Option.map_some, h.load, LinkedProcess.after, hc]
          exact ⟨_, rfl⟩
  | closing i rest | freeingData i rest =>
      simp only [LinkedProcess.shown, Process.within, LinkedProcess.bare, hmain, MainPc.before]
        at hhere
      obtain ⟨-, pc, hserves, hdone⟩ := hhere
      have hrest : rest ≠ none := by
        rintro rfl
        rw [hmain] at hpass
        cases hpass
      obtain rfl := hdone (by simpa using hrest)
      exact LinkedProcess.release_progress (by rw [hmain]; rfl) hpass (by rw [hmain]; rfl)
        hserves.2 hserves.1
  | joining i rest =>
      simp only [LinkedProcess.shown, Process.within, LinkedProcess.bare, hmain, MainPc.before]
        at hhere
      obtain ⟨-, hpc, hc⟩ := hhere
      exact LinkedProcess.release_progress (by rw [hmain]; rfl) hpass (by rw [hmain]; rfl) hc hpc
  | removing i nodes =>
      simp only [LinkedProcess.shown, Process.within, LinkedProcess.bare, hmain, MainPc.before]
        at hhere
      obtain ⟨a, pre₁, pre₂, queue, -, -, hcall, -⟩ := h.queueRemove hhere.1.1 hhere.1.2.1
      rw [hqueueStep (by rw [hmain]; rfl)]
      simp only [LinkedProcess.queueStep, hmain, hcall, LinkedProcess.after]
      exact ⟨_, rfl⟩
  | freeingInstance i rest =>
      simp only [LinkedProcess.shown, Process.within, LinkedProcess.bare, hmain, MainPc.before]
        at hhere
      obtain ⟨-, -, hpc, hc⟩ := hhere
      exact LinkedProcess.release_progress (by rw [hmain]; rfl) hpass (by rw [hmain]; rfl) hc hpc
  | _ =>
      rw [hmain] at hpass
      cases hpass

/-- The pass begins at the first node, with all of the queue behind the cursor. -/
theorem LinkedProcess.Recorded.pass {t : List (LinkedAct × List Report)} {newNode : Option ℕ}
    (h : LinkedProcess.Recorded t l pre post) (hok : l.Accepting (.enqueue newNode))
    (hstep : l.step (.enqueue newNode) = some (l', o)) :
    ∃ q post', LinkedProcess.Passed q [] l' [] post' := by
  obtain ⟨pre', post', hmoves, hshows, hinv, -⟩ := h.shows.orderly h.inv hok.orderly hstep
  cases hmoves with
  | enqueued i a queue hmain =>
      have howed := h.owed .enqueue .spawn rfl
      rw [hmain] at howed
      have hspawned : ∀ j ∈ (pre ++ post ++ [(a, i)]).map Prod.snd, j ∈ history .spawn t := by
        intro j hj
        rw [List.map_append, h.queue] at hj
        rw [howed]
        rcases List.mem_append.1 hj with hj | hj
        · exact List.mem_append_left _ (mem_remaining.1 hj).1
        · exact List.mem_append_right _ hj
      refine ⟨(pre ++ post ++ [(a, i)]).map Prod.snd, _, hshows, hinv, ?_, rfl,
        List.Sublist.refl _, ?_, ?_, ?_, Or.inl rfl⟩
      · intro j hj
        exact h.spawned.2 j (hspawned j hj)
      · intro d hd
        cases d <;> cases hd <;> rfl
      · exact (remaining_nil _).symm
      · rw [List.length_map]
        exact le_of_eq (Nat.zero_add _)
  | enqueueFailed i hmain => cases hok.2.1
  | other _ s o' hother => cases hother

theorem LinkedProcess.passed {q : List ℕ} {post₀ : List (ℕ × ℕ)} {l₀ : LinkedProcess}
    {t : List (LinkedAct × List Report)} (hstart : LinkedProcess.Passed q [] l₀ [] post₀)
    (h : linkedProcess.Trace LinkedProcess.Passing l₀ t l) :
    ∃ pre post, LinkedProcess.Passed q t l pre post := by
  induction h with
  | nil => exact ⟨[], post₀, hstart⟩
  | snoc _ hok hstep ih =>
      obtain ⟨pre, post, hpassed⟩ := ih
      exact hpassed.step hok hstep

theorem LinkedProcess.Shows.represents (h : l.Shows pre post) :
    l.queue.Represents (((pre ++ post).map Prod.snd).map some) := by
  refine ⟨_, h.holds, ?_⟩
  rw [List.map_map, List.map_map]
  rfl

/-- **The pass removes exactly the threads it finds completed.**  In every run of the accept loop in
which nothing fails, no node and nothing of a connection is touched after it was freed.  Whenever
`is_active` is tested, the queue has the connections whose threads were created and not yet reaped,
in the order of their creation; and what was reaped, once, is what was found completed, whose
handlers have returned and whose connections are released.

The pass behind an accepted connection begins with a queue `q` without repetitions.  Whatever the
handlers do meanwhile, it makes at most `6 * q.length + 1` calls, and is not stuck before its end;
there it has visited every connection of `q` once, has released those that it found completed, in
each of the four ways, and the others are in the queue in their order. -/
theorem reap_pass_exact {t : List (LinkedAct × List Report)}
    (h : linkedProcess.Trace LinkedProcess.Accepting .init t l) :
    (∀ p ∈ t, ∀ r ∈ p.2, r.Fine) ∧
    (l.main = .testing →
      l.queue.Represents ((remaining (history .spawn t) (history .freeInstance t)).map some) ∧
      (history .spawn t).Nodup ∧ (history .find t).Nodup ∧
      (∀ d : Deed, d.cause = some .find → history d t = history .find t) ∧
      ∀ i ∈ history .find t, l.client i = some .released ∧ l.threads.pc i = some .done) ∧
    ∀ newNode l₁ o, l.Accepting (.enqueue newNode) → l.step (.enqueue newNode) = some (l₁, o) →
      ∃ q : List ℕ, q.Nodup ∧ l₁.queue.Represents (q.map some) ∧
        ∀ t' l', linkedProcess.Trace LinkedProcess.Passing l₁ t' l' →
          mainCalls t' ≤ 6 * q.length + 1 ∧
          (l'.main ≠ .testing → ∃ p, l'.step (.main .go) = some p) ∧
          (l'.main = .testing →
            history .visit t' = q ∧ (history .find t').Sublist q ∧
            (∀ d : Deed, d.cause = some .find → history d t' = history .find t') ∧
            (∀ i ∈ history .find t',
              l'.client i = some .released ∧ l'.threads.pc i = some .done) ∧
            l'.queue.Represents ((remaining q (history .find t')).map some)) := by
  obtain ⟨pre, post, hrecorded⟩ := LinkedProcess.recorded h
  refine ⟨LinkedProcess.reports_fine (h.mono fun _ _ hok => hok.orderly), ?_, ?_⟩
  · intro hmain
    have howed : ∀ d c : Deed, d.cause = some c → history c t = history d t := by
      intro d c hc
      have howed := hrecorded.owed d c hc
      rwa [hmain, MainPc.owed_of_settingUp rfl, List.append_nil] at howed
    refine ⟨?_, hrecorded.spawned.1, ?_, fun d hd => (howed d .find hd).symm, ?_⟩
    · have hrep := hrecorded.shows.represents
      rwa [hrecorded.queue, ← howed .enqueue .spawn rfl, ← howed .dequeue .find rfl,
        howed .freeInstance .find rfl] at hrep
    · rw [howed .dequeue .find rfl]
      exact hrecorded.dequeued.1
    · intro i hi
      rw [howed .dequeue .find rfl] at hi
      have hin : i ∈ history .spawn t := by
        rw [howed .enqueue .spawn rfl]
        exact hrecorded.dequeued.2 i hi
      refine LinkedProcess.released hrecorded.inv ?_ ?_ (hrecorded.spawned.2 i hin)
      · rw [hrecorded.queue, mem_remaining]
        exact fun hc => hc.2 hi
      · simp [LinkedProcess.shown, Process.within, LinkedProcess.bare, hmain, MainPc.before,
          MainPc.subject]
  · intro newNode l₁ o hok hstep
    obtain ⟨q, post₁, hstart⟩ := hrecorded.pass hok hstep
    have hq : ([] ++ post₁).map Prod.snd = q := hstart.queue.trans (remaining_nil q)
    refine ⟨q, hq ▸ hstart.inv.nodup, hq ▸ hstart.shows.represents, ?_⟩
    intro t' l' ht'
    obtain ⟨pre', post', hpassed⟩ := LinkedProcess.passed hstart ht'
    refine ⟨?_, ?_, ?_⟩
    · have hcalls := hpassed.calls
      omega
    · intro hmain
      exact hpassed.shows.progress hpassed.inv (hpassed.main.resolve_right fun hc => hmain hc.1)
    · intro hmain
      obtain rfl : post' = [] := by
        rcases hpassed.main with hpass | ⟨-, hpost⟩
        · rw [hmain] at hpass
          cases hpass
        · exact hpost
      have hvisits : history .visit t' = q := by
        have hvisits := hpassed.visits
        rw [List.map_nil, List.append_nil] at hvisits
        exact hvisits.symm
      have howed : ∀ d : Deed, d.cause = some .find → history d t' = history .find t' := by
        intro d hd
        have howed := hpassed.owed d hd
        rw [hmain, MainPc.owed_of_settingUp rfl, List.append_nil] at howed
        exact howed.symm
      have hfinds : (history .find t').Sublist q := hvisits ▸ hpassed.finds
      refine ⟨hvisits, hfinds, howed, ?_, ?_⟩
      · intro i hi
        refine LinkedProcess.released hpassed.inv ?_ ?_ (hpassed.known i (hfinds.subset hi))
        · rw [hpassed.queue, mem_remaining, howed .dequeue rfl]
          exact fun hc => hc.2 hi
        · simp [LinkedProcess.shown, Process.within, LinkedProcess.bare, hmain, MainPc.before,
            MainPc.subject]
      · have hrep := hpassed.shows.represents
        rwa [hpassed.queue, howed .dequeue rfl] at hrep

/-- Two connections; the handler of the first one is about to return when the second one is put in
the queue. -/
def twoClients : List LinkedAct :=
  [.main .go, .main (.accept (some 0)), .main (.malloc true), .main (.malloc true),
    .main (.pthreadCreate true), .enqueue (some 8), .main .go, .handler 0 (.lock 0), .main .go,
    .handler 0 (.fopen true), .main .go, .main (.accept (some 1)), .handler 0 (.recv .closed),
    .main (.malloc true), .main (.malloc true), .handler 0 .fclose, .main (.pthreadCreate true),
    .handler 0 .unlock, .handler 0 .close, .handler 0 .clear]

/-- It returns in the pass that begins then. -/
def firstReturns : List LinkedAct :=
  [.handler 0 .complete, .main .go, .main .go, .main .go, .main .go, .handler 1 (.lock 0),
    .main .go, .main .go, .main .go, .main .go]

theorem reap_pass_exact_firstReturns :
    ∃ l l₁ o t' l', linkedProcess.Reach LinkedProcess.Accepting .init l ∧
      l.step (.enqueue (some 9)) = some (l₁, o) ∧
      linkedProcess.Trace LinkedProcess.Passing l₁ t' l' ∧ l'.main = .testing ∧
      history .visit t' = [0, 1] ∧ history .find t' = [0] ∧ l'.client 0 = some .released ∧
      l'.queue.Represents [some 1] := by
  have hrun : ((linkedProcess.run .init twoClients).bind fun p =>
      (p.1.step (.enqueue (some 9))).bind fun p₁ =>
        (linkedProcess.run p₁.1 firstReturns).map fun p' =>
          (p'.1.main, history .visit (firstReturns.zip p'.2),
            history .find (firstReturns.zip p'.2)))
        = some (.testing, [0, 1], [0]) := by decide
  have haccepts : ∀ p ∈ linkedProcess.run .init twoClients, p.1.Accepting (.enqueue (some 9)) := by
    decide
  have hpasses : ∀ p ∈ linkedProcess.run .init twoClients, ∀ p₁ ∈ p.1.step (.enqueue (some 9)),
      linkedProcess.Passes LinkedProcess.Passing p₁.1 firstReturns := by decide
  obtain ⟨⟨l, os⟩, hl, hrun⟩ := Option.bind_eq_some_iff.1 hrun
  obtain ⟨⟨l₁, o⟩, hstep, hrun⟩ := Option.bind_eq_some_iff.1 hrun
  obtain ⟨⟨l', os'⟩, hl', hend⟩ := Option.map_eq_some_iff.1 hrun
  obtain ⟨hmain, hhistory⟩ := Prod.mk.inj hend
  obtain ⟨hvisit, hfind⟩ := Prod.mk.inj hhistory
  have htrace : linkedProcess.Trace LinkedProcess.Accepting .init _ l :=
    Machine.trace_of_run hl (by decide)
  have hpass : linkedProcess.Trace LinkedProcess.Passing l₁ _ l' :=
    Machine.trace_of_run hl' (hpasses _ hl _ hstep)
  obtain ⟨q, -, -, hq⟩ := (reap_pass_exact htrace).2.2 _ _ _ (haccepts _ hl) hstep
  obtain ⟨rfl, -, -, hreleased, hrep⟩ := (hq _ _ hpass).2.2 hmain
  rw [hvisit, hfind] at hrep
  have hfirst := hreleased 0 (by rw [hfind]; decide)
  exact ⟨l, l₁, o, _, l', ⟨_, htrace⟩, hstep, hpass, hmain, hvisit, hfind, hfirst.1, hrep⟩

end Aesd
