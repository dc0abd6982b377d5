/-
**The whole run of `main`: what was released when it has returned.**

A pass over the queue reaps the handlers that it finds completed.  The others are left to the next
pass, and in the end to the loop behind the accept loop, which takes the queue from its head and
waits for each handler.  In a pass a connection is closed, its data freed and its thread joined
before its node is removed; in the drain all that comes after `queue_dequeue`.

Here the account of `ReapPass` is carried on to the end of `main`: in the accept loop `main` owes
what is due for the connections that were found completed, and in the drain what is due for those
that were taken out of the queue.

* `LinkedProcess.Drained` — the account of a run up to a state of the drain;
* `LinkedProcess.Recorded.drained` — it begins with that of the accept loop;
* `LinkedProcess.accounted` — every run of `main` keeps one or the other;
* `nothing_left_behind` — **each thread that was created is joined once, and all that belongs to its
  connection is released once**: first those that the passes found completed, then the others in the
  order of their creation.
-/

import Aesd.ReapPass

set_option relaxedAutoImplicit false
set_option autoImplicit false

namespace Aesd

variable {l l' : LinkedProcess} {pre post pre' post' : List (ℕ × ℕ)} {a : LinkedAct}
  {o : List Report} {t : List (LinkedAct × List Report)}

/-! ### The end of the accept loop -/

theorem MainPc.Calls.leaves {pc pc' : MainPc} (h : pc.Calls pc' o) :
    pc'.inLoop = true ∨ pc' = .draining := by
  cases h with
  | setUp _ _ _ hpc' =>
      cases pc' <;> first | exact Or.inl rfl | exact Or.inr rfl | cases hpc'
  | _ => exact Or.inl rfl

/-- The accept loop is left for the drain, when nothing fails. -/
theorem LinkedProcess.Moves.leaves (h : l.Moves pre post a l' pre' post' o)
    (hinv : (l.shown pre post).Inv) (hok : l.Accepting a) :
    l'.main.inLoop = true ∨ l'.main = .draining := by
  cases h with
  | call e s o' hqueue hs =>
      exact (Process.mainStep_calls hinv.here hok.2.1 hok.2.2 hqueue hs).leaves
  | other _ s o' hother hs =>
      have hmain : (l.become s).main = l.main := (Process.step_other hother hs).1
      rw [hmain]
      exact Or.inl hok.2.2
  | enqueued | passEnds | removed => exact Or.inl rfl
  | enqueueFailed => cases hok.2.1
  | visited nodes i a rest c =>
      cases c.threadCompleted <;> exact Or.inl rfl
  | drained hmain | dequeued i a rest queue hmain =>
      have hloop := hok.2.2
      rw [hmain] at hloop
      cases hloop

/-! ### A step of the drain -/

/-- What `main` does, behind the accept loop, with a connection that it has taken out of the
queue. -/
def Deed.afterDequeue : Deed → Bool
  | .freeData | .join | .freeInstance => true
  | _ => false

/-- **The calls of `main` behind its loop that are not on the queue**, by the control points, and
what is done. -/
inductive MainPc.Drains : MainPc → MainPc → List Report → Prop
  | close (i : ℕ) : Drains (.closing i none) (.freeingData i none) []
  | freeData (i : ℕ) : Drains (.freeingData i none) (.joining i none) [.did .freeData i]
  | join (i : ℕ) : Drains (.joining i none) (.freeingInstance i none) [.did .join i]
  | freeInstance (i : ℕ) : Drains (.freeingInstance i none) .draining [.did .freeInstance i]

theorem Process.mainStep_drains {s s' : Process} {e : MainEvent} {o : List Misuse}
    (hout : s.main.inLoop = false) (hqueue : s.main.queueless = true)
    (hs : s.mainStep e = some (s', o)) : s.main.Drains s'.main (s.main.deeds e) := by
  cases Process.mainStep_moves hs with
  | close i rest c hmain | closed i rest c hmain =>
      rw [hmain] at hout ⊢
      cases rest with
      | none => exact .close i
      | some nodes => cases hout
  | freeData i rest c hmain =>
      rw [hmain] at hout ⊢
      cases rest with
      | none => exact .freeData i
      | some nodes => cases hout
  | join i rest c hmain =>
      rw [hmain] at hout ⊢
      cases rest with
      | none => exact .join i
      | some nodes => cases hout
  | freeInstance i rest c hmain =>
      rw [hmain] at hout ⊢
      cases rest with
      | none => exact .freeInstance i
      | some nodes => cases hout
  | returned hmain | dequeue i queue hmain =>
      rw [hmain] at hqueue
      cases hqueue
  -- the accept loop, and the labels behind it
  | test hmain | interrupted hmain | accepted i hmain | dataAllocated i c hmain | dataFailed i hmain
  | instanceAllocated i c hmain | instanceFailed i hmain | created i threads hmain
  | createFailed i hmain | enqueued i hmain | enqueueFailed i hmain | passEnds hmain
  | checked i nodes c hmain | remove i nodes hmain | kill i c hmain | undoInstance i c hmain
  | undoData i c hmain | undoClient i c hmain =>
      rw [hmain] at hout
      cases hout

theorem MainPc.Drains.out {pc pc' : MainPc} (h : pc.Drains pc' o) : pc'.inLoop = false := by
  cases h <;> rfl

/-- Nothing is done but what is due for a connection that was taken out of the queue. -/
theorem MainPc.Drains.silent {pc pc' : MainPc} (h : pc.Drains pc' o) {d : Deed}
    (hd : d.cause ≠ some .find) : did d o = [] := by
  cases h <;> cases d <;> first | rfl | exact absurd rfl hd

/-- What comes to be owed when a connection is taken out of the queue is done later. -/
theorem MainPc.Drains.owed {pc pc' : MainPc} (h : pc.Drains pc' o) {d : Deed}
    (hd : d.afterDequeue = true) : pc.owed d = did d o ++ pc'.owed d := by
  cases h <;> cases d <;> cases hd <;> rfl

/-- **The account of a step of the drain**: no thread is created and none is looked at, and what
is taken out of the queue was at its head. -/
structure LinkedProcess.Taken (l l' : LinkedProcess) (q q' : List ℕ) (o : List Report) : Prop where
  out : l'.main.inLoop = false
  silent : ∀ d : Deed, d.cause ≠ some .find → did d o = []
  queue : q = did .dequeue o ++ q'
  owed : ∀ d : Deed, d.afterDequeue = true →
    l.main.owed d ++ did .dequeue o = did d o ++ l'.main.owed d

theorem LinkedProcess.Moves.taken (h : l.Moves pre post a l' pre' post' o)
    (hout : l.main.inLoop = false) :
    l.Taken l' ((pre ++ post).map Prod.snd) ((pre' ++ post').map Prod.snd) o := by
  cases h with
  | call e s o' hqueue hs =>
      have hdrains : l.main.Drains s.main (l.main.deeds e) :=
        Process.mainStep_drains hout hqueue hs
      have hdid : ∀ d, did d (l.main.deeds e ++ o'.map .misuse) = did d (l.main.deeds e) := by
        intro d
        rw [did_append, did_misuses, List.append_nil]
      refine ⟨?_, ?_, ?_, ?_⟩
      · exact hdrains.out
      · intro d hd
        rw [hdid]
        exact hdrains.silent hd
      · rw [hdid, MainPc.did_deeds rfl, List.nil_append]
      · intro d hd
        rw [hdid, hdid, MainPc.did_deeds rfl, List.append_nil]
        exact hdrains.owed hd
  | other _ s o' hother hs =>
      have hmain : (l.become s).main = l.main := (Process.step_other hother hs).1
      refine ⟨hmain ▸ hout, fun d _ => did_misuses d o', ?_, ?_⟩
      · rw [did_misuses, List.nil_append]
      · intro d _
        rw [did_misuses, did_misuses, List.append_nil, List.nil_append, hmain]
  | drained hmain hnodes =>
      refine ⟨rfl, fun _ _ => rfl, ?_, ?_⟩
      · rw [hnodes]
        rfl
      · intro d hd
        rw [hmain]
        cases d <;> cases hd <;> rfl
  | dequeued i a rest queue hmain hnodes =>
      refine ⟨rfl, ?_, ?_, ?_⟩
      · intro d hd
        cases d <;> first | rfl | exact absurd rfl hd
      · rw [hnodes]
        rfl
      · intro d hd
        rw [hmain]
        cases d <;> cases hd <;> rfl
  | enqueued i a queue hmain | enqueueFailed i hmain | passEnds nodes hmain
  | visited nodes i a rest c hmain | removed nodes i a pre₁ pre₂ queue hmain =>
      rw [hmain] at hout
      cases hout

/-! ### The account of a run -/

/-- **The account of a run up to a state of the drain.** -/
structure LinkedProcess.Drained (t : List (LinkedAct × List Report)) (l : LinkedProcess)
    (pre post : List (ℕ × ℕ)) : Prop where
  shows : l.Shows pre post
  inv : (l.shown pre post).Inv
  out : l.main.inLoop = false
  enqueued : history .enqueue t = history .spawn t
  spawned : (history .spawn t).Nodup ∧ ∀ i ∈ history .spawn t, l.threads.thread i ≠ none
  found : (history .find t).Nodup ∧ ∀ i ∈ history .find t, i ∈ history .spawn t
  /-- What the passes did not find is taken out of the queue in its order. -/
  dequeued : history .dequeue t ++ (pre ++ post).map Prod.snd
    = history .find t ++ remaining (history .spawn t) (history .find t)
  /-- What is taken out of the queue is released, or still to be released. -/
  owed : ∀ d : Deed, d.afterDequeue = true → history .dequeue t = history d t ++ l.main.owed d

/-- **The drain begins with the account of the accept loop.** -/
theorem LinkedProcess.Recorded.drained (h : LinkedProcess.Recorded t l pre post)
    (hmain : l.main = .draining) : LinkedProcess.Drained t l pre post := by
  have howed : ∀ d c : Deed, d.cause = some c → history c t = history d t := by
    intro d c hc
    have howed := h.owed d c hc
    rwa [hmain, MainPc.owed_of_settingUp rfl, List.append_nil] at howed
  have henqueued : history .enqueue t = history .spawn t := (howed .enqueue .spawn rfl).symm
  have hdequeued : history .dequeue t = history .find t := (howed .dequeue .find rfl).symm
  refine ⟨h.shows, h.inv, by rw [hmain]; rfl, henqueued, h.spawned, ?_, ?_, ?_⟩
  · rw [← hdequeued, ← henqueued]
    exact h.dequeued
  · rw [h.queue, henqueued, hdequeued]
  · intro d hd
    rw [hmain, MainPc.owed_of_settingUp rfl, List.append_nil, hdequeued]
    cases d <;> first | exact howed _ _ rfl | cases hd

/-- **A step of the drain** keeps the account. -/
theorem LinkedProcess.Drained.step (h : LinkedProcess.Drained t l pre post) (hok : l.Orderly a)
    (hstep : l.step a = some (l', o)) :
    ∃ pre' post', LinkedProcess.Drained (t ++ [(a, o)]) l' pre' post' := by
  obtain ⟨pre', post', hmoves, hshows, hinv, -⟩ := h.shows.orderly h.inv hok hstep
  have htaken := hmoves.taken h.out
  have hsame : ∀ d : Deed, d.cause ≠ some .find → history d (t ++ [(a, o)]) = history d t := by
    intro d hd
    rw [history_snoc, htaken.silent d hd, List.append_nil]
  have hspawn := hsame .spawn (by decide)
  have hfind := hsame .find (by decide)
  have henqueue := hsame .enqueue (by decide)
  refine ⟨pre', post', hshows, hinv, htaken.out, ?_, ?_, ?_, ?_, ?_⟩
  · rw [henqueue, hspawn]
    exact h.enqueued
  · rw [hspawn]
    exact ⟨h.spawned.1, fun i hi => Process.step_threads hmoves.shown (h.spawned.2 i hi)⟩
  · rw [hfind, hspawn]
    exact h.found
  · rw [hfind, hspawn, history_snoc, List.append_assoc, ← htaken.queue]
    exact h.dequeued
  · intro d hd
    exact history_owed (h.owed d hd) (htaken.owed d hd)

/-- **Every run of `main` keeps an account**, in its accept loop or behind it. -/
theorem LinkedProcess.accounted (h : linkedProcess.Trace LinkedProcess.Orderly .init t l) :
    ∃ pre post, (l.main.inLoop = true ∧ LinkedProcess.Recorded t l pre post) ∨
      LinkedProcess.Drained t l pre post := by
  induction h with
  | nil => exact ⟨[], [], Or.inl ⟨rfl, .init⟩⟩
  | snoc _ hok hstep ih =>
      obtain ⟨pre, post, ⟨hloop, hrecorded⟩ | hdrained⟩ := ih
      · have hacc := And.intro hok.1 (And.intro hok.2.1 hloop)
        obtain ⟨pre', post', hmoves, -⟩ := hrecorded.shows.orderly hrecorded.inv hok hstep
        have hleaves := hmoves.leaves hrecorded.inv hacc
        obtain ⟨pre', post', hrecorded'⟩ := hrecorded.step hacc hstep
        refine ⟨pre', post', ?_⟩
        rcases hleaves with hloop' | hdraining
        · exact Or.inl ⟨hloop', hrecorded'⟩
        · exact Or.inr (hrecorded'.drained hdraining)
      · obtain ⟨pre', post', hdrained'⟩ := hdrained.step hok hstep
        exact ⟨pre', post', Or.inr hdrained'⟩

/-! ### When `main` has returned -/

theorem remaining_perm {q d : List ℕ} (hq : q.Nodup) (hd : d.Nodup) (hin : ∀ i ∈ d, i ∈ q) :
    (d ++ remaining q d).Perm q := by
  refine (List.perm_ext_iff_of_nodup ?_ hq).2 ?_
  · refine List.nodup_append.2 ⟨hd, hq.filter _, ?_⟩
    rintro i hi j hj rfl
    exact (mem_remaining.1 hj).2 hi
  · intro i
    rw [List.mem_append, mem_remaining]
    by_cases hi : i ∈ d
    · exact iff_of_true (Or.inl hi) (hin i hi)
    · simp [hi]

/-- **Nothing is left behind, and nothing is released twice.**  In every run in which nothing fails
and the drain meets no handler at work, nothing is touched after it was freed, and no connection
gets a thread twice.  When `main` has returned, each connection whose thread was created was taken
out of the queue, freed in both parts and joined once: first those that the passes found completed,
in that order, and then the others, in the order of their creation.  All handlers have returned, all
that belonged to their connections was released, and each node that was allocated was freed. -/
theorem nothing_left_behind (h : linkedProcess.Trace LinkedProcess.Orderly .init t l) :
    (∀ p ∈ t, ∀ r ∈ p.2, r.Fine) ∧
    (history .spawn t).Nodup ∧
    (l.main = .returned →
      (∀ d : Deed, d.cause = some .find →
        history d t = history .find t ++ remaining (history .spawn t) (history .find t) ∧
        (history d t).Perm (history .spawn t)) ∧
      (∀ i ∈ history .spawn t, l.threads.pc i = some .done ∧ l.client i = some .released) ∧
      (∀ a, a ∉ l.queue.heap.nodes) ∧ l.queue.heap.allocs.Perm l.queue.heap.frees) := by
  have hspawned : (history .spawn t).Nodup := by
    obtain ⟨pre, post, ⟨-, hrecorded⟩ | hdrained⟩ := LinkedProcess.accounted h
    · exact hrecorded.spawned.1
    · exact hdrained.spawned.1
  refine ⟨LinkedProcess.reports_fine h, hspawned, ?_⟩
  intro hreturned
  obtain ⟨pre, post, ⟨hloop, -⟩ | hdrained⟩ := LinkedProcess.accounted h
  · rw [hreturned] at hloop
    cases hloop
  have hnone : pre ++ post = [] := by
    have hhere := hdrained.inv.here
    simp only [Process.Subject, LinkedProcess.shown, Process.within, LinkedProcess.bare, hreturned,
      MainPc.before, List.map_eq_nil_iff] at hhere
    exact hhere
  have hholds := hdrained.shows.holds
  rw [hnone] at hholds
  have hdequeued := hdrained.dequeued
  rw [hnone, List.map_nil, List.append_nil] at hdequeued
  have hsame : ∀ d : Deed, d.cause = some .find → history d t = history .dequeue t := by
    intro d hd
    by_cases hbehind : d.afterDequeue = true
    · have howed := hdrained.owed d hbehind
      rw [hreturned] at howed
      exact (howed.trans (List.append_nil _)).symm
    · cases d <;> first | rfl | exact absurd rfl hbehind | cases hd
  refine ⟨?_, ?_, ?_, ?_⟩
  · intro d hd
    rw [hsame d hd, hdequeued]
    exact ⟨rfl, remaining_perm hspawned hdrained.found.1 hdrained.found.2⟩
  · intro i hi
    exact (LinkedProcess.released hdrained.inv (by rw [hnone]; exact List.not_mem_nil)
      (by simp [LinkedProcess.shown, Process.within, LinkedProcess.bare, hreturned, MainPc.before,
        MainPc.subject]) (hdrained.spawned.2 i hi)).symm
  · intro a ha
    cases (hholds.live a).1 ha
  · have hbalance := hholds.balance
    rwa [List.map_nil, List.map_nil, List.append_nil] at hbalance

instance LinkedProcess.decidableOrderly (l : LinkedProcess) (a : LinkedAct) :
    Decidable (l.Orderly a) :=
  inferInstanceAs (Decidable (_ ∧ _))

/-- A whole run: the first of two handlers returns in a pass, then a signal arrives, and the second
one returns when `main` is in the drain. -/
def secondDrained : List LinkedAct :=
  twoClients ++ .enqueue (some 9) :: firstReturns ++
    [.handler 1 (.fopen true), .signal, .main .go, .handler 1 (.recv .closed), .handler 1 .fclose,
      .handler 1 .unlock, .handler 1 .close, .handler 1 .clear, .main .go, .handler 1 .complete] ++
    List.replicate 5 (.main .go)

theorem nothing_left_behind_secondDrained :
    ∃ t l, linkedProcess.Trace LinkedProcess.Orderly .init t l ∧ l.main = .returned ∧
      history .spawn t = [0, 1] ∧ history .find t = [0] ∧ history .join t = [0, 1] ∧
      l.client 1 = some .released := by
  have hrun : (linkedProcess.run .init secondDrained).map (fun p =>
      (p.1.main, history .spawn (secondDrained.zip p.2), history .find (secondDrained.zip p.2)))
        = some (.returned, [0, 1], [0]) := by decide +kernel
  obtain ⟨⟨l, os⟩, hl, hend⟩ := Option.map_eq_some_iff.1 hrun
  obtain ⟨hmain, hhistory⟩ := Prod.mk.inj hend
  obtain ⟨hspawn, hfind⟩ := Prod.mk.inj hhistory
  have htrace : linkedProcess.Trace LinkedProcess.Orderly .init (secondDrained.zip os) l :=
    Machine.trace_of_run hl (by decide +kernel)
  obtain ⟨hreleased, hsettled, -⟩ := (nothing_left_behind htrace).2.2 hmain
  have hjoin := (hreleased .join rfl).1
  rw [hspawn, hfind] at hjoin
  exact ⟨_, l, htrace, hmain, hspawn, hfind, hjoin, (hsettled 1 (by rw [hspawn]; decide)).2⟩

end Aesd
