/-
**The main thread with the queue in memory.**

In `MainThread` the queue is a list of connections, and the pass over it goes along a list of nodes.
Here `main` does what it does in the source: `queue_enqueue`, `queue_dequeue` and `queue_remove` of
`ThreadQueue` on a chain of nodes, and a pass with the variable `node`, which is set to the next
node before the instance in the node it was at is looked at.  `queue_remove` then walks along the
chain from its head, to free that node behind the back of `node`.

All other calls of `main`, and the handlers, are those of `MainThread`.  The lists in the control
points of `main` are empty here: what is still to be looked at is what `node` leads to.  The pointer
in a node is the number of the connection whose instance it is; the address of an instance is used
again only when it was freed, and then its node was taken out before.

That this is a run of `MainThread` is shown step by step, with the nodes on both sides of `node`:
the chain is `pre ++ post`, and `node` is where `post` starts.

* `LinkedProcess`, `LinkedProcess.step`, `linkedProcess` — the main thread and its handlers as a
  machine, with reports of what `main` does with the connections;
* `LinkedProcess.Shows` — the nodes before and behind the cursor;
* `LinkedProcess.Moves`, `LinkedProcess.Shows.step` — everything a step can do;
* `LinkedProcess.Moves.shown`, `linked_main_refines` — **it is a run of `main` on a list.**
-/

import Aesd.MainThread
import Aesd.ThreadQueue

set_option relaxedAutoImplicit false
set_option autoImplicit false

namespace Aesd

open NodeChain

/-! ### The state -/

/-- The main thread with the cursor `node` of its pass over the queue, the queue, and the rest. -/
structure LinkedProcess where
  main : MainPc
  node : Option ℕ
  isActive : Bool
  queue : ThreadQueue
  client : ℕ → Option Client
  threads : Threads

/-- The server before its first connection. -/
def LinkedProcess.init : LinkedProcess := ⟨.testing, none, true, .init, fun _ => none, .init⟩

/-- What `main` does with a connection. -/
inductive Deed where
  /-- `pthread_create` -/
  | spawn
  /-- `queue_enqueue` -/
  | enqueue
  /-- The pass over the queue looks at its instance. -/
  | visit
  /-- And reads `thread_completed` as `true`. -/
  | find
  /-- `free` of the thread data -/
  | freeData
  /-- `pthread_join` -/
  | join
  /-- `queue_remove` that returns `true`, or `queue_dequeue` -/
  | dequeue
  /-- `free` of the thread instance -/
  | freeInstance
  deriving DecidableEq

/-- What is reported of a step. -/
inductive Report where
  | did (d : Deed) (i : ℕ)
  | misuse (m : Misuse)
  /-- An access to a node that is not there, or a walk in circles. -/
  | fault (f : Fault)
  deriving DecidableEq

/-- Everything but the queue and the cursor. -/
def LinkedProcess.bare (l : LinkedProcess) : Process :=
  ⟨l.main, l.isActive, [], l.client, l.threads⟩

/-- Everything but the queue and the cursor becomes `s`. -/
def LinkedProcess.become (l : LinkedProcess) (s : Process) : LinkedProcess :=
  ⟨s.main, l.node, s.isActive, l.queue, s.client, s.threads⟩

/-! ### Steps -/

/-- `main` is not about to make a call on the queue. -/
def MainPc.queueless : MainPc → Bool
  | .enqueueing _ | .checking _ | .removing _ _ | .draining => false
  | _ => true

/-- What `main` does in a call that is not one on the queue. -/
def MainPc.deeds : MainPc → MainEvent → List Report
  | .creating i, .pthreadCreate true => [.did .spawn i]
  | .freeingData i _, .go | .freeThreadData i, .go => [.did .freeData i]
  | .joining i _, .go => [.did .join i]
  | .freeingInstance i _, .go | .freeThreadInstance i, .go => [.did .freeInstance i]
  | _, _ => []

/-- The pass over the queue reads `thread_completed` through the instance of a connection. -/
def Client.visit (c : Client) (i : ℕ) : List Report :=
  .did .visit i :: (if c.threadCompleted then [.did .find i] else []) ++
    (check c.instanceLive (.threadInstance i) ++ check c.dataLive (.data i)).map .misuse

/-- After a call on the queue; a fault in it ends the program. -/
def LinkedProcess.after {α : Type} (l : LinkedProcess) (r : Except Fault α)
    (k : α → Option (LinkedProcess × List Report)) : Option (LinkedProcess × List Report) :=
  match r with
  | .error f => some ({ l with main := .crashed }, [.fault f])
  | .ok x => k x

/-- The calls of `main` on the queue, but `queue_enqueue`. -/
def LinkedProcess.queueStep (l : LinkedProcess) : Option (LinkedProcess × List Report) :=
  match l.main with
  | .checking _ =>
      match l.node with
      | none => some ({ l with main := .testing }, [])
      | some a => l.after (l.queue.heap.load a) fun node =>
          match node.data with
          -- a node without an instance ends the pass
          | none => some ({ l with main := .testing }, [])
          | some i => do
              let c ← l.client i
              some ({ l with
                  main := if c.threadCompleted then .closing i (some []) else .checking []
                  node := node.next },
                c.visit i)
  | .removing i _ => l.after (queueRemove (some i) l.queue) fun (queue, removed) =>
      some ({ l with main := .freeingInstance i (some []), queue := queue },
        if removed then [.did .dequeue i] else [])
  | .draining => l.after (queueDequeue l.queue) fun (queue, data) =>
      match data with
      | none => some ({ l with main := .returned, queue := queue }, [])
      | some i => some ({ l with main := .closing i none, queue := queue }, [.did .dequeue i])
  | _ => none

/-- **`main`**, from one call to the next. -/
def LinkedProcess.mainStep (l : LinkedProcess) (e : MainEvent) :
    Option (LinkedProcess × List Report) :=
  if l.main.queueless then
    (l.bare.mainStep e).map fun p => (l.become p.1, l.main.deeds e ++ p.2.map .misuse)
  else
    match e with
    | .go => l.queueStep
    | _ => none

/-- `queue_enqueue`, and `queue_get_head` if it returns `true`. -/
def LinkedProcess.enqueueStep (l : LinkedProcess) (newNode : Option ℕ) :
    Option (LinkedProcess × List Report) :=
  match l.main with
  | .enqueueing i => l.after (queueEnqueue newNode (some i) l.queue) fun (queue, ok) =>
      if ok then
        some ({ l with main := .checking [], node := queue.head, queue := queue },
          [.did .enqueue i])
      else some ({ l with main := .killThread i, queue := queue }, [])
  | _ => none

/-- A step; `newNode` is what `malloc` returns to `queue_enqueue`. -/
inductive LinkedAct where
  | main (e : MainEvent)
  | enqueue (newNode : Option ℕ)
  | handler (i : ℕ) (e : Event)
  | signal
  | cancelled (i : ℕ)

def LinkedProcess.step (l : LinkedProcess) : LinkedAct → Option (LinkedProcess × List Report)
  | .main e => l.mainStep e
  | .enqueue newNode => l.enqueueStep newNode
  | .handler i e => (l.bare.handlerStep i e).map fun p => (l.become p.1, p.2.map .misuse)
  | .signal => some ({ l with isActive := false }, [])
  | .cancelled i => (l.bare.endStep i).map fun p => (l.become p.1, p.2.map .misuse)

/-- **The main thread with the queue in memory, and its handlers, as a machine.** -/
def linkedProcess : Machine LinkedProcess LinkedAct (List Report) where
  step := LinkedProcess.step

/-! ### The calls that are not on the queue -/

/-- `nodes` are behind the node that the pass over the queue is at. -/
def MainPc.before (nodes : List ℕ) : MainPc → MainPc
  | .checking _ => .checking nodes
  | .closing i rest => .closing i (rest.map fun _ => nodes)
  | .freeingData i rest => .freeingData i (rest.map fun _ => nodes)
  | .joining i rest => .joining i (rest.map fun _ => nodes)
  | .removing i _ => .removing i nodes
  | .freeingInstance i rest => .freeingInstance i (rest.map fun _ => nodes)
  | pc => pc

/-- The queue has these connections, and `nodes` are behind the cursor. -/
def Process.within (s : Process) (queue nodes : List ℕ) : Process :=
  { s with main := s.main.before nodes, queue := queue }

variable {s s' : Process}

/-- Two calls that go on with what they read. -/
theorem bind_some_congr {α β : Type} {r : Option α} {k k' : α → Option β} {x x' : β}
    (h : r >>= k = some x) (hk : ∀ c, k c = some x → k' c = some x') : r >>= k' = some x' := by
  obtain ⟨c, hc, h⟩ := Option.bind_eq_some_iff.1 h
  exact Option.bind_eq_some_iff.2 ⟨c, hc, hk c h⟩

/-- **A call that is not on the queue** does the same whatever the queue has. -/
theorem Process.mainStep_within {e : MainEvent} {o : List Misuse} (h : s.main.queueless = true)
    (hstep : s.mainStep e = some (s', o)) (queue nodes : List ℕ) :
    (s.within queue nodes).mainStep e = some (s'.within queue nodes, o) := by
  obtain ⟨main, isActive, q, client, threads⟩ := s
  cases main with
  | enqueueing | checking | removing | draining => cases h
  | testing =>
      cases e <;> cases hstep
      cases isActive <;> rfl
  | accepting =>
      cases e with
      | accept connection =>
          cases connection with
          | none =>
              cases hstep
              rfl
          | some i =>
              obtain ⟨hnew, hstep⟩ := Option.ite_none_right_eq_some.1 hstep
              cases hstep
              exact if_pos hnew
      | _ => cases hstep
  | allocatingData i | allocatingInstance i =>
      cases e with
      | malloc ok =>
          refine bind_some_congr hstep ?_
          intro c hc
          cases ok <;> cases hc <;> rfl
      | _ => cases hstep
  | creating i =>
      cases e with
      | pthreadCreate ok =>
          cases ok with
          | false =>
              cases hstep
              rfl
          | true =>
              refine bind_some_congr hstep ?_
              intro threads hc
              cases hc
              rfl
      | _ => cases hstep
  | closing i rest =>
      cases e with
      | go =>
          refine bind_some_congr hstep ?_
          intro c hc
          split at hc
          · next hfd =>
              cases hc
              exact if_pos hfd
          · next hfd =>
              cases hc
              exact if_neg hfd
      | _ => cases hstep
  | freeingData i rest | killThread i | freeThreadInstance i | freeThreadData i | closeClient i =>
      cases e with
      | go =>
          refine bind_some_congr hstep ?_
          intro c hc
          cases hc
          rfl
      | _ => cases hstep
  | joining i rest =>
      cases e with
      | go =>
          refine bind_some_congr hstep ?_
          intro c hc
          obtain ⟨hend, hc⟩ := Option.ite_none_right_eq_some.1 hc
          cases hc
          refine (if_pos hend).trans ?_
          cases rest <;> rfl
      | _ => cases hstep
  | freeingInstance i rest =>
      cases e with
      | go =>
          refine bind_some_congr hstep ?_
          intro c hc
          cases hc
          cases rest <;> rfl
      | _ => cases hstep
  | returned | crashed => cases hstep

/-- A step of `main`. -/
def ProcessAct.ofMain : ProcessAct → Bool
  | .main _ => true
  | _ => false

/-- **A step of another party** does the same whatever the queue has, and `main` stays where it
is. -/
theorem Process.step_other {a : ProcessAct} {o : List Misuse} (h : a.ofMain = false)
    (hstep : s.step a = some (s', o)) :
    s'.main = s.main ∧
      ∀ queue nodes, (s.within queue nodes).step a = some (s'.within queue nodes, o) := by
  cases a with
  | main e => cases h
  | handler i e =>
      constructor
      · obtain ⟨c, threads, pc, pc', -, -, -, rfl, -⟩ := Process.handlerStep_cases hstep
        rfl
      · intro queue nodes
        refine bind_some_congr hstep ?_
        intro c hc
        split at hc
        · cases hc
        · next hended =>
            refine (if_neg hended).trans (bind_some_congr hc ?_)
            intro threads hc
            cases hc
            rfl
  | signal =>
      cases hstep
      exact ⟨rfl, fun _ _ => rfl⟩
  | cancelled i =>
      constructor
      · obtain ⟨c, -, hstep⟩ := Option.bind_eq_some_iff.1 hstep
        obtain ⟨pc, -, hstep⟩ := Option.bind_eq_some_iff.1 hstep
        obtain ⟨-, hstep⟩ := Option.ite_none_right_eq_some.1 hstep
        cases hstep
        rfl
      · intro queue nodes
        refine bind_some_congr hstep fun c hc => bind_some_congr hc ?_
        intro pc hc
        obtain ⟨hend, hc⟩ := Option.ite_none_right_eq_some.1 hc
        cases hc
        exact if_pos hend

/-! ### The nodes on both sides of the cursor -/

/-- The main thread is in the pass over the queue. -/
def MainPc.inPass : MainPc → Bool
  | .checking _ | .closing _ (some _) | .freeingData _ (some _) | .joining _ (some _)
  | .removing _ _ | .freeingInstance _ (some _) => true
  | _ => false

/-- A node with a connection. -/
def entry (x : ℕ × ℕ) : ℕ × Ptr := (x.1, some x.2)

theorem head?_entry (l : List (ℕ × ℕ)) :
    (l.map entry).head?.map Prod.fst = l.head?.map Prod.fst := by
  cases l <;> rfl

theorem mem_map_entry {l : List (ℕ × ℕ)} {i : ℕ} :
    some i ∈ (l.map entry).map Prod.snd ↔ i ∈ l.map Prod.snd := by
  simp [entry]

theorem erase_before {pre₁ pre₂ post : List (ℕ × ℕ)} {a i : ℕ} (hfirst : i ∉ pre₁.map Prod.snd) :
    ((pre₁ ++ (a, i) :: pre₂ ++ post).map Prod.snd).erase i
      = (pre₁ ++ pre₂ ++ post).map Prod.snd := by
  rw [List.append_assoc, List.cons_append, erase_of_first hfirst, List.append_assoc]

/-- **The nodes of the queue**, with the connections in them, are `pre ++ post`; in the pass over
them, `post` are those that `node` leads to. -/
structure LinkedProcess.Shows (l : LinkedProcess) (pre post : List (ℕ × ℕ)) : Prop where
  holds : l.queue.Holds ((pre ++ post).map entry)
  cursor : l.main.inPass = true → l.node = post.head?.map Prod.fst

/-- The main thread with these connections in its queue, as in `MainThread`. -/
def LinkedProcess.shown (l : LinkedProcess) (pre post : List (ℕ × ℕ)) : Process :=
  l.bare.within ((pre ++ post).map Prod.snd) (post.map Prod.snd)

/-- Outside the pass nothing is asked of `node`. -/
theorem LinkedProcess.shows_outside {l : LinkedProcess} {pre post : List (ℕ × ℕ)}
    (hholds : l.queue.Holds ((pre ++ post).map entry)) (hout : l.main.inPass = false) :
    l.Shows pre post := by
  refine ⟨hholds, ?_⟩
  intro hpass
  rw [hout] at hpass
  cases hpass

theorem LinkedProcess.Shows.init : LinkedProcess.init.Shows [] [] :=
  LinkedProcess.shows_outside .init rfl

/-- The step of the main thread on a list. -/
def LinkedAct.shown : LinkedAct → ProcessAct
  | .main e => .main e
  | .enqueue newNode => .main (.queueEnqueue newNode.isSome)
  | .handler i e => .handler i e
  | .signal => .signal
  | .cancelled i => .cancelled i

variable {l l' : LinkedProcess} {pre post pre' post' : List (ℕ × ℕ)}

/-- **Everything a step can do**, when these are the nodes of the queue: what they are then, and the
reports. -/
inductive LinkedProcess.Moves (l : LinkedProcess) (pre post : List (ℕ × ℕ)) :
    LinkedAct → LinkedProcess → List (ℕ × ℕ) → List (ℕ × ℕ) → List Report → Prop
  | call (e : MainEvent) (s : Process) (o : List Misuse) : l.main.queueless = true →
      l.bare.mainStep e = some (s, o) →
      Moves l pre post (.main e) (l.become s) pre post (l.main.deeds e ++ o.map .misuse)
  | enqueued (i a : ℕ) (queue : ThreadQueue) : l.main = .enqueueing i →
      Moves l pre post (.enqueue (some a))
        { l with main := .checking [], node := queue.head, queue := queue } []
        (pre ++ post ++ [(a, i)]) [.did .enqueue i]
  | enqueueFailed (i : ℕ) : l.main = .enqueueing i →
      Moves l pre post (.enqueue none) { l with main := .killThread i } pre post []
  | passEnds (nodes : List ℕ) : l.main = .checking nodes → post = [] →
      Moves l pre post (.main .go) { l with main := .testing } pre [] []
  | visited (nodes : List ℕ) (i a : ℕ) (rest : List (ℕ × ℕ)) (c : Client) :
      l.main = .checking nodes → post = (a, i) :: rest → l.client i = some c →
      Moves l pre post (.main .go)
        { l with
          main := if c.threadCompleted then .closing i (some []) else .checking []
          node := rest.head?.map Prod.fst }
        (pre ++ [(a, i)]) rest
        (c.visit i)
  | removed (nodes : List ℕ) (i a : ℕ) (pre₁ pre₂ : List (ℕ × ℕ)) (queue : ThreadQueue) :
      l.main = .removing i nodes → pre = pre₁ ++ (a, i) :: pre₂ → i ∉ pre₁.map Prod.snd →
      Moves l pre post (.main .go)
        { l with main := .freeingInstance i (some []), queue := queue } (pre₁ ++ pre₂) post
        [.did .dequeue i]
  | drained : l.main = .draining → pre ++ post = [] →
      Moves l pre post (.main .go) { l with main := .returned } [] [] []
  | dequeued (i a : ℕ) (rest : List (ℕ × ℕ)) (queue : ThreadQueue) :
      l.main = .draining → pre ++ post = (a, i) :: rest →
      Moves l pre post (.main .go) { l with main := .closing i none, queue := queue } [] rest
        [.did .dequeue i]
  | other (a : LinkedAct) (s : Process) (o : List Misuse) : a.shown.ofMain = false →
      l.bare.step a.shown = some (s, o) →
      Moves l pre post a (l.become s) pre post (o.map .misuse)

/-- The node that `post` starts with. -/
theorem LinkedProcess.Shows.load {a i : ℕ} (h : l.Shows pre ((a, i) :: post)) :
    l.queue.heap.load a = .ok ⟨some i, post.head?.map Prod.fst⟩ := by
  have hchain := h.holds.chain
  rw [List.map_append, List.map_cons] at hchain
  obtain ⟨r, -, rfl, next, ha, hpost⟩ := leads_append.1 hchain
  rw [← head?_entry, ← hpost.start]
  exact NodeHeap.load_of_cell ha

/-- **`queue_remove` of a connection before the cursor.** -/
theorem LinkedProcess.Shows.queueRemove {i : ℕ} (h : l.Shows pre post)
    (hin : i ∈ (pre ++ post).map Prod.snd) (hout : i ∉ post.map Prod.snd) :
    ∃ a pre₁ pre₂ queue, pre = pre₁ ++ (a, i) :: pre₂ ∧ i ∉ pre₁.map Prod.snd ∧
      Aesd.queueRemove (some i) l.queue = .ok (queue, true) ∧
      queue.Holds ((pre₁ ++ pre₂ ++ post).map entry) := by
  rcases h.holds.queueRemove (some i) with ⟨hnone, -⟩ | ⟨p, a, r, queue, heq, hp, hcall, hholds⟩
  · exact absurd (mem_map_entry.2 hin) hnone
  · obtain ⟨pre₁, rest, hrest, rfl, hmap⟩ := List.map_eq_append_iff.1 heq
    obtain ⟨x, r', rfl, hx, rfl⟩ := List.map_eq_cons_iff.1 hmap
    obtain ⟨rfl, hxi⟩ := Prod.mk.inj hx
    obtain rfl := Option.some.inj hxi
    rw [mem_map_entry] at hp
    -- the node is not behind the cursor
    rcases List.append_eq_append_iff.1 hrest with ⟨m, rfl, rfl⟩ | ⟨m, rfl, hm⟩
    · exact absurd (by simp) hout
    · cases m with
      | nil =>
          obtain rfl : x :: r' = post := hm
          exact absurd (by simp) hout
      | cons y m =>
          obtain ⟨rfl, rfl⟩ := List.cons.inj hm
          refine ⟨x.1, pre₁, m, queue, rfl, hp, hcall, ?_⟩
          rw [List.append_assoc, List.map_append]
          exact hholds

/-- `malloc` returns no node that is in use. -/
def LinkedProcess.Fresh (l : LinkedProcess) : LinkedAct → Prop
  | .enqueue (some a) => a ∉ l.queue.heap.nodes
  | _ => True

instance (l : LinkedProcess) : (a : LinkedAct) → Decidable (l.Fresh a)
  | .enqueue (some _) => inferInstanceAs (Decidable (¬ _))
  | .enqueue none | .main _ | .handler _ _ | .signal | .cancelled _ => isTrue trivial

/-- A call that is not on the queue does not begin the pass over it. -/
theorem Process.mainStep_inPass {e : MainEvent} {o : List Misuse} (h : s.main.queueless = true)
    (hstep : s.mainStep e = some (s', o)) (hpass : s'.main.inPass = true) :
    s.main.inPass = true := by
  cases Process.mainStep_moves hstep with
  | close i rest c hmain | closed i rest c hmain | freeData i rest c hmain | join i rest c hmain
  | freeInstance i rest c hmain =>
      rw [hmain]
      cases rest with
      | none => cases hpass
      | some nodes => rfl
  | enqueued i hmain | passEnds hmain | checked i nodes c hmain | remove i nodes hmain =>
      rw [hmain] at h
      cases h
  | test =>
      cases hactive : s.isActive <;> simp [hactive, MainPc.inPass] at hpass
  | _ => cases hpass

theorem LinkedProcess.Shows.mainStep {e : MainEvent} {o : List Report} (h : l.Shows pre post)
    (hinv : (l.shown pre post).Inv) (hstep : l.mainStep e = some (l', o)) :
    ∃ pre' post', l.Moves pre post (.main e) l' pre' post' o ∧ l'.Shows pre' post' := by
  unfold LinkedProcess.mainStep at hstep
  split at hstep
  next hmain =>
    obtain ⟨⟨s, o'⟩, hs, hstep⟩ := Option.map_eq_some_iff.1 hstep
    cases hstep
    exact ⟨pre, post, .call e s o' hmain hs, h.holds,
      fun hpass => h.cursor (Process.mainStep_inPass hmain hs hpass)⟩
  split at hstep
  · unfold LinkedProcess.queueStep at hstep
    split at hstep
    · next nodes hmain =>
        have hcursor := h.cursor (by rw [hmain]; rfl)
        split at hstep
        · next hnode =>
            cases hstep
            obtain rfl : post = [] := by
              rw [hnode] at hcursor
              cases post with
              | nil => rfl
              | cons x rest => cases hcursor
            exact ⟨pre, [], .passEnds nodes hmain rfl, LinkedProcess.shows_outside h.holds rfl⟩
        · next a hnode =>
            rw [hnode] at hcursor
            cases post with
            | nil => cases hcursor
            | cons x rest =>
                obtain ⟨b, i⟩ := x
                obtain rfl : a = b := Option.some.inj hcursor
                rw [h.load] at hstep
                obtain ⟨c, hc, hstep⟩ := Option.bind_eq_some_iff.1 hstep
                cases hstep
                refine ⟨pre ++ [(a, i)], rest, .visited nodes i a rest c hmain rfl hc, ?_,
                  fun _ => rfl⟩
                rw [← List.append_cons]
                exact h.holds
    · next i nodes hmain =>
        have hhere := hinv.here
        simp only [Process.Subject, LinkedProcess.shown, Process.within, LinkedProcess.bare, hmain,
          MainPc.before] at hhere
        obtain ⟨a, pre₁, pre₂, queue, rfl, hfirst, hcall, hholds⟩ :=
          h.queueRemove hhere.1.1 hhere.1.2.1
        rw [hcall] at hstep
        cases hstep
        have hcursor := h.cursor (by rw [hmain]; rfl)
        exact ⟨pre₁ ++ pre₂, post, .removed nodes i a pre₁ pre₂ queue hmain rfl hfirst, hholds,
          fun _ => hcursor⟩
    · next hmain =>
        have hholds := h.holds
        cases hnodes : pre ++ post with
        | nil =>
            rw [hnodes] at hholds
            have hhead : l.queue.head = none := hholds.chain
            have hcall : queueDequeue l.queue = .ok (l.queue, none) := by
              rw [queueDequeue, hhead]
            rw [hcall] at hstep
            cases hstep
            exact ⟨[], [], .drained hmain hnodes, LinkedProcess.shows_outside hholds rfl⟩
        | cons x rest =>
            rw [hnodes] at hholds
            obtain ⟨queue, hcall, hholds'⟩ := hholds.queueDequeue
            rw [hcall] at hstep
            cases hstep
            exact ⟨[], rest, .dequeued x.2 x.1 rest queue hmain hnodes,
              LinkedProcess.shows_outside hholds' rfl⟩
    · cases hstep
  · cases hstep

theorem LinkedProcess.Shows.enqueueStep {newNode : Option ℕ} {o : List Report}
    (h : l.Shows pre post) (hfresh : l.Fresh (.enqueue newNode))
    (hstep : l.enqueueStep newNode = some (l', o)) :
    ∃ pre' post', l.Moves pre post (.enqueue newNode) l' pre' post' o ∧ l'.Shows pre' post' := by
  unfold LinkedProcess.enqueueStep at hstep
  split at hstep
  · next i hmain =>
      cases newNode with
      | none =>
          cases hstep
          exact ⟨pre, post, .enqueueFailed i hmain, LinkedProcess.shows_outside h.holds rfl⟩
      | some a =>
          obtain ⟨queue, hcall, hholds⟩ := h.holds.queueEnqueue hfresh (some i)
          rw [hcall] at hstep
          cases hstep
          have hnodes : (pre ++ post ++ [(a, i)]).map entry
              = (pre ++ post).map entry ++ [(a, some i)] := List.map_append
          rw [← hnodes] at hholds
          refine ⟨[], pre ++ post ++ [(a, i)], .enqueued i a queue hmain, hholds, ?_⟩
          intro _
          exact hholds.chain.start.trans (head?_entry _)
  · cases hstep

theorem LinkedProcess.Shows.other {a : LinkedAct} {s : Process} {o : List Misuse}
    (h : l.Shows pre post) (hother : a.shown.ofMain = false)
    (hs : l.bare.step a.shown = some (s, o)) :
    ∃ pre' post', l.Moves pre post a (l.become s) pre' post' (o.map .misuse) ∧
      (l.become s).Shows pre' post' := by
  have hmain : s.main = l.main := (Process.step_other hother hs).1
  exact ⟨pre, post, .other a s o hother hs, h.holds, fun hpass => h.cursor (hmain ▸ hpass)⟩

/-- **What a step does to the nodes of the queue.** -/
theorem LinkedProcess.Shows.step {a : LinkedAct} {o : List Report} (h : l.Shows pre post)
    (hinv : (l.shown pre post).Inv) (hfresh : l.Fresh a) (hstep : l.step a = some (l', o)) :
    ∃ pre' post', l.Moves pre post a l' pre' post' o ∧ l'.Shows pre' post' := by
  cases a with
  | main e => exact h.mainStep hinv hstep
  | enqueue newNode => exact h.enqueueStep hfresh hstep
  | handler i e =>
      obtain ⟨⟨s, o'⟩, hs, hstep⟩ := Option.map_eq_some_iff.1 hstep
      cases hstep
      exact h.other rfl hs
  | signal =>
      cases hstep
      exact h.other (a := .signal) rfl rfl
  | cancelled i =>
      obtain ⟨⟨s, o'⟩, hs, hstep⟩ := Option.map_eq_some_iff.1 hstep
      cases hstep
      exact h.other rfl hs

/-! ### The run on a list -/

def Report.toMisuse : Report → Option Misuse
  | .misuse m => some m
  | _ => none

/-- What must not happen, among the reports. -/
def misuses (o : List Report) : List Misuse := o.filterMap Report.toMisuse

@[simp] theorem misuses_append (o o' : List Report) :
    misuses (o ++ o') = misuses o ++ misuses o' := List.filterMap_append

@[simp] theorem misuses_map (o : List Misuse) : misuses (o.map .misuse) = o := by
  induction o with
  | nil => rfl
  | cons m o ih => exact congrArg (m :: ·) ih

@[simp] theorem misuses_deeds (pc : MainPc) (e : MainEvent) : misuses (pc.deeds e) = [] := by
  unfold MainPc.deeds
  split <;> rfl

/-- **A step is a step of the main thread on a list.** -/
theorem LinkedProcess.Moves.shown {a : LinkedAct} {o : List Report}
    (h : l.Moves pre post a l' pre' post' o) :
    (l.shown pre post).step a.shown = some (l'.shown pre' post', misuses o) := by
  cases h with
  | call e s o' hmain hs =>
      rw [misuses_append, misuses_deeds, misuses_map]
      exact Process.mainStep_within hmain hs _ _
  | other _ s o' hother hs =>
      rw [misuses_map]
      exact (Process.step_other hother hs).2 _ _
  | enqueued i a queue hmain =>
      have hids : (pre ++ post ++ [(a, i)]).map Prod.snd = (pre ++ post).map Prod.snd ++ [i] :=
        List.map_append
      simp only [LinkedProcess.shown, LinkedProcess.bare, Process.within, hmain, MainPc.before,
        List.nil_append, hids]
      rfl
  | enqueueFailed i hmain =>
      simp only [LinkedProcess.shown, LinkedProcess.bare, Process.within, hmain, MainPc.before]
      rfl
  | drained hmain hnodes =>
      simp only [LinkedProcess.shown, LinkedProcess.bare, Process.within, hmain, MainPc.before,
        hnodes]
      rfl
  | passEnds nodes hmain hpost =>
      subst hpost
      simp only [LinkedProcess.shown, LinkedProcess.bare, Process.within, hmain, MainPc.before]
      rfl
  | visited nodes i a _ c hmain hpost hc =>
      subst hpost
      simp only [LinkedProcess.shown, LinkedProcess.bare, Process.within, hmain, MainPc.before]
      refine Option.bind_eq_some_iff.2 ⟨c, hc, ?_⟩
      rw [List.append_cons pre (a, i) post', Client.visit, misuses_append, misuses_map]
      cases c.threadCompleted <;> rfl
  | removed nodes i a pre₁ pre₂ queue hmain hpre hfirst =>
      subst hpre
      have hids : ((pre₁ ++ (a, i) :: pre₂ ++ post).map Prod.snd).erase i
          = (pre₁ ++ pre₂ ++ post).map Prod.snd := erase_before hfirst
      simp only [LinkedProcess.shown, LinkedProcess.bare, Process.within, hmain, MainPc.before,
        ← hids]
      rfl
  | dequeued i a _ queue hmain hnodes =>
      simp only [LinkedProcess.shown, LinkedProcess.bare, Process.within, hmain, MainPc.before,
        hnodes]
      rfl

/-- Reports of what was done, and nothing else. -/
def Report.Fine : Report → Prop
  | .did _ _ => True
  | _ => False

theorem MainPc.deeds_fine (pc : MainPc) (e : MainEvent) : ∀ r ∈ pc.deeds e, r.Fine := by
  unfold MainPc.deeds
  split <;> simp [Report.Fine]

/-- A step reports what was done and misuses, and no faults. -/
theorem LinkedProcess.Moves.fine {a : LinkedAct} {o : List Report}
    (h : l.Moves pre post a l' pre' post' o) (hmisuses : misuses o = []) :
    ∀ r ∈ o, r.Fine := by
  cases h with
  | call e s o' =>
      rw [misuses_append, misuses_deeds, misuses_map] at hmisuses
      subst hmisuses
      simpa using MainPc.deeds_fine l.main e
  | visited nodes i a rest c =>
      rw [Client.visit, misuses_append, misuses_map] at hmisuses
      rw [Client.visit, (List.append_eq_nil_iff.1 hmisuses).2]
      cases c.threadCompleted <;> simp [Report.Fine]
  | other _ s o' =>
      rw [misuses_map] at hmisuses
      subst hmisuses
      exact nofun
  | enqueued | removed | dequeued => simp [Report.Fine]
  | enqueueFailed | passEnds | drained => exact nofun

/-! ### Runs -/

/-- Nothing fails, `malloc` returns no node that is in use, and the shutdown meets no handler at
work. -/
def LinkedProcess.Orderly (l : LinkedProcess) (a : LinkedAct) : Prop :=
  l.Fresh a ∧ l.bare.Orderly a.shown

theorem Process.Orderly.within {a : ProcessAct} (h : s.Orderly a) (queue nodes : List ℕ) :
    (s.within queue nodes).Orderly a := by
  obtain ⟨main, isActive, q, client, threads⟩ := s
  refine ⟨h.1, ?_⟩
  cases a with
  | main e =>
      cases main with
      | closing i rest | freeingData i rest =>
          cases rest with
          | none => exact h.2
          | some nodes => trivial
      | _ => trivial
  | _ => trivial

/-- **What a step does, when nothing fails**: it reports nothing but what was done. -/
theorem LinkedProcess.Shows.orderly {a : LinkedAct} {o : List Report} (h : l.Shows pre post)
    (hinv : (l.shown pre post).Inv) (hok : l.Orderly a) (hstep : l.step a = some (l', o)) :
    ∃ pre' post', l.Moves pre post a l' pre' post' o ∧ l'.Shows pre' post' ∧
      (l'.shown pre' post').Inv ∧ ∀ r ∈ o, r.Fine := by
  obtain ⟨pre', post', hmoves, hshows⟩ := h.step hinv hok.1 hstep
  obtain ⟨hinv', hmisuses⟩ := hinv.step (hok.2.within _ _) hmoves.shown
  exact ⟨pre', post', hmoves, hshows, hinv', hmoves.fine hmisuses⟩

/-- `s` has the connections of the nodes in its queue, and what it needs. -/
def LinkedProcess.Sound (l : LinkedProcess) (s : Process) : Prop :=
  ∃ pre post, l.Shows pre post ∧ s = l.shown pre post ∧ s.Inv

theorem LinkedProcess.Sound.init : LinkedProcess.init.Sound .init := ⟨[], [], .init, rfl, .init⟩

/-- **Nothing is touched that was freed**, in a run in which nothing fails and the shutdown meets no
handler at work: no node, no thread data and no thread instance. -/
theorem LinkedProcess.reports_fine {t : List (LinkedAct × List Report)}
    (h : linkedProcess.Trace LinkedProcess.Orderly .init t l) : ∀ p ∈ t, ∀ r ∈ p.2, r.Fine := by
  refine (h.invariant_outputs (I := fun l => ∃ s, l.Sound s) (O := fun o => ∀ r ∈ o, r.Fine)
    ⟨_, .init⟩ ?_).2
  rintro l a l' o ⟨_, pre, post, hshows, rfl, hinv⟩ hok hstep
  obtain ⟨pre', post', -, hshows', hinv', hfine⟩ := hshows.orderly hinv hok hstep
  exact ⟨⟨_, pre', post', hshows', rfl, hinv'⟩, hfine⟩

/-- **The main thread with the queue in memory refines the one with a list.**  Every run in which
nothing fails and the shutdown meets no handler at work is a run of `process`, with the connections
of the nodes as the queue; and its reports are of what was done. -/
theorem linked_main_refines {t : List (LinkedAct × List Report)}
    (h : linkedProcess.Trace LinkedProcess.Orderly .init t l) :
    (∃ s, l.Sound s ∧
      process.Trace Process.Orderly .init (t.map fun p => (p.1.shown, misuses p.2)) s) ∧
    ∀ p ∈ t, ∀ r ∈ p.2, r.Fine := by
  refine ⟨?_, LinkedProcess.reports_fine h⟩
  obtain ⟨s, htrace, hsound⟩ := h.refines (a := process) (R := LinkedProcess.Sound)
    (f := LinkedAct.shown) (g := misuses) .init (by
      rintro l _ a l' o ⟨pre, post, hshows, rfl, hinv⟩ hok hstep
      obtain ⟨pre', post', hmoves, hshows', hinv', -⟩ := hshows.orderly hinv hok hstep
      exact ⟨hok.2.within _ _, _, hmoves.shown, pre', post', hshows', rfl, hinv'⟩)
  exact ⟨s, hsound, htrace⟩

end Aesd
