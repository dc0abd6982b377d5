/-
**The main thread next to its handlers: `main` of `server/aesdsocket.c`, from the accept loop on.**

What a connection needs — its descriptor, its thread data, its thread instance and its thread — goes
from hand to hand.  The main thread obtains it, gives the thread data to the handler, puts the
instance into the queue, and releases all of it: in the pass over the queue behind every accepted
connection, for the handlers that have set `thread_completed`, and after the loop for those that are
still in the queue.  If setting up a connection fails half-way, it goes through the labels at the
end of the loop.

The main thread is an automaton here, as the handlers are in `ConnectionHandler`, and a step is one
of its calls, a call of a handler, a signal, or the end of a handler that was cancelled; they come
in any order.  What must not happen — an access to data that was freed, a descriptor that is closed
again — does not stop a run but is the output of the step in which it happens.

The queue is a list of connections: `queue_enqueue` adds one at its end, `queue_dequeue` takes the
first one, `queue_remove` removes one, and the pass over the queue reads the node behind the one it
looks at before it removes that.  That a chain of nodes in memory does the same is shown in
`AcceptLoop`.

* `MainPc`, `Client`, `Process` — the state;
* `Process.mainStep`, `process` — the main thread and its handlers as a machine;
* `Process.mainStep_moves` — everything a call of `main` can do;
* `Client.running`, `Process.Inv` — where a connection is and what it has, when nothing fails and
  the shutdown meets no handler at work;
* `Process.Orderly`, `resources_released` — **what is needed for everything to be released once.**
-/

import Aesd.FileMutex

set_option relaxedAutoImplicit false
set_option autoImplicit false

namespace Aesd

/-! ### The state -/

/-- A control point of `main`: what it is about to do. -/
inductive MainPc where
  /-- `while(is_active)` -/
  | testing
  /-- `accept` -/
  | accepting
  /-- `malloc` of the thread data -/
  | allocatingData (i : ℕ)
  /-- `malloc` of the thread instance, with the `memset` behind it -/
  | allocatingInstance (i : ℕ)
  /-- `pthread_create` -/
  | creating (i : ℕ)
  /-- `queue_enqueue` -/
  | enqueueing (i : ℕ)
  /-- the pass over the queue, at the first of these nodes -/
  | checking (nodes : List ℕ)
  /-- `close` of the descriptor, unless `client_fd` is `-1`; in the pass over the queue `rest` are
  the nodes behind, after the loop there are none -/
  | closing (i : ℕ) (rest : Option (List ℕ))
  /-- `free` of the thread data -/
  | freeingData (i : ℕ) (rest : Option (List ℕ))
  /-- `pthread_join` -/
  | joining (i : ℕ) (rest : Option (List ℕ))
  /-- `queue_remove` -/
  | removing (i : ℕ) (nodes : List ℕ)
  /-- `free` of the thread instance -/
  | freeingInstance (i : ℕ) (rest : Option (List ℕ))
  /-- `listener_kill_thread` -/
  | killThread (i : ℕ)
  /-- `listener_free_thread_instance` -/
  | freeThreadInstance (i : ℕ)
  /-- `listener_free_thread_data` -/
  | freeThreadData (i : ℕ)
  /-- `listener_close_client` -/
  | closeClient (i : ℕ)
  /-- `queue_dequeue`, after the loop -/
  | draining
  /-- behind the last thread -/
  | returned
  /-- ended by a fault -/
  | crashed
  deriving DecidableEq

/-- What belongs to a connection. -/
structure Client where
  /-- The descriptor is open. -/
  fdOpen : Bool
  /-- The thread data is allocated. -/
  dataLive : Bool
  /-- `client_fd` of the thread data is not `-1`. -/
  clientFd : Bool
  /-- `thread_completed` of the thread data. -/
  threadCompleted : Bool
  /-- The thread instance is allocated. -/
  instanceLive : Bool
  /-- The thread was joined. -/
  joined : Bool
  /-- `pthread_cancel` was called. -/
  cancelled : Bool
  /-- The thread ended because of that. -/
  ended : Bool
  deriving DecidableEq

/-- A connection that was just accepted. -/
def Client.accepted : Client := ⟨true, false, false, false, false, false, false, false⟩

/-- The main thread, `is_active`, the queue, the connections by their numbers, and the handlers. -/
structure Process where
  main : MainPc
  isActive : Bool
  queue : List ℕ
  client : ℕ → Option Client
  threads : Threads

/-- The server before its first connection. -/
def Process.init : Process := ⟨.testing, true, [], fun _ => none, .init⟩

/-- What must not happen. -/
inductive Misuse where
  /-- A null pointer is written through. -/
  | nullPointer
  /-- The thread data is accessed or freed after it was freed. -/
  | data (i : ℕ)
  /-- The descriptor is used or closed after it was closed. -/
  | descriptor (i : ℕ)
  /-- The thread instance is accessed or freed after it was freed, or freed before the thread was
  joined. -/
  | threadInstance (i : ℕ)
  /-- The thread is joined again. -/
  | thread (i : ℕ)
  deriving DecidableEq

/-- Nothing, or `m` unless `ok`. -/
def check (ok : Bool) (m : Misuse) : List Misuse := if ok then [] else [m]

@[simp] theorem check_true (m : Misuse) : check true m = [] := rfl

/-! ### Steps of the main thread -/

/-- A call of `main`, with its result. -/
inductive MainEvent where
  | accept (connection : Option ℕ)
  | malloc (ok : Bool)
  | pthreadCreate (ok : Bool)
  | queueEnqueue (ok : Bool)
  /-- Anything else. -/
  | go

/-- Connection `i` becomes `c`, and `main` goes on at `pc`. -/
def Process.goto (s : Process) (pc : MainPc) (i : ℕ) (c : Client) : Process :=
  { s with main := pc, client := Function.update s.client i (some c) }

/-- **`main`**, from one call to the next, and what must not happen but does. -/
def Process.mainStep (s : Process) (e : MainEvent) : Option (Process × List Misuse) :=
  match s.main, e with
  | .testing, .go => some ({ s with main := if s.isActive then .accepting else .draining }, [])
  | .accepting, .accept none => some ({ s with main := .testing }, [])
  | .accepting, .accept (some i) =>
      -- everything that belongs to a connection is new
      if s.client i = none ∧ s.threads.thread i = none then
        some (s.goto (.allocatingData i) i .accepted, [])
      else none
  | .allocatingData i, .malloc ok => do
      let c ← s.client i
      if ok then
        some (s.goto (.allocatingInstance i) i
          { c with dataLive := true, clientFd := true, threadCompleted := false }, [])
      else some ({ s with main := .closeClient i }, [])
  | .allocatingInstance i, .malloc ok => do
      let c ← s.client i
      if ok then some (s.goto (.creating i) i { c with instanceLive := true }, [])
      -- the instance is cleared before it is compared with `NULL`
      else some ({ s with main := .crashed }, [.nullPointer])
  | .creating i, .pthreadCreate ok =>
      if ok then do
        let threads ← s.threads.step true (.accept i)
        some ({ s with main := .enqueueing i, threads := threads }, [])
      else some ({ s with main := .freeThreadInstance i }, [])
  | .enqueueing i, .queueEnqueue ok =>
      if ok then
        some ({ s with main := .checking (s.queue ++ [i]), queue := s.queue ++ [i] }, [])
      else some ({ s with main := .killThread i }, [])
  | .checking [], .go => some ({ s with main := .testing }, [])
  | .checking (i :: nodes), .go => do
      let c ← s.client i
      some ({ s with
          main := if c.threadCompleted then .closing i (some nodes) else .checking nodes },
        check c.instanceLive (.threadInstance i) ++ check c.dataLive (.data i))
  | .closing i rest, .go => do
      let c ← s.client i
      if c.clientFd then
        some (s.goto (.freeingData i rest) i { c with fdOpen := false },
          check c.dataLive (.data i) ++ check c.fdOpen (.descriptor i))
      else some ({ s with main := .freeingData i rest }, check c.dataLive (.data i))
  | .freeingData i rest, .go => do
      let c ← s.client i
      some (s.goto (.joining i rest) i { c with dataLive := false }, check c.dataLive (.data i))
  | .joining i rest, .go => do
      let c ← s.client i
      if s.threads.pc i = some .done ∨ c.ended = true then
        some (s.goto (match rest with
            | some nodes => .removing i nodes
            | none => .freeingInstance i none) i { c with joined := true },
          check c.instanceLive (.threadInstance i) ++ check (!c.joined) (.thread i))
      else none
  | .removing i nodes, .go =>
      some ({ s with main := .freeingInstance i (some nodes), queue := s.queue.erase i }, [])
  | .freeingInstance i rest, .go => do
      let c ← s.client i
      some (s.goto (match rest with
          | some nodes => .checking nodes
          | none => .draining) i { c with instanceLive := false },
        check (c.instanceLive && c.joined) (.threadInstance i))
  | .killThread i, .go => do
      let c ← s.client i
      some (s.goto (.freeThreadInstance i) i { c with cancelled := true }, [])
  | .freeThreadInstance i, .go => do
      let c ← s.client i
      some (s.goto (.freeThreadData i) i { c with instanceLive := false },
        check c.instanceLive (.threadInstance i))
  | .freeThreadData i, .go => do
      let c ← s.client i
      some (s.goto (.closeClient i) i { c with dataLive := false }, check c.dataLive (.data i))
  | .closeClient i, .go => do
      let c ← s.client i
      some (s.goto .testing i { c with fdOpen := false }, check c.fdOpen (.descriptor i))
  | .draining, .go =>
      match s.queue with
      | [] => some ({ s with main := .returned }, [])
      | i :: queue => some ({ s with main := .closing i none, queue := queue }, [])
  | _, _ => none

/-- **Everything a call of `main` can do**, and what must not happen but does. -/
inductive Process.MainMoves (s : Process) : MainEvent → Process → List Misuse → Prop
  | test : s.main = .testing →
      MainMoves s .go { s with main := if s.isActive then .accepting else .draining } []
  | interrupted : s.main = .accepting →
      MainMoves s (.accept none) { s with main := .testing } []
  | accepted (i : ℕ) : s.main = .accepting → s.client i = none → s.threads.thread i = none →
      MainMoves s (.accept (some i)) (s.goto (.allocatingData i) i .accepted) []
  | dataAllocated (i : ℕ) (c : Client) : s.main = .allocatingData i → s.client i = some c →
      MainMoves s (.malloc true) (s.goto (.allocatingInstance i) i
        { c with dataLive := true, clientFd := true, threadCompleted := false }) []
  | dataFailed (i : ℕ) : s.main = .allocatingData i →
      MainMoves s (.malloc false) { s with main := .closeClient i } []
  | instanceAllocated (i : ℕ) (c : Client) : s.main = .allocatingInstance i →
      s.client i = some c →
      MainMoves s (.malloc true) (s.goto (.creating i) i { c with instanceLive := true }) []
  | instanceFailed (i : ℕ) : s.main = .allocatingInstance i →
      MainMoves s (.malloc false) { s with main := .crashed } [.nullPointer]
  | created (i : ℕ) (threads : Threads) : s.main = .creating i →
      s.threads.step true (.accept i) = some threads →
      MainMoves s (.pthreadCreate true) { s with main := .enqueueing i, threads := threads } []
  | createFailed (i : ℕ) : s.main = .creating i →
      MainMoves s (.pthreadCreate false) { s with main := .freeThreadInstance i } []
  | enqueued (i : ℕ) : s.main = .enqueueing i →
      MainMoves s (.queueEnqueue true)
        { s with main := .checking (s.queue ++ [i]), queue := s.queue ++ [i] } []
  | enqueueFailed (i : ℕ) : s.main = .enqueueing i →
      MainMoves s (.queueEnqueue false) { s with main := .killThread i } []
  | passEnds : s.main = .checking [] → MainMoves s .go { s with main := .testing } []
  | checked (i : ℕ) (nodes : List ℕ) (c : Client) : s.main = .checking (i :: nodes) →
      s.client i = some c →
      MainMoves s .go
        { s with main := if c.threadCompleted then .closing i (some nodes) else .checking nodes }
        (check c.instanceLive (.threadInstance i) ++ check c.dataLive (.data i))
  | close (i : ℕ) (rest : Option (List ℕ)) (c : Client) : s.main = .closing i rest →
      s.client i = some c → c.clientFd = true →
      MainMoves s .go (s.goto (.freeingData i rest) i { c with fdOpen := false })
        (check c.dataLive (.data i) ++ check c.fdOpen (.descriptor i))
  | closed (i : ℕ) (rest : Option (List ℕ)) (c : Client) : s.main = .closing i rest →
      s.client i = some c → c.clientFd = false →
      MainMoves s .go { s with main := .freeingData i rest } (check c.dataLive (.data i))
  | freeData (i : ℕ) (rest : Option (List ℕ)) (c : Client) : s.main = .freeingData i rest →
      s.client i = some c →
      MainMoves s .go (s.goto (.joining i rest) i { c with dataLive := false })
        (check c.dataLive (.data i))
  | join (i : ℕ) (rest : Option (List ℕ)) (c : Client) : s.main = .joining i rest →
      s.client i = some c → (s.threads.pc i = some .done ∨ c.ended = true) →
      MainMoves s .go
        (s.goto (match rest with
          | some nodes => .removing i nodes
          | none => .freeingInstance i none) i { c with joined := true })
        (check c.instanceLive (.threadInstance i) ++ check (!c.joined) (.thread i))
  | remove (i : ℕ) (nodes : List ℕ) : s.main = .removing i nodes →
      MainMoves s .go
        { s with main := .freeingInstance i (some nodes), queue := s.queue.erase i } []
  | freeInstance (i : ℕ) (rest : Option (List ℕ)) (c : Client) : s.main = .freeingInstance i rest →
      s.client i = some c →
      MainMoves s .go
        (s.goto (match rest with
          | some nodes => .checking nodes
          | none => .draining) i { c with instanceLive := false })
        (check (c.instanceLive && c.joined) (.threadInstance i))
  | kill (i : ℕ) (c : Client) : s.main = .killThread i → s.client i = some c →
      MainMoves s .go (s.goto (.freeThreadInstance i) i { c with cancelled := true }) []
  | undoInstance (i : ℕ) (c : Client) : s.main = .freeThreadInstance i → s.client i = some c →
      MainMoves s .go (s.goto (.freeThreadData i) i { c with instanceLive := false })
        (check c.instanceLive (.threadInstance i))
  | undoData (i : ℕ) (c : Client) : s.main = .freeThreadData i → s.client i = some c →
      MainMoves s .go (s.goto (.closeClient i) i { c with dataLive := false })
        (check c.dataLive (.data i))
  | undoClient (i : ℕ) (c : Client) : s.main = .closeClient i → s.client i = some c →
      MainMoves s .go (s.goto .testing i { c with fdOpen := false })
        (check c.fdOpen (.descriptor i))
  | returned : s.main = .draining → s.queue = [] →
      MainMoves s .go { s with main := .returned } []
  | dequeue (i : ℕ) (queue : List ℕ) : s.main = .draining → s.queue = i :: queue →
      MainMoves s .go { s with main := .closing i none, queue := queue } []

theorem Process.mainStep_moves {s s' : Process} {e : MainEvent} {o : List Misuse}
    (h : s.mainStep e = some (s', o)) : s.MainMoves e s' o := by
  unfold Process.mainStep at h
  split at h
  · next hmain =>
      cases h
      exact .test hmain
  · next hmain =>
      cases h
      exact .interrupted hmain
  · next i hmain =>
      split at h
      · next hnew =>
          cases h
          exact .accepted i hmain hnew.1 hnew.2
      · cases h
  · next i ok hmain =>
      obtain ⟨c, hc, h⟩ := Option.bind_eq_some_iff.1 h
      cases ok with
      | true =>
          cases h
          exact .dataAllocated i c hmain hc
      | false =>
          cases h
          exact .dataFailed i hmain
  · next i ok hmain =>
      obtain ⟨c, hc, h⟩ := Option.bind_eq_some_iff.1 h
      cases ok with
      | true =>
          cases h
          exact .instanceAllocated i c hmain hc
      | false =>
          cases h
          exact .instanceFailed i hmain
  · next i ok hmain =>
      cases ok with
      | true =>
          obtain ⟨threads, hthreads, h⟩ := Option.bind_eq_some_iff.1 h
          cases h
          exact .created i threads hmain hthreads
      | false =>
          cases h
          exact .createFailed i hmain
  · next i ok hmain =>
      cases ok with
      | true =>
          cases h
          exact .enqueued i hmain
      | false =>
          cases h
          exact .enqueueFailed i hmain
  · next hmain =>
      cases h
      exact .passEnds hmain
  · next i nodes hmain =>
      obtain ⟨c, hc, h⟩ := Option.bind_eq_some_iff.1 h
      cases h
      exact .checked i nodes c hmain hc
  · next i rest hmain =>
      obtain ⟨c, hc, h⟩ := Option.bind_eq_some_iff.1 h
      split at h
      · next hfd =>
          cases h
          exact .close i rest c hmain hc hfd
      · next hfd =>
          cases h
          exact .closed i rest c hmain hc (Bool.eq_false_iff.2 hfd)
  · next i rest hmain =>
      obtain ⟨c, hc, h⟩ := Option.bind_eq_some_iff.1 h
      cases h
      exact .freeData i rest c hmain hc
  · next i rest hmain =>
      obtain ⟨c, hc, h⟩ := Option.bind_eq_some_iff.1 h
      split at h
      · next hend =>
          cases h
          exact .join i rest c hmain hc hend
      · cases h
  · next i nodes hmain =>
      cases h
      exact .remove i nodes hmain
  · next i rest hmain =>
      obtain ⟨c, hc, h⟩ := Option.bind_eq_some_iff.1 h
      cases h
      exact .freeInstance i rest c hmain hc
  · next i hmain =>
      obtain ⟨c, hc, h⟩ := Option.bind_eq_some_iff.1 h
      cases h
      exact .kill i c hmain hc
  · next i hmain =>
      obtain ⟨c, hc, h⟩ := Option.bind_eq_some_iff.1 h
      cases h
      exact .undoInstance i c hmain hc
  · next i hmain =>
      obtain ⟨c, hc, h⟩ := Option.bind_eq_some_iff.1 h
      cases h
      exact .undoData i c hmain hc
  · next i hmain =>
      obtain ⟨c, hc, h⟩ := Option.bind_eq_some_iff.1 h
      cases h
      exact .undoClient i c hmain hc
  · next hmain =>
      split at h
      · next hqueue =>
          cases h
          exact .returned hmain hqueue
      · next i queue hqueue =>
          cases h
          exact .dequeue i queue hmain hqueue
  · cases h

/-! ### Steps of the handlers -/

/-- The call goes through the thread data. -/
def Event.usesData : Event → Bool
  | .lock _ | .recv _ | .send _ | .unlock | .close | .clear | .complete => true
  | _ => false

/-- The call is one on the descriptor. -/
def Event.usesDescriptor : Event → Bool
  | .recv _ | .send _ | .close => true
  | _ => false

/-- What a call of its handler does to a connection. -/
def Client.after (c : Client) : Event → Client
  | .close => { c with fdOpen := false }
  | .clear => { c with clientFd := false }
  | .complete => { c with threadCompleted := true }
  | _ => c

/-- What must not happen but does in a call of handler `i`. -/
def Client.misuse (c : Client) (i : ℕ) (e : Event) : List Misuse :=
  check (!e.usesData || c.dataLive) (.data i) ++
    check (!e.usesDescriptor || c.fdOpen) (.descriptor i)

/-- A call of handler `i`, in either build. -/
def Process.handlerCall (charDevice : Bool) (s : Process) (i : ℕ) (e : Event) :
    Option (Process × List Misuse) := do
  let c ← s.client i
  if c.ended then none
  else
    let threads ← s.threads.step charDevice (.call i (.handler e))
    some ({ s with client := Function.update s.client i (some (c.after e)), threads := threads },
      c.misuse i e)

/-- A call of handler `i`, in the build for the device. -/
def Process.handlerStep (s : Process) (i : ℕ) (e : Event) : Option (Process × List Misuse) :=
  s.handlerCall true i e

/-- The handler is about to make a call at which a cancelled thread may end. -/
def Pc.cancellationPoint (pc : Pc) : Bool :=
  pc.fileOpen || pc = .opening || pc = .closingClient

/-- Handler `i` was cancelled, and ends; a mutex that it has stays locked. -/
def Process.endStep (s : Process) (i : ℕ) : Option (Process × List Misuse) := do
  let c ← s.client i
  let pc ← s.threads.pc i
  if c.cancelled ∧ c.ended = false ∧ pc.cancellationPoint then
    some ({ s with client := Function.update s.client i (some { c with ended := true }) }, [])
  else none

/-- A step: of the main thread, of a handler, the arrival of a signal, or the end of a handler that
was cancelled. -/
inductive ProcessAct where
  | main (e : MainEvent)
  | handler (i : ℕ) (e : Event)
  | signal
  | cancelled (i : ℕ)

def Process.step (s : Process) : ProcessAct → Option (Process × List Misuse)
  | .main e => s.mainStep e
  | .handler i e => s.handlerStep i e
  | .signal => some ({ s with isActive := false }, [])
  | .cancelled i => s.endStep i

/-- **The main thread and its handlers as a machine.** -/
def process : Machine Process ProcessAct (List Misuse) where
  step := Process.step

/-! ### What is needed -/

/-- No allocation fails, and every thread is created. -/
def Process.Allocates (_ : Process) : ProcessAct → Prop
  | .main (.malloc ok) | .main (.pthreadCreate ok) | .main (.queueEnqueue ok) => ok = true
  | _ => True

/-- After the loop, the main thread looks at `client_fd` only when the handler has set it to `-1`,
and frees the thread data only when the handler has set `thread_completed`. -/
def Process.Waits (s : Process) : ProcessAct → Prop
  | .main _ =>
      match s.main with
      | .closing i none => ∀ c ∈ s.client i, c.clientFd = false
      | .freeingData i none => ∀ c ∈ s.client i, c.threadCompleted = true
      | _ => True
  | _ => True

/-- Nothing fails, and the shutdown meets no handler at work. -/
def Process.Orderly (s : Process) (a : ProcessAct) : Prop := s.Allocates a ∧ s.Waits a

instance (s : Process) (a : ProcessAct) : Decidable (s.Allocates a) := by
  unfold Process.Allocates
  split <;> infer_instance

instance (s : Process) (a : ProcessAct) : Decidable (s.Waits a) := by
  unfold Process.Waits
  split
  · split <;> infer_instance
  · infer_instance

instance (s : Process) (a : ProcessAct) : Decidable (s.Orderly a) :=
  inferInstanceAs (Decidable (_ ∧ _))

/-- A signal arrives while a handler waits for data. -/
def signalAtWork : List ProcessAct :=
  [.main .go, .main (.accept (some 0)), .main (.malloc true), .main (.malloc true),
    .main (.pthreadCreate true), .main (.queueEnqueue true), .handler 0 (.lock 0),
    .handler 0 (.fopen true), .main .go, .main .go, .main .go, .signal, .main (.accept none),
    .main .go, .main .go, .main .go, .main .go, .handler 0 (.recv .failed)]

/-- The main thread closes the descriptor of a handler at work and frees its thread data, and the
handler goes on with both. -/
theorem shutdown_frees_live_data :
    ∃ t s, process.Trace Process.Allocates Process.init t s ∧
      ∃ p ∈ t, p.2 = [.data 0, .descriptor 0] := by
  have hrun : (process.run Process.init signalAtWork).map
      (fun p => (signalAtWork.zip p.2).getLast?.map Prod.snd)
        = some (some [.data 0, .descriptor 0]) := by decide
  obtain ⟨⟨s, os⟩, hrun, hlast⟩ := Option.map_eq_some_iff.1 hrun
  obtain ⟨p, hp, hmisuse⟩ := Option.map_eq_some_iff.1 hlast
  exact ⟨_, s, Machine.trace_of_run hrun (by decide), p, List.mem_of_getLast? hp, hmisuse⟩

/-! ### Where a connection is -/

/-- What a connection has while its handler is at work. -/
def Client.serving : Client := ⟨true, true, true, false, true, false, false, false⟩

/-- What a connection has when its handler is at `pc`. -/
def Client.running : Pc → Client
  | .clearing => { Client.serving with fdOpen := false }
  | .completing => { Client.serving with fdOpen := false, clientFd := false }
  | .done => { Client.serving with fdOpen := false, clientFd := false, threadCompleted := true }
  | _ => .serving

/-- A connection of which everything was released. -/
def Client.released : Client :=
  { Client.running .done with dataLive := false, instanceLive := false, joined := true }

theorem Client.running_of_phase (pc : Pc) (h : pc.phase ≠ .after) :
    Client.running pc = .serving := by
  cases pc <;> first | rfl | exact absurd rfl h

@[simp] theorem Client.running_ended (pc : Pc) : (Client.running pc).ended = false := by
  cases pc <;> rfl

/-- A handler has set `thread_completed` exactly when it has returned. -/
theorem Client.running_completed {pc : Pc} :
    (Client.running pc).threadCompleted = true ↔ pc = .done := by
  cases pc <;> simp [Client.running, Client.serving]

/-- A handler that has set `client_fd` to `-1` has returned or is about to. -/
theorem Client.running_clientFd {pc : Pc} :
    (Client.running pc).clientFd = false ↔ pc = .completing ∨ pc = .done := by
  cases pc <;> simp [Client.running, Client.serving]

@[simp] theorem Client.running_dataLive (pc : Pc) : (Client.running pc).dataLive = true := by
  cases pc <;> rfl

@[simp] theorem Client.running_instanceLive (pc : Pc) :
    (Client.running pc).instanceLive = true := by
  cases pc <;> rfl

/-- **A call of a handler that has all it needs** leaves it with all it needs, and nothing happens
that must not. -/
theorem Client.running_step {charDevice : Bool} {pc pc' : Pc} {e : Event}
    (h : pc.next charDevice e = some pc') (i : ℕ) :
    (Client.running pc).after e = Client.running pc' ∧ (Client.running pc).misuse i e = [] := by
  cases Pc.next_moves h with
  | chunk bytes =>
      refine ⟨?_, rfl⟩
      rw [Client.running_of_phase (afterRecv ..) (by rw [afterRecv_phase]; exact nofun)]
      rfl
  | ioctl seek buffer n | fwrite buffer n =>
      refine ⟨?_, rfl⟩
      rw [Client.running_of_phase (afterChunk ..) (by rw [afterChunk_phase]; exact nofun)]
      rfl
  | lock | fopen | fseek | fread | send =>
      refine ⟨?_, rfl⟩
      split <;> rfl
  | flush => exact ⟨rfl, by simp [Client.misuse, Event.usesData, Event.usesDescriptor]⟩
  | closed | fclose | unlock | close | clear | complete | fill => exact ⟨rfl, rfl⟩

/-- The connection that the main thread is working on. -/
def MainPc.subject : MainPc → Option ℕ
  | .allocatingData i | .allocatingInstance i | .creating i | .enqueueing i | .closing i _
  | .freeingData i _ | .joining i _ | .removing i _ | .freeingInstance i _ | .killThread i
  | .freeThreadInstance i | .freeThreadData i | .closeClient i => some i
  | .testing | .accepting | .checking _ | .draining | .returned | .crashed => none

/-- The connection is unknown, or everything that belonged to it was released. -/
def Process.Settled (s : Process) (i : ℕ) : Prop :=
  (s.client i = none ∧ s.threads.thread i = none) ∨
    (s.client i = some .released ∧ s.threads.pc i = some .done)

/-- The connection has a handler, and what that needs. -/
def Process.Serves (s : Process) (i : ℕ) (pc : Pc) : Prop :=
  s.threads.pc i = some pc ∧ s.client i = some (.running pc)

/-- The nodes that are still to be looked at are in the queue. -/
def Pass (queue nodes : List ℕ) : Prop := nodes.Nodup ∧ ∀ j ∈ nodes, j ∈ queue

/-- The connection that is released is still in the queue, in front of the nodes that are to be
looked at, or was taken out of it after the loop. -/
def Releases (queue : List ℕ) (i : ℕ) : Option (List ℕ) → Prop
  | some nodes => i ∈ queue ∧ i ∉ nodes ∧ Pass queue nodes
  | none => i ∉ queue

/-- What there is of the connection that the main thread is working on. -/
def Process.Subject (s : Process) : Prop :=
  match s.main with
  | .testing | .accepting | .draining => True
  | .allocatingData i =>
      i ∉ s.queue ∧ s.threads.thread i = none ∧ s.client i = some .accepted
  | .allocatingInstance i =>
      i ∉ s.queue ∧ s.threads.thread i = none ∧
        s.client i = some { Client.serving with instanceLive := false }
  | .creating i => i ∉ s.queue ∧ s.threads.thread i = none ∧ s.client i = some .serving
  | .enqueueing i => i ∉ s.queue ∧ ∃ pc, s.Serves i pc
  | .checking nodes => Pass s.queue nodes
  | .closing i rest => Releases s.queue i rest ∧ ∃ pc, s.Serves i pc ∧ (rest ≠ none → pc = .done)
  | .freeingData i rest =>
      Releases s.queue i rest ∧ ∃ pc, s.Serves i pc ∧ (rest ≠ none → pc = .done)
  | .joining i rest =>
      Releases s.queue i rest ∧ s.threads.pc i = some .done ∧
        s.client i = some { Client.running .done with dataLive := false }
  | .removing i nodes =>
      Releases s.queue i (some nodes) ∧ s.threads.pc i = some .done ∧
        s.client i = some { Client.released with instanceLive := true }
  | .freeingInstance i rest =>
      i ∉ s.queue ∧ Pass s.queue (rest.getD []) ∧ s.threads.pc i = some .done ∧
        s.client i = some { Client.released with instanceLive := true }
  | .returned => s.queue = []
  | .killThread _ | .freeThreadInstance _ | .freeThreadData _ | .closeClient _ | .crashed => False

/-- **The invariant.** -/
structure Process.Inv (s : Process) : Prop where
  nodup : s.queue.Nodup
  settled : ∀ i, i ∉ s.queue → s.main.subject ≠ some i → s.Settled i
  queued : ∀ i ∈ s.queue, s.main.subject ≠ some i → ∃ pc, s.Serves i pc
  here : s.Subject

theorem Process.Inv.init : Process.init.Inv where
  nodup := List.nodup_nil
  settled := fun _ _ _ => Or.inl ⟨rfl, rfl⟩
  queued := fun _ hi => absurd hi List.not_mem_nil
  here := trivial

/-! ### The invariant is kept -/

variable {s s' : Process} {i : ℕ}

theorem Process.Subject.congr (h : s.Subject) (hmain : s'.main = s.main)
    (hqueue : s'.queue = s.queue)
    (hsame : ∀ i, s.main.subject = some i →
      s'.client i = s.client i ∧ s'.threads.thread i = s.threads.thread i) : s'.Subject := by
  unfold Process.Subject at h ⊢
  rw [hmain]
  cases hpc : s.main <;> rw [hpc] at hsame <;> simp only [hpc] at h ⊢
  case allocatingData i | allocatingInstance i | creating i =>
    obtain ⟨hclient, hthread⟩ := hsame i rfl
    rwa [hqueue, hclient, hthread]
  case enqueueing i | closing i rest | freeingData i rest =>
    obtain ⟨hclient, hthread⟩ := hsame i rfl
    simp only [Process.Serves, hclient, Threads.pc_congr hthread, hqueue]
    exact h
  case joining i rest | removing i nodes | freeingInstance i rest =>
    obtain ⟨hclient, hthread⟩ := hsame i rfl
    rwa [hclient, Threads.pc_congr hthread, hqueue]
  case checking nodes => rwa [hqueue]
  case returned => rwa [hqueue]

/-- The invariant does not look at `is_active` or at the owner of the mutex. -/
theorem Process.Inv.congr (h : s.Inv) (hmain : s'.main = s.main) (hqueue : s'.queue = s.queue)
    (hclient : s'.client = s.client) (hthread : s'.threads.thread = s.threads.thread) : s'.Inv := by
  have hpc : ∀ i, s'.threads.pc i = s.threads.pc i := fun i =>
    Threads.pc_congr (congrFun hthread i)
  refine ⟨?_, ?_, ?_, ?_⟩
  · rw [hqueue]
    exact h.nodup
  · intro i hi hne
    rw [Process.Settled, hclient, hthread, hpc]
    exact h.settled i (hqueue ▸ hi) (hmain ▸ hne)
  · intro i hi hne
    obtain ⟨pc, hserves⟩ := h.queued i (hqueue ▸ hi) (hmain ▸ hne)
    exact ⟨pc, (hpc i).trans hserves.1, (congrFun hclient i).trans hserves.2⟩
  · exact h.here.congr hmain hqueue fun i _ => ⟨congrFun hclient i, congrFun hthread i⟩

theorem MainPc.subject_only {pc : MainPc} (h : pc.subject = some i) (j : ℕ)
    (hj : pc.subject = some j) : j = i := Option.some.inj (hj.symm.trans h)

/-- What has to be checked when only connection `i` changes. -/
theorem Process.Inv.move (h : s.Inv) (hsub : ∀ j, s.main.subject = some j → j = i)
    (hsub' : ∀ j, s'.main.subject = some j → j = i)
    (hothers : ∀ j, j ≠ i → s'.client j = s.client j ∧
      s'.threads.thread j = s.threads.thread j ∧ (j ∈ s'.queue ↔ j ∈ s.queue))
    (hnodup : s'.queue.Nodup)
    (hself : s'.main.subject = some i ∨ (i ∉ s'.queue ∧ s'.Settled i) ∨
      (i ∈ s'.queue ∧ ∃ pc, s'.Serves i pc))
    (hhere : s'.Subject) : s'.Inv := by
  refine ⟨hnodup, ?_, ?_, hhere⟩
  · intro j hj hne
    by_cases hji : j = i
    · subst hji
      rcases hself with hsubject | ⟨-, hsettled⟩ | ⟨hin, -⟩
      · exact absurd hsubject hne
      · exact hsettled
      · exact absurd hin hj
    · obtain ⟨hclient, hthread, hqueue⟩ := hothers j hji
      have hold := h.settled j (fun hc => hj (hqueue.2 hc)) fun hc => hji (hsub j hc)
      rwa [Process.Settled, hclient, hthread, Threads.pc_congr hthread]
  · intro j hj hne
    by_cases hji : j = i
    · subst hji
      rcases hself with hsubject | ⟨hout, -⟩ | ⟨-, hserves⟩
      · exact absurd hsubject hne
      · exact absurd hj hout
      · exact hserves
    · obtain ⟨hclient, hthread, hqueue⟩ := hothers j hji
      obtain ⟨pc, hpc, hrunning⟩ := h.queued j (hqueue.1 hj) fun hc => hji (hsub j hc)
      exact ⟨pc, (Threads.pc_congr hthread).trans hpc, hclient.trans hrunning⟩

/-- A handler that is about to make a call has all it needs. -/
theorem Process.Inv.serves (h : s.Inv) {pc : Pc} (hpc : s.threads.pc i = some pc)
    (hdone : pc ≠ .done) : s.Serves i pc := by
  have hthread : s.threads.thread i ≠ none := by
    intro hc
    rw [Threads.pc_eq_none hc] at hpc
    cases hpc
  have hreturned : s.threads.pc i ≠ some .done := by
    rw [hpc]
    exact fun hc => hdone (Option.some.inj hc)
  have hserves : ∀ pc', s.Serves i pc' → s.Serves i pc := by
    intro pc' hs
    obtain rfl := Option.some.inj (hpc.symm.trans hs.1)
    exact hs
  by_cases hsub : s.main.subject = some i
  · have hhere := h.here
    unfold Process.Subject at hhere
    cases hmain : s.main <;> rw [hmain] at hsub <;> simp only [hmain] at hhere <;>
      first | exact hhere.elim | (obtain rfl := Option.some.inj hsub) | cases hsub
    case allocatingData | allocatingInstance | creating => exact absurd hhere.2.1 hthread
    case enqueueing => exact hserves _ hhere.2.choose_spec
    case closing | freeingData => exact hserves _ hhere.2.choose_spec.1
    case joining | removing => exact absurd hhere.2.1 hreturned
    case freeingInstance => exact absurd hhere.2.2.1 hreturned
  · by_cases hin : i ∈ s.queue
    · obtain ⟨pc', hs⟩ := h.queued i hin hsub
      exact hserves pc' hs
    · rcases h.settled i hin hsub with ⟨-, hnone⟩ | ⟨-, hend⟩
      · exact absurd hnone hthread
      · exact absurd hend hreturned

theorem Client.running_cancelled (pc : Pc) : (Client.running pc).cancelled = false := by
  cases pc <;> rfl

/-- What a call of a handler does. -/
theorem Process.handlerCall_cases {charDevice : Bool} {e : Event} {o : List Misuse}
    (h : s.handlerCall charDevice i e = some (s', o)) :
    ∃ c threads pc pc', s.client i = some c ∧ c.ended = false ∧
      s.threads.Calls charDevice i e threads pc pc' ∧
      s' = { s with client := Function.update s.client i (some (c.after e)), threads := threads } ∧
      o = c.misuse i e := by
  simp only [Process.handlerCall, Option.bind_eq_bind, Option.bind_eq_some_iff] at h
  obtain ⟨c, hc, h⟩ := h
  split at h
  · cases h
  next hended =>
    simp only [Option.bind_eq_some_iff, Option.some.injEq, Prod.mk.injEq] at h
    obtain ⟨threads, hthreads, rfl, rfl⟩ := h
    obtain ⟨pc, pc', hcalls⟩ := Threads.step_handler hthreads
    exact ⟨c, threads, pc, pc', hc, by simpa using hended, hcalls, rfl, rfl⟩

theorem Process.handlerStep_cases {e : Event} {o : List Misuse}
    (h : s.handlerStep i e = some (s', o)) :
    ∃ c threads pc pc', s.client i = some c ∧ c.ended = false ∧
      s.threads.Calls true i e threads pc pc' ∧
      s' = { s with client := Function.update s.client i (some (c.after e)), threads := threads } ∧
      o = c.misuse i e :=
  Process.handlerCall_cases h

theorem Pc.next_done {charDevice : Bool} (e : Event) : Pc.next charDevice .done e = none := by
  cases e <;> rfl

/-- **A call of a handler keeps the invariant**, and nothing happens that must not. -/
theorem Process.Inv.handlerCall {charDevice : Bool} {e : Event} {o : List Misuse} (h : s.Inv)
    (hstep : s.handlerCall charDevice i e = some (s', o)) : s'.Inv ∧ o = [] := by
  obtain ⟨c, threads, pc, pc', hc, -, hcalls, rfl, rfl⟩ := Process.handlerCall_cases hstep
  have hdone : pc ≠ .done := by
    rintro rfl
    have hnext := hcalls.next
    rw [Pc.next_done] at hnext
    cases hnext
  have hserves := h.serves hcalls.here hdone
  obtain rfl := Option.some.inj (hc.symm.trans hserves.2)
  obtain ⟨hafter, hmisuse⟩ := Client.running_step hcalls.next i
  refine ⟨?_, hmisuse⟩
  rw [hafter]
  set s' : Process :=
    { s with client := Function.update s.client i (some (.running pc')), threads := threads }
    with hs'
  have hserves' : s'.Serves i pc' := ⟨hcalls.there, Function.update_self ..⟩
  have hothers : ∀ j, j ≠ i → s'.client j = s.client j ∧ s'.threads.thread j = s.threads.thread j :=
    fun j hj => ⟨Function.update_of_ne hj .., hcalls.others j hj⟩
  refine ⟨h.nodup, ?_, ?_, ?_⟩
  · intro j hj hne
    have hold := h.settled j hj hne
    by_cases hji : j = i
    · subst hji
      rcases hold with ⟨hnone, -⟩ | ⟨-, hend⟩
      · rw [hc] at hnone
        cases hnone
      · exact absurd (Option.some.inj (hserves.1.symm.trans hend)) hdone
    · obtain ⟨hclient, hthread⟩ := hothers j hji
      rwa [Process.Settled, hclient, hthread, Threads.pc_congr hthread]
  · intro j hj hne
    by_cases hji : j = i
    · exact ⟨pc', hji ▸ hserves'⟩
    · obtain ⟨hclient, hthread⟩ := hothers j hji
      obtain ⟨pc₁, hpc₁, hrunning⟩ := h.queued j hj hne
      exact ⟨pc₁, (Threads.pc_congr hthread).trans hpc₁, hclient.trans hrunning⟩
  · by_cases hsub : s.main.subject = some i
    · -- the main thread is working on this connection
      have hhere := h.here
      have hreturned : s.threads.pc i ≠ some .done := by
        rw [hserves.1]
        exact fun hc => hdone (Option.some.inj hc)
      have hthread : s.threads.thread i ≠ none := by
        intro hnone
        rw [Process.Serves, Threads.pc_eq_none hnone] at hserves
        cases hserves.1
      have hdone' : ∀ rest : Option (List ℕ), (∃ pc, s.Serves i pc ∧ (rest ≠ none → pc = .done)) →
          rest = none := by
        rintro rest ⟨pc₁, hs₁, hrest⟩
        by_contra hne
        exact hreturned (hrest hne ▸ hs₁.1)
      unfold Process.Subject at hhere ⊢
      rw [show s'.main = s.main from rfl, show s'.queue = s.queue from rfl]
      cases hmain : s.main <;> rw [hmain] at hsub <;> simp only [hmain] at hhere ⊢ <;>
        first | exact hhere.elim | (obtain rfl := Option.some.inj hsub) | cases hsub
      case allocatingData | allocatingInstance | creating => exact absurd hhere.2.1 hthread
      case enqueueing => exact ⟨hhere.1, pc', hserves'⟩
      case closing i rest | freeingData i rest =>
        exact ⟨hhere.1, pc', hserves', fun hne => absurd (hdone' rest hhere.2) hne⟩
      case joining | removing => exact absurd hhere.2.1 hreturned
      case freeingInstance => exact absurd hhere.2.2.1 hreturned
    · refine h.here.congr rfl rfl ?_
      intro j hj
      exact hothers j fun hji => hsub (hji ▸ hj)

/-- No handler was cancelled. -/
theorem Process.Inv.endStep (h : s.Inv) : s.endStep i = none := by
  unfold Process.endStep
  cases hc : s.client i with
  | none => rfl
  | some c =>
      cases hpc : s.threads.pc i with
      | none => rfl
      | some pc =>
          refine if_neg ?_
          rintro ⟨hcancelled, -, hpoint⟩
          have hdone : pc ≠ .done := by
            rintro rfl
            cases hpoint
          obtain rfl := Option.some.inj (hc.symm.trans (h.serves hpc hdone).2)
          rw [Client.running_cancelled] at hcancelled
          cases hcancelled

/-- The main thread turns to something that concerns no connection. -/
theorem Process.Inv.turn (h : s.Inv) {pc : MainPc} (hsub : s.main.subject = none)
    (hhere : ({ s with main := pc } : Process).Subject) :
    ({ s with main := pc } : Process).Inv := by
  refine ⟨h.nodup, ?_, ?_, hhere⟩
  · intro j hj _
    exact h.settled j hj (by rw [hsub]; exact nofun)
  · intro j hj _
    exact h.queued j hj (by rw [hsub]; exact nofun)

/-- The main thread goes on with the connection it is working on. -/
theorem Process.Inv.goto (h : s.Inv) {pc : MainPc} {c : Client}
    (hsub : ∀ j, s.main.subject = some j → j = i) (hsub' : pc.subject = some i)
    (hhere : (s.goto pc i c).Subject) : (s.goto pc i c).Inv := by
  refine h.move hsub ?_ ?_ h.nodup (Or.inl hsub') hhere
  · intro j hj
    exact (Option.some.inj (hsub'.symm.trans hj)).symm
  · intro j hj
    exact ⟨Function.update_of_ne hj .., rfl, Iff.rfl⟩

/-- **A call of the main thread keeps the invariant**, and nothing happens that must not. -/
theorem Process.Inv.mainStep {e : MainEvent} {o : List Misuse} (h : s.Inv)
    (hok : s.Orderly (.main e)) (hstep : s.mainStep e = some (s', o)) : s'.Inv ∧ o = [] := by
  obtain ⟨halloc, hwaits⟩ := hok
  have hhere := h.here
  unfold Process.Subject at hhere
  unfold Process.Waits at hwaits
  cases Process.mainStep_moves hstep with
  | test hmain =>
      refine ⟨h.turn (by rw [hmain]; rfl) ?_, rfl⟩
      unfold Process.Subject
      cases s.isActive <;> trivial
  | interrupted hmain => exact ⟨h.turn (by rw [hmain]; rfl) trivial, rfl⟩
  | accepted i hmain hclient hthread =>
      have hout : i ∉ s.queue := by
        intro hin
        obtain ⟨pc, -, hrunning⟩ := h.queued i hin (by rw [hmain]; exact nofun)
        rw [hclient] at hrunning
        cases hrunning
      refine ⟨h.goto (by rw [hmain]; exact nofun) rfl ?_, rfl⟩
      exact ⟨hout, hthread, Function.update_self ..⟩
  | dataAllocated i c hmain hc | instanceAllocated i c hmain hc =>
      simp only [hmain] at hhere
      obtain ⟨hout, hthread, hclient⟩ := hhere
      obtain rfl := Option.some.inj (hc.symm.trans hclient)
      refine ⟨h.goto (MainPc.subject_only (by rw [hmain]; rfl)) rfl ?_, rfl⟩
      exact ⟨hout, hthread, Function.update_self ..⟩
  | created i threads hmain hthreads =>
      simp only [hmain] at hhere
      obtain ⟨hout, hthread, hclient⟩ := hhere
      obtain ⟨-, hpc, -, hothers⟩ := Threads.step_accept hthreads
      refine ⟨h.move (i := i) ?_ ?_ ?_ h.nodup (Or.inl rfl) ⟨hout, .locking, hpc, hclient⟩, rfl⟩
      · exact MainPc.subject_only (by rw [hmain]; rfl)
      · exact MainPc.subject_only rfl
      · exact fun j hj => ⟨rfl, hothers j hj, Iff.rfl⟩
  | enqueued i hmain =>
      simp only [hmain] at hhere
      obtain ⟨hout, pc, hserves⟩ := hhere
      have hnodup : (s.queue ++ [i]).Nodup :=
        List.nodup_append.2 ⟨h.nodup, List.nodup_singleton i, fun j hj k hk =>
          List.mem_singleton.1 hk ▸ fun hji => hout (hji ▸ hj)⟩
      refine ⟨h.move (i := i) ?_ (fun j => nofun) ?_ hnodup ?_ ⟨hnodup, fun j hj => hj⟩, rfl⟩
      · exact MainPc.subject_only (by rw [hmain]; rfl)
      · intro j hj
        exact ⟨rfl, rfl, by simp [hj]⟩
      · exact Or.inr (Or.inr ⟨by simp, pc, hserves⟩)
  -- nothing fails
  | dataFailed _ _ | instanceFailed _ _ | createFailed _ _ | enqueueFailed _ _ => cases halloc
  | passEnds hmain => exact ⟨h.turn (by rw [hmain]; rfl) trivial, rfl⟩
  | checked i nodes c hmain hc =>
      simp only [hmain] at hhere
      obtain ⟨hnodup, hmem⟩ := hhere
      rw [List.nodup_cons] at hnodup
      have hin := hmem i (by simp)
      have hpass : Pass s.queue nodes := ⟨hnodup.2, fun j hj => hmem j (List.mem_cons_of_mem _ hj)⟩
      obtain ⟨pc, hserves⟩ := h.queued i hin (by rw [hmain]; exact nofun)
      obtain rfl := Option.some.inj (hc.symm.trans hserves.2)
      refine ⟨?_, by rw [Client.running_instanceLive, Client.running_dataLive]; rfl⟩
      by_cases hcompleted : (Client.running pc).threadCompleted = true
      · rw [if_pos hcompleted]
        have hdone := Client.running_completed.1 hcompleted
        refine h.move (i := i) (by rw [hmain]; exact nofun) ?_ ?_ h.nodup (Or.inl rfl) ?_
        · exact MainPc.subject_only rfl
        · exact fun j hj => ⟨rfl, rfl, Iff.rfl⟩
        · exact ⟨⟨hin, hnodup.1, hpass⟩, pc, hserves, fun _ => hdone⟩
      · rw [if_neg hcompleted]
        exact h.turn (by rw [hmain]; rfl) hpass
  | close i rest c hmain hc hfd =>
      -- the handler has closed the descriptor already
      simp only [hmain] at hhere
      obtain ⟨-, pc, hserves, hdone⟩ := hhere
      obtain rfl := Option.some.inj (hc.symm.trans hserves.2)
      have hclosed : (Client.running pc).clientFd = false := by
        cases rest with
        | none =>
            simp only [hmain] at hwaits
            exact hwaits _ hserves.2
        | some nodes => exact Client.running_clientFd.2 (Or.inr (hdone nofun))
      rw [hclosed] at hfd
      cases hfd
  | closed i rest c hmain hc hfd =>
      simp only [hmain] at hhere
      obtain ⟨hreleases, pc, hserves, hdone⟩ := hhere
      obtain rfl := Option.some.inj (hc.symm.trans hserves.2)
      refine ⟨h.move (i := i) ?_ ?_ ?_ h.nodup (Or.inl rfl) ⟨hreleases, pc, hserves, hdone⟩,
        by rw [Client.running_dataLive]; rfl⟩
      · exact MainPc.subject_only (by rw [hmain]; rfl)
      · exact MainPc.subject_only rfl
      · exact fun j hj => ⟨rfl, rfl, Iff.rfl⟩
  | freeData i rest c hmain hc =>
      -- the handler has returned
      simp only [hmain] at hhere
      obtain ⟨hreleases, pc, hserves, hdone⟩ := hhere
      obtain rfl : pc = .done := by
        cases rest with
        | none =>
            simp only [hmain] at hwaits
            exact Client.running_completed.1 (hwaits _ hserves.2)
        | some nodes => exact hdone nofun
      obtain rfl := Option.some.inj (hc.symm.trans hserves.2)
      refine ⟨h.goto (MainPc.subject_only (by rw [hmain]; rfl)) rfl ?_,
        by rw [Client.running_dataLive]; rfl⟩
      exact ⟨hreleases, hserves.1, Function.update_self ..⟩
  | join i rest c hmain hc _ =>
      simp only [hmain] at hhere
      obtain ⟨hreleases, hpc, hclient⟩ := hhere
      obtain rfl := Option.some.inj (hc.symm.trans hclient)
      refine ⟨h.goto (MainPc.subject_only (by rw [hmain]; rfl)) ?_ ?_, rfl⟩
      · cases rest <;> rfl
      · cases rest with
        | none =>
            exact ⟨hreleases, ⟨List.nodup_nil, fun j => nofun⟩, hpc, Function.update_self ..⟩
        | some nodes => exact ⟨hreleases, hpc, Function.update_self ..⟩
  | remove i nodes hmain =>
      simp only [hmain] at hhere
      obtain ⟨⟨hin, hout, hnodup, hmem⟩, hpc, hclient⟩ := hhere
      refine ⟨h.move (i := i) ?_ ?_ ?_ (h.nodup.erase i) (Or.inl rfl)
        ⟨h.nodup.not_mem_erase, ⟨hnodup, ?_⟩, hpc, hclient⟩, rfl⟩
      · exact MainPc.subject_only (by rw [hmain]; rfl)
      · exact MainPc.subject_only rfl
      · exact fun j hj => ⟨rfl, rfl, List.mem_erase_of_ne hj⟩
      · intro j hj
        have hji : j ≠ i := fun hji => hout (hji ▸ hj)
        exact (List.mem_erase_of_ne hji).2 (hmem j hj)
  | freeInstance i rest c hmain hc =>
      simp only [hmain] at hhere
      obtain ⟨hout, hpass, hpc, hclient⟩ := hhere
      obtain rfl := Option.some.inj (hc.symm.trans hclient)
      refine ⟨h.move (i := i) ?_ ?_ ?_ h.nodup ?_ ?_, rfl⟩
      · exact MainPc.subject_only (by rw [hmain]; rfl)
      · cases rest <;> exact fun j => nofun
      · exact fun j hj => ⟨Function.update_of_ne hj .., rfl, Iff.rfl⟩
      · exact Or.inr (Or.inl ⟨hout, Or.inr ⟨Function.update_self .., hpc⟩⟩)
      · cases rest with
        | none => trivial
        | some nodes => exact hpass
  -- the labels behind the loop are reached when something fails
  | kill i _ hmain _ | undoInstance i _ hmain _ | undoData i _ hmain _ | undoClient i _ hmain _ =>
      simp only [hmain] at hhere
  | returned hmain hqueue => exact ⟨h.turn (by rw [hmain]; rfl) hqueue, rfl⟩
  | dequeue i queue hmain hqueue =>
      have hnodup := h.nodup
      rw [hqueue, List.nodup_cons] at hnodup
      obtain ⟨pc, hserves⟩ := h.queued i (by rw [hqueue]; simp) (by rw [hmain]; exact nofun)
      refine ⟨h.move (i := i) (by rw [hmain]; exact nofun) ?_ ?_ hnodup.2 (Or.inl rfl)
        ⟨hnodup.1, pc, hserves, fun hne => absurd rfl hne⟩, rfl⟩
      · exact MainPc.subject_only rfl
      · intro j hj
        refine ⟨rfl, rfl, ?_⟩
        rw [hqueue, List.mem_cons, or_iff_right hj]

/-- **A step keeps the invariant**, and nothing happens that must not. -/
theorem Process.Inv.step {a : ProcessAct} {o : List Misuse} (h : s.Inv) (hok : s.Orderly a)
    (hstep : s.step a = some (s', o)) : s'.Inv ∧ o = [] := by
  cases a with
  | main e => exact h.mainStep hok hstep
  | handler i e => exact h.handlerCall hstep
  | signal =>
      cases hstep
      exact ⟨h.congr rfl rfl rfl rfl, rfl⟩
  | cancelled i =>
      rw [Process.step, h.endStep] at hstep
      cases hstep

/-- **The life of the connections' resources**, in every run in which nothing fails and the shutdown
meets no handler at work: no thread data is accessed or freed after it was freed, no descriptor used
or closed after it was closed, no thread joined again, and no thread instance freed again or before
the join; and when `main` returns, every connection has had its descriptor closed, its thread
joined, and its data and its instance freed. -/
theorem resources_released {t : List (ProcessAct × List Misuse)}
    (h : process.Trace Process.Orderly Process.init t s) :
    (∀ p ∈ t, p.2 = []) ∧
      (s.main = .returned → ∀ i c, s.client i = some c →
        c = .released ∧ s.threads.pc i = some .done) := by
  have hinv : s.Inv ∧ ∀ p ∈ t, p.2 = [] :=
    h.invariant_outputs Process.Inv.init fun _ _ _ _ hI hok hstep => hI.step hok hstep
  refine ⟨hinv.2, ?_⟩
  intro hreturned i c hc
  have hqueue : s.queue = [] := by
    have hhere := hinv.1.here
    unfold Process.Subject at hhere
    simpa only [hreturned] using hhere
  have hsettled := hinv.1.settled i (by rw [hqueue]; exact List.not_mem_nil)
    (by rw [hreturned]; exact nofun)
  rcases hsettled with ⟨hnone, -⟩ | ⟨hreleased, hpc⟩
  · rw [hc] at hnone
    cases hnone
  · exact ⟨Option.some.inj (hc.symm.trans hreleased), hpc⟩

/-- A connection that is closed by its client, and then a signal. -/
def signalAtRest : List ProcessAct :=
  [.main .go, .main (.accept (some 0)), .main (.malloc true), .main (.malloc true),
    .main (.pthreadCreate true), .main (.queueEnqueue true), .main .go, .main .go,
    .handler 0 (.lock 0), .handler 0 (.fopen true), .handler 0 (.recv .closed),
    .handler 0 .fclose, .handler 0 .unlock, .handler 0 .close, .handler 0 .clear,
    .handler 0 .complete, .signal, .main .go, .main .go, .main .go, .main .go, .main .go,
    .main .go, .main .go]

theorem resources_released_signal :
    ∃ t s, s.main = .returned ∧ s.client 0 = some .released ∧
      process.Trace Process.Orderly Process.init t s ∧ ∀ p ∈ t, p.2 = [] := by
  have hrun : (process.run Process.init signalAtRest).map (fun p => (p.1.main, p.1.client 0))
      = some (.returned, some .released) := by decide
  obtain ⟨⟨s, os⟩, hrun, hend⟩ := Option.map_eq_some_iff.1 hrun
  obtain ⟨hreturned, hclient⟩ := Prod.mk.inj hend
  have htrace : process.Trace Process.Orderly Process.init _ s :=
    Machine.trace_of_run hrun (by decide)
  exact ⟨_, s, hreturned, hclient, htrace, (resources_released htrace).1⟩

end Aesd
