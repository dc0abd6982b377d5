/-
**The queue of threads: `server/thread_queue.c`.**

The queue is a chain of nodes that starts at the static variable `head`, and its three operations
walk along it: to its end to link a new node there, to its first node, or to the node with a given
pointer, keeping the node before to link past it.  The nodes are obtained from `malloc`, which may
fail, and given back to `free`; a node that was given back may be obtained again.

`queue_remove` has a case of its own for the first node and none for the last one, `queue_enqueue`
one for the empty queue.  Whether a chain is lost in one of them, a node freed twice, or a loop runs
in circles is seen by no return value: it takes the shape of the memory, `ThreadQueue.Holds`.

* `NodeHeap` — the nodes, with what `malloc` returned and what `free` was given;
* `ThreadQueue`, `queueEnqueue`, `queueDequeue`, `queueRemove` — the queue and its operations;
* `ThreadQueue.Holds` — the chain, and that it has all the nodes there are;
* `lastNode_eq`, `removeLoop_cases` — the two loops come to their ends, and where;
* `listQueue`, `queue_refines_list` — **the queue is a list of pointers.**
-/

import Aesd.KernelMemory
import Aesd.Machine
import Aesd.NodeChain

set_option relaxedAutoImplicit false
set_option autoImplicit false

namespace Aesd

open NodeChain

/-! ### Nodes -/

/-- A `void *`; `none` is `NULL`. -/
abbrev Ptr := Option ℕ

/-- `node_t` -/
abbrev NodeT := Node ℕ Ptr

/-- The nodes by their addresses. -/
structure NodeHeap where
  /-- The nodes that were obtained and not freed. -/
  nodes : AList fun _ : ℕ => NodeT
  /-- What `malloc` returned, in order. -/
  allocs : List ℕ
  /-- What `free` was called with, in order. -/
  frees : List ℕ

namespace NodeHeap

def empty : NodeHeap := ⟨∅, [], []⟩

/-- The node at an address. -/
def cell (h : NodeHeap) (a : ℕ) : Option NodeT := h.nodes.lookup a

/-- The number of nodes. -/
def size (h : NodeHeap) : ℕ := h.nodes.keys.length

/-- `malloc` returns `a`, and the fields of the new node are set. -/
def malloc (h : NodeHeap) (a : ℕ) (node : NodeT) : NodeHeap :=
  { h with nodes := h.nodes.insert a node, allocs := h.allocs ++ [a] }

/-- An access to the node at `a`. -/
def load (h : NodeHeap) (a : ℕ) : Except Fault NodeT :=
  match h.cell a with
  | none => .error .badAccess
  | some node => .ok node

/-- `a->next = next` -/
def setNext (h : NodeHeap) (a : ℕ) (next : Option ℕ) : Except Fault NodeHeap :=
  match h.cell a with
  | none => .error .badAccess
  | some node => .ok { h with nodes := h.nodes.insert a { node with next := next } }

/-- `free` of the node at `a`. -/
def free (h : NodeHeap) (a : ℕ) : Except Fault NodeHeap :=
  match h.cell a with
  | none => .error .badFree
  | some _ => .ok { h with nodes := h.nodes.erase a, frees := h.frees ++ [a] }

variable {h : NodeHeap} {a b : ℕ} {node : NodeT}

theorem mem_nodes : a ∈ h.nodes ↔ ∃ node, h.cell a = some node := by
  rw [← AList.lookup_isSome, Option.isSome_iff_exists, cell]

@[simp] theorem cell_malloc (h : NodeHeap) (a : ℕ) (node : NodeT) :
    (h.malloc a node).cell a = some node := AList.lookup_insert _

theorem cell_malloc_of_ne (h : NodeHeap) (node : NodeT) (hba : b ≠ a) :
    (h.malloc a node).cell b = h.cell b := AList.lookup_insert_ne hba

theorem mem_malloc : b ∈ (h.malloc a node).nodes ↔ b = a ∨ b ∈ h.nodes := AList.mem_insert _

theorem load_of_cell (ha : h.cell a = some node) : h.load a = .ok node := by
  rw [load, ha]

/-- Setting the pointer of a node changes that node, and nothing was obtained or freed. -/
theorem setNext_of_cell (ha : h.cell a = some node) (next : Option ℕ) :
    ∃ h', h.setNext a next = .ok h' ∧ h'.cell a = some ⟨node.data, next⟩ ∧
      (∀ b, b ≠ a → h'.cell b = h.cell b) ∧ (∀ b, b ∈ h'.nodes ↔ b ∈ h.nodes) ∧
      h'.allocs = h.allocs ∧ h'.frees = h.frees := by
  refine ⟨{ h with nodes := h.nodes.insert a { node with next := next } }, by rw [setNext, ha],
    AList.lookup_insert _, fun b hba => AList.lookup_insert_ne hba, ?_, rfl, rfl⟩
  intro b
  rw [AList.mem_insert, or_iff_right_iff_imp]
  rintro rfl
  exact mem_nodes.2 ⟨node, ha⟩

/-- Freeing a node takes that node away. -/
theorem free_of_cell (ha : h.cell a = some node) :
    ∃ h', h.free a = .ok h' ∧ (∀ b, b ≠ a → h'.cell b = h.cell b) ∧
      (∀ b, b ∈ h'.nodes ↔ b ≠ a ∧ b ∈ h.nodes) ∧
      h'.allocs = h.allocs ∧ h'.frees = h.frees ++ [a] :=
  ⟨{ h with nodes := h.nodes.erase a, frees := h.frees ++ [a] }, by rw [free, ha],
    fun b hba => AList.lookup_erase_ne hba, fun b => AList.mem_erase, rfl, rfl⟩

end NodeHeap

/-! ### The queue -/

/-- `head`, and the nodes. -/
structure ThreadQueue where
  head : Option ℕ
  heap : NodeHeap

def ThreadQueue.init : ThreadQueue := ⟨none, .empty⟩

/-- The loop of `queue_enqueue`: the last node from `current` on.  A walk that goes on for more
rounds than there are nodes has come back to one of them and never ends. -/
def lastNode (h : NodeHeap) : ℕ → ℕ → Except Fault ℕ
  | 0, _ => .error .stuck
  | fuel + 1, current => do
      let node ← h.load current
      match node.next with
      | none => return current
      | some next => lastNode h fuel next

/-- `queue_enqueue`; `newNode` is what `malloc` returns. -/
def queueEnqueue (newNode : Option ℕ) (data : Ptr) (q : ThreadQueue) :
    Except Fault (ThreadQueue × Bool) :=
  match newNode with
  | none => .ok (q, false)
  | some newNode =>
      let heap := q.heap.malloc newNode ⟨data, none⟩
      match q.head with
      | none => .ok (⟨some newNode, heap⟩, true)
      | some head => do
          let current ← lastNode heap heap.size head
          let heap ← heap.setNext current (some newNode)
          return (⟨q.head, heap⟩, true)

/-- `queue_dequeue` -/
def queueDequeue (q : ThreadQueue) : Except Fault (ThreadQueue × Ptr) :=
  match q.head with
  | none => .ok (q, none)
  | some head => do
      let node ← q.heap.load head
      let heap ← q.heap.free head
      return (⟨node.next, heap⟩, node.data)

/-- Linking past a node: `next` is the node behind it, `prev` the one before, if there is one. -/
def ThreadQueue.unlink (q : ThreadQueue) (prev next : Option ℕ) : Except Fault ThreadQueue :=
  match prev with
  | none => .ok { q with head := next }
  | some prev => do
      let heap ← q.heap.setNext prev next
      return { q with heap := heap }

/-- The loop of `queue_remove`, with `prev` and `current`. -/
def removeLoop (data : Ptr) (q : ThreadQueue) :
    ℕ → Option ℕ → Option ℕ → Except Fault (ThreadQueue × Bool)
  | _, _, none => .ok (q, false)
  | 0, _, some _ => .error .stuck
  | fuel + 1, prev, some current => do
      let node ← q.heap.load current
      if node.data = data then
        let q ← q.unlink prev node.next
        let heap ← q.heap.free current
        return ({ q with heap := heap }, true)
      else removeLoop data q fuel (some current) node.next

/-- `queue_remove` -/
def queueRemove (data : Ptr) (q : ThreadQueue) : Except Fault (ThreadQueue × Bool) :=
  match q.head with
  | none => .ok (q, false)
  | some head => removeLoop data q q.heap.size none (some head)

/-! ### The shape of the memory -/

/-- **The queue is a chain of these nodes**, from `head` to `NULL`; there are no others, and what
`malloc` returned is what was freed and what is in the chain, each as often. -/
structure ThreadQueue.Holds (q : ThreadQueue) (nodes : List (ℕ × Ptr)) : Prop where
  chain : Leads q.heap.cell q.head nodes none
  live : ∀ a, a ∈ q.heap.nodes ↔ a ∈ nodes.map Prod.fst
  balance : q.heap.allocs.Perm (q.heap.frees ++ nodes.map Prod.fst)

theorem ThreadQueue.Holds.init : ThreadQueue.init.Holds [] where
  chain := rfl
  live := fun a => by simp [ThreadQueue.init, NodeHeap.empty]
  balance := List.Perm.refl _

/-- The loops go on for no more rounds than they may. -/
theorem ThreadQueue.Holds.length_le {q : ThreadQueue} {nodes : List (ℕ × Ptr)} (h : q.Holds nodes) :
    nodes.length ≤ q.heap.size := h.chain.length_le

/-! ### Walking to the end -/

/-- **The loop of `queue_enqueue` ends at the last node.** -/
theorem lastNode_eq {h : NodeHeap} {l : List (ℕ × Ptr)} {a last : ℕ} {data : Ptr} (fuel : ℕ)
    (hchain : Leads h.cell (some a) (l ++ [(last, data)]) none) (hfuel : l.length < fuel) :
    lastNode h fuel a = .ok last := by
  induction l generalizing a fuel with
  | nil =>
      obtain ⟨fuel, rfl⟩ : ∃ k, fuel = k + 1 := ⟨fuel - 1, by omega⟩
      obtain ⟨ha, next, hlast, hnext⟩ := hchain
      cases ha
      cases hnext
      rw [lastNode, NodeHeap.load_of_cell hlast]
      rfl
  | cons x l ih =>
      obtain ⟨fuel, rfl⟩ : ∃ k, fuel = k + 1 := ⟨fuel - 1, by omega⟩
      obtain ⟨ha, next, hx, hrest⟩ := hchain
      cases ha
      cases next with
      | none =>
          have hnil := hrest.unique (show Leads h.cell none [] none from rfl)
          simp at hnil
      | some b =>
          rw [lastNode, NodeHeap.load_of_cell hx]
          rw [List.length_cons] at hfuel
          exact ih fuel hrest (by omega)

variable {q : ThreadQueue} {nodes : List (ℕ × Ptr)} {data : Ptr}

/-- **`queue_enqueue` appends**, if there is memory. -/
theorem ThreadQueue.Holds.queueEnqueue (h : q.Holds nodes) {a : ℕ} (hfresh : a ∉ q.heap.nodes)
    (data : Ptr) :
    ∃ q', Aesd.queueEnqueue (some a) data q = .ok (q', true) ∧ q'.Holds (nodes ++ [(a, data)]) := by
  have hout : a ∉ nodes.map Prod.fst := fun hin => hfresh ((h.live a).2 hin)
  set heap := q.heap.malloc a ⟨data, none⟩ with hheap
  have hnew : heap.cell a = some ⟨data, none⟩ := NodeHeap.cell_malloc ..
  have hchain : Leads heap.cell q.head nodes none := by
    refine h.chain.congr ?_
    intro b hb
    exact NodeHeap.cell_malloc_of_ne _ _ fun hba => hout (hba ▸ hb)
  have hlive : ∀ b, b ∈ heap.nodes ↔ b ∈ (nodes ++ [(a, data)]).map Prod.fst := by
    intro b
    rw [hheap, NodeHeap.mem_malloc, h.live b]
    simp [or_comm]
  have hbalance : heap.allocs.Perm (heap.frees ++ (nodes ++ [(a, data)]).map Prod.fst) := by
    have hperm := h.balance.append_right [a]
    rwa [List.append_assoc, ← List.map_singleton (f := Prod.fst) (a := (a, data)),
      ← List.map_append] at hperm
  rcases List.eq_nil_or_concat' nodes with rfl | ⟨l, ⟨last, d⟩, rfl⟩
  · -- the queue is empty
    have hhead : q.head = none := h.chain
    refine ⟨⟨some a, heap⟩, ?_, ⟨rfl, none, hnew, rfl⟩, hlive, hbalance⟩
    simp only [Aesd.queueEnqueue, hhead, ← hheap]
  · -- the new node is linked behind the last one
    obtain ⟨head, hhead⟩ : ∃ head, q.head = some head := by
      rw [h.chain.start]
      cases l with
      | nil => exact ⟨last, rfl⟩
      | cons x l => exact ⟨x.1, rfl⟩
    have hlast := (leads_snoc.1 hchain).2
    have hfuel : l.length < heap.size := by
      have hle := hchain.length_le
      rw [List.length_append, List.length_singleton] at hle
      exact hle
    have hend : lastNode heap heap.size head = .ok last := lastNode_eq _ (hhead ▸ hchain) hfuel
    obtain ⟨heap', hset, hlast', hsame, hnodes, hallocs, hfrees⟩ :=
      NodeHeap.setNext_of_cell hlast (some a)
    have hnodup := hchain.nodup
    rw [List.map_append, List.nodup_append] at hnodup
    have hlastOut : last ∉ l.map Prod.fst := fun hin => hnodup.2.2 _ hin last (by simp) rfl
    have hne : a ≠ last := by
      rintro rfl
      exact hout (by simp)
    refine ⟨⟨q.head, heap'⟩, ?_, ?_, fun b => (hnodes b).trans (hlive b), ?_⟩
    · simp only [Aesd.queueEnqueue, hhead, ← hheap, hend, hset, bind, Except.bind]
      rfl
    · have hbefore := hchain.link hlastOut hlast' fun b _ hb => hsame b hb
      refine leads_append.2 ⟨some a, hbefore, rfl, none, ?_, rfl⟩
      rw [hsame a hne, hnew]
    · rwa [hallocs, hfrees]

/-! ### The first node -/

/-- **`queue_dequeue` takes the first node away.** -/
theorem ThreadQueue.Holds.queueDequeue {x : ℕ × Ptr} (h : q.Holds (x :: nodes)) :
    ∃ q', Aesd.queueDequeue q = .ok (q', x.2) ∧ q'.Holds nodes := by
  obtain ⟨hhead, next, hx, hchain⟩ := h.chain
  have hnodup := h.chain.nodup
  rw [List.map_cons, List.nodup_cons] at hnodup
  obtain ⟨heap', hfree, hsame, hnodes, hallocs, hfrees⟩ := NodeHeap.free_of_cell hx
  refine ⟨⟨next, heap'⟩, ?_, ?_, ?_, ?_⟩
  · simp only [Aesd.queueDequeue, hhead, NodeHeap.load_of_cell hx, hfree, bind, Except.bind]
    rfl
  · refine hchain.congr ?_
    intro b hb
    exact hsame b fun hbx => hnodup.1 (hbx ▸ hb)
  · intro b
    rw [hnodes b, h.live b, List.map_cons, List.mem_cons]
    constructor
    · rintro ⟨hne, hb⟩
      exact hb.resolve_left hne
    · intro hb
      exact ⟨fun hbx => hnodup.1 (hbx ▸ hb), Or.inr hb⟩
  · rw [hallocs, hfrees, List.append_assoc]
    exact h.balance

/-! ### Taking a node out -/

/-- **Linking past a node**: the chain has the others, and the node is still there. -/
theorem ThreadQueue.Holds.unlink {pre post : List (ℕ × Ptr)} {a : ℕ}
    (h : q.Holds (pre ++ (a, data) :: post)) :
    ∃ next q₁, q.heap.cell a = some ⟨data, next⟩ ∧ next = post.head?.map Prod.fst ∧
      q.unlink (pre.getLast?.map Prod.fst) next = .ok q₁ ∧
      Leads q₁.heap.cell q₁.head (pre ++ post) none ∧ q₁.heap.cell a = some ⟨data, next⟩ ∧
      (∀ b, b ∈ q₁.heap.nodes ↔ b ∈ q.heap.nodes) ∧ q₁.heap.allocs = q.heap.allocs ∧
      q₁.heap.frees = q.heap.frees := by
  have hnodup := h.chain.nodup
  obtain ⟨r, hpre, rfl, next, ha, hpost⟩ := leads_append.1 h.chain
  rcases List.eq_nil_or_concat' pre with rfl | ⟨l, ⟨b, e⟩, rfl⟩
  · -- the first node
    exact ⟨next, ⟨next, q.heap⟩, ha, hpost.start, rfl, hpost, ha, fun _ => Iff.rfl, rfl, rfl⟩
  · have hb := (leads_snoc.1 hpre).2
    obtain ⟨heap', hset, hb', hsame, hnodes, hallocs, hfrees⟩ :=
      NodeHeap.setNext_of_cell hb next
    rw [List.append_assoc, List.map_append, List.nodup_append] at hnodup
    obtain ⟨-, hrest, hapart⟩ := hnodup
    simp only [List.singleton_append, List.map_cons, List.nodup_cons, List.mem_cons, not_or]
      at hrest
    obtain ⟨⟨hba, hbpost⟩, -⟩ := hrest
    have hbl : b ∉ l.map Prod.fst := fun hin => hapart b hin b (by simp) rfl
    refine ⟨next, ⟨q.head, heap'⟩, ha, hpost.start, ?_, ?_, ?_, hnodes, hallocs, hfrees⟩
    · simp only [ThreadQueue.unlink, List.getLast?_concat, Option.map_some, hset, bind, Except.bind]
      rfl
    · refine leads_append.2 ⟨next, hpre.link hbl hb' fun c _ hc => hsame c hc, hpost.congr ?_⟩
      intro c hc
      exact hsame c fun hcb => hbpost (hcb ▸ hc)
    · rw [hsame a (Ne.symm hba), ha]

/-- The node is freed. -/
theorem ThreadQueue.Holds.free {q₁ : ThreadQueue} {pre post : List (ℕ × Ptr)} {a : ℕ} {node : NodeT}
    (h : q.Holds (pre ++ (a, data) :: post))
    (hchain : Leads q₁.heap.cell q₁.head (pre ++ post) none) (ha : q₁.heap.cell a = some node)
    (hnodes : ∀ b, b ∈ q₁.heap.nodes ↔ b ∈ q.heap.nodes) (hallocs : q₁.heap.allocs = q.heap.allocs)
    (hfrees : q₁.heap.frees = q.heap.frees) :
    ∃ heap, q₁.heap.free a = .ok heap ∧ ThreadQueue.Holds ⟨q₁.head, heap⟩ (pre ++ post) := by
  obtain ⟨heap, hfree, hsame, hnodes', hallocs', hfrees'⟩ := NodeHeap.free_of_cell ha
  have hperm : ((pre ++ (a, data) :: post).map Prod.fst).Perm (a :: (pre ++ post).map Prod.fst) :=
    List.perm_middle.map Prod.fst
  have hout : a ∉ (pre ++ post).map Prod.fst :=
    (List.nodup_cons.1 (hperm.nodup_iff.1 h.chain.nodup)).1
  refine ⟨heap, hfree, hchain.congr ?_, ?_, ?_⟩
  · intro b hb
    exact hsame b fun hba => hout (hba ▸ hb)
  · intro b
    rw [hnodes', hnodes, h.live, hperm.mem_iff, List.mem_cons]
    constructor
    · rintro ⟨hne, hb⟩
      exact hb.resolve_left hne
    · intro hb
      exact ⟨fun hba => hout (hba ▸ hb), Or.inr hb⟩
  · rw [hallocs', hfrees', hallocs, hfrees, List.append_assoc]
    exact h.balance.trans (hperm.append_left _)

/-- **The loop of `queue_remove`**, behind the nodes `l`, ends: it takes out the first node that has
the pointer, or there is none. -/
theorem removeLoop_cases {l r : List (ℕ × Ptr)} (h : q.Holds (l ++ r))
    (hl : data ∉ l.map Prod.snd) {fuel : ℕ} (hfuel : r.length ≤ fuel) :
    (data ∉ r.map Prod.snd ∧
      removeLoop data q fuel (l.getLast?.map Prod.fst) (r.head?.map Prod.fst) = .ok (q, false)) ∨
    ∃ pre a post q', l ++ r = pre ++ (a, data) :: post ∧ data ∉ pre.map Prod.snd ∧
      removeLoop data q fuel (l.getLast?.map Prod.fst) (r.head?.map Prod.fst) = .ok (q', true) ∧
      q'.Holds (pre ++ post) := by
  induction r generalizing l fuel with
  | nil => exact Or.inl ⟨List.not_mem_nil, by rw [List.head?_nil, Option.map_none, removeLoop]⟩
  | cons x r ih =>
      obtain ⟨fuel, rfl⟩ : ∃ k, fuel = k + 1 := ⟨fuel - 1, by rw [List.length_cons] at hfuel; omega⟩
      obtain ⟨a, e⟩ := x
      obtain ⟨next, q₁, ha, hnext, hunlink, hchain, ha₁, hnodes, hallocs, hfrees⟩ := h.unlink
      by_cases he : e = data
      · subst he
        obtain ⟨heap, hfree, hholds⟩ := h.free hchain ha₁ hnodes hallocs hfrees
        refine Or.inr ⟨l, a, r, _, rfl, hl, ?_, hholds⟩
        simp only [List.head?_cons, Option.map_some, removeLoop, NodeHeap.load_of_cell ha, hunlink,
          hfree, bind, Except.bind, if_true]
        rfl
      · -- the next round has this node as `prev`
        have hround : removeLoop data q (fuel + 1) (l.getLast?.map Prod.fst)
              (((a, e) :: r).head?.map Prod.fst)
            = removeLoop data q fuel ((l ++ [(a, e)]).getLast?.map Prod.fst)
              (r.head?.map Prod.fst) := by
          simp only [List.head?_cons, Option.map_some, removeLoop, NodeHeap.load_of_cell ha, bind,
            Except.bind, if_neg he, List.getLast?_concat, hnext]
        have hl' : data ∉ (l ++ [(a, e)]).map Prod.snd := by
          simp only [List.map_append, List.mem_append, not_or]
          exact ⟨hl, by simpa using Ne.symm he⟩
        rw [hround, List.map_cons, List.mem_cons, not_or]
        rw [List.append_cons l (a, e) r] at h ⊢
        rcases ih h hl' (Nat.le_of_succ_le_succ hfuel) with ⟨hr, hloop⟩ | hfound
        · exact Or.inl ⟨⟨Ne.symm he, hr⟩, hloop⟩
        · exact Or.inr hfound

/-- **`queue_remove` takes out the first node that has the pointer**, or there is none and nothing
happens. -/
theorem ThreadQueue.Holds.queueRemove (h : q.Holds nodes) (data : Ptr) :
    (data ∉ nodes.map Prod.snd ∧ Aesd.queueRemove data q = .ok (q, false)) ∨
    ∃ pre a post q', nodes = pre ++ (a, data) :: post ∧ data ∉ pre.map Prod.snd ∧
      Aesd.queueRemove data q = .ok (q', true) ∧ q'.Holds (pre ++ post) := by
  have hstart := h.chain.start
  cases nodes with
  | nil => exact Or.inl ⟨List.not_mem_nil, by rw [Aesd.queueRemove, hstart]; rfl⟩
  | cons x nodes =>
      have hfirst : data ∉ ([] : List (ℕ × Ptr)).map Prod.snd := List.not_mem_nil
      have hloop := removeLoop_cases (l := []) h hfirst h.length_le
      have hcall : Aesd.queueRemove data q
          = removeLoop data q q.heap.size none ((x :: nodes).head?.map Prod.fst) := by
        rw [Aesd.queueRemove, hstart]
        rfl
      rw [hcall]
      exact hloop

/-! ### Sequences of calls -/

/-- A call. -/
inductive QueueCall where
  /-- `queue_enqueue`; `newNode` is what `malloc` returns. -/
  | enqueue (newNode : Option ℕ) (data : Ptr)
  | dequeue
  | remove (data : Ptr)
  deriving DecidableEq

/-- What a call returns. -/
inductive QueueReply where
  | bool (b : Bool)
  | data (p : Ptr)
  deriving DecidableEq

def ThreadQueue.call (q : ThreadQueue) : QueueCall → Except Fault (ThreadQueue × QueueReply)
  | .enqueue newNode data => do
      let (q, b) ← queueEnqueue newNode data q
      return (q, .bool b)
  | .dequeue => do
      let (q, p) ← queueDequeue q
      return (q, .data p)
  | .remove data => do
      let (q, b) ← queueRemove data q
      return (q, .bool b)

/-- **The queue as a machine**; a call that ends in a fault, or not at all, is no step. -/
def threadQueue : Machine ThreadQueue QueueCall QueueReply where
  step q c := (q.call c).toOption

/-- `malloc` returns no node that is in use. -/
def ThreadQueue.Fresh (q : ThreadQueue) : QueueCall → Prop
  | .enqueue (some a) _ => a ∉ q.heap.nodes
  | _ => True

instance (q : ThreadQueue) : (c : QueueCall) → Decidable (q.Fresh c)
  | .enqueue (some _) _ => inferInstanceAs (Decidable (¬ _))
  | .enqueue none _ | .dequeue | .remove _ => isTrue trivial

/-- What the calls do to a list of pointers. -/
def listCall (l : List Ptr) : QueueCall → List Ptr × QueueReply
  | .enqueue none _ => (l, .bool false)
  | .enqueue (some _) data => (l ++ [data], .bool true)
  | .dequeue =>
      match l with
      | [] => ([], .data none)
      | data :: l => (l, .data data)
  | .remove data => if data ∈ l then (l.erase data, .bool true) else (l, .bool false)

/-- A list of pointers as a machine. -/
def listQueue : Machine (List Ptr) QueueCall QueueReply where
  step l c := some (listCall l c)

/-- The queue has these pointers, in this order. -/
def ThreadQueue.Represents (q : ThreadQueue) (l : List Ptr) : Prop :=
  ∃ nodes, q.Holds nodes ∧ nodes.map Prod.snd = l

theorem erase_of_first {β : Type} [BEq β] [LawfulBEq β] {pre post : List (ℕ × β)} {a : ℕ} {b : β}
    (hpre : b ∉ pre.map Prod.snd) :
    ((pre ++ (a, b) :: post).map Prod.snd).erase b = (pre ++ post).map Prod.snd := by
  rw [List.map_append, List.map_cons, List.erase_append_right _ hpre, List.erase_cons_head,
    List.map_append]

/-- **A call of the queue is a call of the list.** -/
theorem ThreadQueue.Represents.call {l : List Ptr} (h : q.Represents l) {c : QueueCall}
    (hfresh : q.Fresh c) :
    ∃ q', q.call c = .ok (q', (listCall l c).2) ∧ q'.Represents (listCall l c).1 := by
  obtain ⟨nodes, hholds, rfl⟩ := h
  cases c with
  | enqueue newNode data =>
      cases newNode with
      | none => exact ⟨q, rfl, nodes, hholds, rfl⟩
      | some a =>
          obtain ⟨q', hcall, hholds'⟩ := hholds.queueEnqueue hfresh data
          exact ⟨q', by rw [ThreadQueue.call, hcall]; rfl, _, hholds', List.map_append⟩
  | dequeue =>
      cases nodes with
      | nil =>
          have hhead : q.head = none := hholds.chain
          exact ⟨q, by rw [ThreadQueue.call, queueDequeue, hhead]; rfl, [], hholds, rfl⟩
      | cons x nodes =>
          obtain ⟨q', hcall, hholds'⟩ := hholds.queueDequeue
          exact ⟨q', by rw [ThreadQueue.call, hcall]; rfl, nodes, hholds', rfl⟩
  | remove data =>
      rcases hholds.queueRemove data with
        ⟨hout, hcall⟩ | ⟨pre, a, post, q', rfl, hpre, hcall, hholds'⟩
      · refine ⟨q, ?_, nodes, hholds, ?_⟩
        · rw [ThreadQueue.call, hcall, listCall, if_neg hout]
          rfl
        · rw [listCall, if_neg hout]
      · have hin : data ∈ (pre ++ (a, data) :: post).map Prod.snd := by simp
        refine ⟨q', ?_, _, hholds', ?_⟩
        · rw [ThreadQueue.call, hcall, listCall, if_pos hin]
          rfl
        · rw [listCall, if_pos hin, erase_of_first hpre]

/-- **The queue refines a list.**  Every sequence of calls on the empty queue runs to its end,
without an access to a node that was freed, and returns what it returns on a list of pointers; then
the nodes from `head` on are a chain that ends in `NULL` and comes by none of them twice, with the
pointers of the list in order; the chain has all the nodes that are not freed; and every node that
was obtained was freed once, or is in the chain. -/
theorem queue_refines_list (cs : List QueueCall)
    (hok : threadQueue.Passes ThreadQueue.Fresh .init cs) :
    ∃ q l os, threadQueue.run .init cs = some (q, os) ∧ listQueue.run [] cs = some (l, os) ∧
      ∃ nodes : List (ℕ × Ptr),
        Leads q.heap.cell q.head nodes none ∧ (nodes.map Prod.fst).Nodup ∧
        nodes.map Prod.snd = l ∧ (∀ a, a ∈ q.heap.nodes ↔ a ∈ nodes.map Prod.fst) ∧
        q.heap.allocs.Perm (q.heap.frees ++ nodes.map Prod.fst) := by
  obtain ⟨q, l, os, hrun, hlist, nodes, hholds, hl⟩ := Machine.run_simulates
    (a := listQueue) (R := ThreadQueue.Represents) hok ⟨[], .init, rfl⟩ (by
      intro q l c hrep hfresh
      obtain ⟨q', hcall, hrep'⟩ := hrep.call hfresh
      refine ⟨q', (listCall l c).1, (listCall l c).2, ?_, rfl, hrep'⟩
      simp only [threadQueue, hcall]
      rfl)
  exact ⟨q, l, os, hrun, hlist, nodes, hholds.chain, hholds.chain.nodup, hl, hholds.live,
    hholds.balance⟩

/-- Three pointers, one of them twice; the second node is taken out, freed and obtained again. -/
def reuse : List QueueCall :=
  [.enqueue (some 8) (some 1), .enqueue (some 9) (some 2), .enqueue none (some 3),
    .remove (some 2), .enqueue (some 9) (some 1), .remove (some 1), .dequeue, .dequeue]

theorem queue_refines_list_reuse :
    ∃ q os, threadQueue.run .init reuse = some (q, os) ∧
      os.drop 3 = [.bool true, .bool true, .bool true, .data (some 1), .data none] := by
  obtain ⟨q, l, os, hrun, hlist, -⟩ := queue_refines_list reuse (by decide)
  refine ⟨q, os, hrun, ?_⟩
  cases hlist
  rfl

end Aesd
