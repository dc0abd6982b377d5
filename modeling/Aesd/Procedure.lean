/-
**Calls that work under a lock are atomic.**

A call checks its arguments, takes the lock, does its work in several steps, releases the lock, and
turns what it took out of the critical section into a result.  Many calls run at the same time.
Here it is shown that they are *atomic*: if the steps of each call, one after the other and without
disturbance, do what an atomic step of some machine does, then an interleaved run is a run of that
machine, one step for each call, with the result that the call returns.  The step is where the call
releases the lock, or where it returns without having taken it.

What is left to show for a given call is about that call alone: that its statements, one after the
other, compute the atomic step (`Procedure.Implements`).

* `Procedure`, `Procedure.worker` — a call, and the worker that runs it;
* `Procedure.solo` — its way through the critical section, computed;
* `Procedure.Implements` — it does what a step of a machine does;
* `Procedure.Refines`, `Procedure.Refines.step` — **interleaved calls are steps of that machine**;
* `Procedure.Implements.holder` — what the call that has the lock began with;
* `Procedure.unlocks` — **a call that has the lock gives it back**.
-/

import Aesd.CriticalSection

set_option relaxedAutoImplicit false
set_option autoImplicit false

namespace CriticalSection

/-! ### Procedures -/

/-- A call with arguments `α` and results `ρ` that works on a shared state `σ` under a lock; `β` is
where it is inside, with its local variables, and `γ` what it takes out. -/
structure Procedure (α β γ ρ σ : Type) where
  /-- The result of a call that returns before it takes the lock. -/
  check : α → Option ρ
  /-- Where it is when it has taken the lock. -/
  enter : α → β
  /-- One step inside: it goes on, or is ready to release the lock. -/
  body : β → σ → Option ((β ⊕ γ) × σ)
  /-- The result, when the lock is released. -/
  leave : γ → ρ

/-- Where a call is. -/
inductive Pc (β γ ρ : Type) where
  | start
  | inside (b : β)
  | leaving (c : γ)
  | behind (c : γ)
  | returned (r : ρ)

/-- A call that is running: its arguments, and where it is. -/
structure Running (α β γ ρ : Type) where
  arg : α
  pc : Pc β γ ρ

/-- What a call does next. -/
inductive Tick where
  | lock
  | unlock
  | step
  deriving DecidableEq

def Tick.op : Tick → LockOp
  | .lock => .lock
  | .unlock => .unlock
  | .step => .idle

def Pc.place {β γ ρ : Type} : Pc β γ ρ → Place
  | .start => .before
  | .inside _ | .leaving _ => .inside
  | .behind _ | .returned _ => .after

namespace Procedure

variable {α β γ ρ σ : Type}

/-- One step of a running call. -/
def next (p : Procedure α β γ ρ σ) (a : α) : Pc β γ ρ → σ → Tick → Option (Pc β γ ρ × σ)
  | .start, s, .step => (p.check a).map fun r => (.returned r, s)
  | .start, s, .lock => if (p.check a).isNone then some (.inside (p.enter a), s) else none
  | .inside b, s, .step => (p.body b s).map fun q => (q.1.elim .inside .leaving, q.2)
  | .leaving c, s, .unlock => some (.behind c, s)
  | .behind c, s, .step => some (.returned (p.leave c), s)
  | _, _, _ => none

/-- The worker that runs a call. -/
def worker (p : Procedure α β γ ρ σ) : Worker (Running α β γ ρ) σ Tick where
  place l := l.pc.place
  op := Tick.op
  step l s e := (p.next l.arg l.pc s e).map fun q => (⟨l.arg, q.1⟩, q.2)

/-- A call that has not begun. -/
def Fresh (l : Running α β γ ρ) : Prop := l.pc = .start

/-- Calls have nothing to keep to but their own steps. -/
def anyCall : Running α β γ ρ → σ → Tick → Prop := fun _ _ _ => True

instance : (l : Running α β γ ρ) → Decidable (Fresh l)
  | ⟨_, .start⟩ => isTrue rfl
  | ⟨_, .inside _⟩ | ⟨_, .leaving _⟩ | ⟨_, .behind _⟩ | ⟨_, .returned _⟩ =>
      isFalse fun h => Place.noConfusion (congrArg Pc.place h)

instance {ι : Type} (s : State ι (Running α β γ ρ) σ) : (act : Act ι (Running α β γ ρ) Tick) →
    Decidable (Worker.Guard Fresh anyCall s act)
  | .spawn _ l => inferInstanceAs (Decidable (Fresh l))
  | .call _ _ => isTrue fun _ _ => trivial

/-- **What a running call does next.** -/
inductive Moves (p : Procedure α β γ ρ σ) (a : α) (s : σ) :
    Pc β γ ρ → Tick → Pc β γ ρ → σ → Prop
  | early {r : ρ} : p.check a = some r → Moves p a s .start .step (.returned r) s
  | enter : p.check a = none → Moves p a s .start .lock (.inside (p.enter a)) s
  | body {b b' : β} {s' : σ} : p.body b s = some (.inl b', s') →
      Moves p a s (.inside b) .step (.inside b') s'
  | done {b : β} {c : γ} {s' : σ} : p.body b s = some (.inr c, s') →
      Moves p a s (.inside b) .step (.leaving c) s'
  | unlock {c : γ} : Moves p a s (.leaving c) .unlock (.behind c) s
  | leave {c : γ} : Moves p a s (.behind c) .step (.returned (p.leave c)) s

theorem next_moves {p : Procedure α β γ ρ σ} {a : α} {pc pc' : Pc β γ ρ} {s s' : σ} {e : Tick}
    (h : p.next a pc s e = some (pc', s')) : p.Moves a s pc e pc' s' := by
  rw [next.eq_def] at h
  split at h
  · obtain ⟨r, hr, heq⟩ := Option.map_eq_some_iff.1 h
    cases heq
    exact .early hr
  · split at h
    · next hnone =>
        cases h
        exact .enter (Option.isNone_iff_eq_none.1 hnone)
    · cases h
  · obtain ⟨⟨b' | c, s₁⟩, hbody, heq⟩ := Option.map_eq_some_iff.1 h
    · cases heq
      exact .body hbody
    · cases heq
      exact .done hbody
  · cases h
    exact .unlock
  · cases h
    exact .leave
  · cases h

theorem worker_step {p : Procedure α β γ ρ σ} {l l' : Running α β γ ρ} {s s' : σ} {e : Tick}
    (h : p.worker.step l s e = some (l', s')) :
    l'.arg = l.arg ∧ p.Moves l.arg s l.pc e l'.pc s' := by
  obtain ⟨⟨pc, s₁⟩, hnext, heq⟩ := Option.map_eq_some_iff.1 h
  cases heq
  exact ⟨rfl, next_moves hnext⟩

/-- **Calls keep to the lock.** -/
theorem lawful (p : Procedure α β γ ρ σ) : p.worker.Lawful Fresh anyCall where
  start := by
    rintro ⟨a, pc⟩ rfl
    rfl
  lock := by
    rintro ⟨a, pc⟩ ⟨a', pc'⟩ s s' e hstep - hop
    obtain ⟨-, hmoves⟩ := worker_step hstep
    cases hmoves with
    | enter => exact ⟨rfl, rfl⟩
    | early | body | done | unlock | leave => cases hop
  unlock := by
    rintro ⟨a, pc⟩ ⟨a', pc'⟩ s s' e hstep - hop
    obtain ⟨-, hmoves⟩ := worker_step hstep
    cases hmoves with
    | unlock => exact ⟨rfl, rfl⟩
    | early | enter | body | done | leave => cases hop
  inside := by
    rintro ⟨a, pc⟩ ⟨a', pc'⟩ s s' e hstep - hop hplace
    obtain ⟨-, hmoves⟩ := worker_step hstep
    cases hmoves with
    | body | done => rfl
    | enter | unlock => cases hop
    | early | leave => cases hplace
  outside := by
    rintro ⟨a, pc⟩ ⟨a', pc'⟩ s s' e hstep - hop hplace
    obtain ⟨-, hmoves⟩ := worker_step hstep
    cases hmoves with
    | early | leave => exact ⟨Place.noConfusion, fun _ => rfl⟩
    | enter | unlock => cases hop
    | body | done => exact absurd rfl hplace
  apart := by
    rintro ⟨a, pc⟩ ⟨a', pc'⟩ s s' e hstep - hplace
    obtain ⟨hargs, hmoves⟩ := worker_step hstep
    cases hargs
    cases hmoves with
    | early hr =>
        refine ⟨rfl, fun s₁ => ⟨trivial, ?_⟩⟩
        simp only [worker, next, hr, Option.map_some]
    | enter hnone =>
        refine ⟨rfl, fun s₁ => ⟨trivial, ?_⟩⟩
        simp only [worker, next, hnone, Option.isNone_none, if_true, Option.map_some]
    | leave => exact ⟨rfl, fun s₁ => ⟨trivial, rfl⟩⟩
    | body | done | unlock => exact absurd rfl hplace

/-! ### What a call does alone -/

/-- The way of a call through the critical section, in at most a given number of steps. -/
def solo (p : Procedure α β γ ρ σ) : ℕ → β → σ → Option (σ × ρ)
  | 0, _, _ => none
  | n + 1, b, s =>
      match p.body b s with
      | none => none
      | some (.inl b', s') => solo p n b' s'
      | some (.inr c, s') => some (s', p.leave c)

theorem solo_body {p : Procedure α β γ ρ σ} {b b' : β} {s s' : σ}
    (h : p.body b s = some (.inl b', s')) (n : ℕ) : p.solo (n + 1) b s = p.solo n b' s' := by
  rw [solo, h]

theorem solo_done {p : Procedure α β γ ρ σ} {b : β} {c : γ} {s s' : σ}
    (h : p.body b s = some (.inr c, s')) (n : ℕ) : p.solo (n + 1) b s = some (s', p.leave c) := by
  rw [solo, h]

theorem solo_fault {p : Procedure α β γ ρ σ} {b : β} {s : σ} (h : p.body b s = none) (n : ℕ) :
    p.solo (n + 1) b s = none := by
  rw [solo, h]

/-- In `N` steps or more, a call that is at `b` with `s` shared comes to `o`, which is nothing if it
ends in a fault. -/
def Leads (p : Procedure α β γ ρ σ) (N : ℕ) (b : β) (s : σ) (o : Option (σ × ρ)) : Prop :=
  ∀ n, p.solo (N + n) b s = o

theorem Leads.body {p : Procedure α β γ ρ σ} {N : ℕ} {b b' : β} {s s' : σ} {o : Option (σ × ρ)}
    (h : p.Leads (N + 1) b s o) (hbody : p.body b s = some (.inl b', s')) :
    p.Leads N b' s' o := by
  intro n
  rw [← solo_body hbody, ← h n]
  congr 1
  omega

theorem Leads.done {p : Procedure α β γ ρ σ} {N : ℕ} {b : β} {c : γ} {s s' : σ}
    {o : Option (σ × ρ)} (h : p.Leads N b s o) (hbody : p.body b s = some (.inr c, s')) :
    o = some (s', p.leave c) := by
  rw [← h 1, solo_done hbody]

/-- More steps do not matter. -/
theorem Leads.mono {p : Procedure α β γ ρ σ} {N N' : ℕ} {b : β} {s : σ} {o : Option (σ × ρ)}
    (h : p.Leads N b s o) (hle : N ≤ N') : p.Leads N' b s o := by
  intro n
  rw [← h (N' - N + n)]
  congr 1
  omega

/-- A step before. -/
theorem Leads.cons {p : Procedure α β γ ρ σ} {N : ℕ} {b b' : β} {s s' : σ} {o : Option (σ × ρ)}
    (hbody : p.body b s = some (.inl b', s')) (h : p.Leads N b' s' o) : p.Leads (N + 1) b s o := by
  intro n
  rw [show N + 1 + n = N + n + 1 by omega, solo_body hbody, h n]

theorem Leads.last {p : Procedure α β γ ρ σ} {b : β} {c : γ} {s s' : σ}
    (hbody : p.body b s = some (.inr c, s')) : p.Leads 1 b s (some (s', p.leave c)) := by
  intro n
  rw [Nat.add_comm, solo_done hbody]

theorem Leads.fault {p : Procedure α β γ ρ σ} {b : β} {s : σ} (hbody : p.body b s = none) :
    p.Leads 1 b s none := by
  intro n
  rw [Nat.add_comm, solo_fault hbody]

/-- **A call does what a step of a machine does**, on shared states that satisfy `I`: a call that
returns early is a step that changes nothing, and the way of any other through the critical section
leads to the step. -/
structure Implements (p : Procedure α β γ ρ σ) (m : Machine σ α ρ) (I : σ → Prop) : Prop where
  early : ∀ {a r}, p.check a = some r → ∀ s, m.step s a = some (s, r)
  alone : ∀ {a s}, I s → p.check a = none → ∃ N, p.Leads N (p.enter a) s (m.step s a)
  keeps : ∀ {a s s' r}, I s → m.step s a = some (s', r) → I s'

/-- Where a call can be that entered at `s₀`, or has not entered yet. -/
def Stage (p : Procedure α β γ ρ σ) (m : Machine σ α ρ) (a : α) (s₀ s : σ) : Pc β γ ρ → Prop
  | .start => s = s₀
  | .inside b => ∃ N, p.Leads N b s (m.step s₀ a)
  | .leaving c | .behind c => m.step s₀ a = some (s, p.leave c)
  | .returned r => m.step s₀ a = some (s, r)

variable {p : Procedure α β γ ρ σ} {m : Machine σ α ρ} {I : σ → Prop}

/-- What a call does next leads it from a stage to a stage. -/
theorem Implements.stage_moves (hp : p.Implements m I) {a : α} {s₀ s s' : σ} (hI : I s₀)
    {pc pc' : Pc β γ ρ} {e : Tick} (hstage : p.Stage m a s₀ s pc)
    (hmoves : p.Moves a s pc e pc' s') : p.Stage m a s₀ s' pc' := by
  cases hmoves with
  | early hr =>
      obtain rfl : s = s₀ := hstage
      exact hp.early hr s
  | enter hnone =>
      obtain rfl : s = s₀ := hstage
      exact hp.alone hI hnone
  | body hbody =>
      obtain ⟨N, hleads⟩ := hstage
      exact ⟨N, (hleads.mono (Nat.le_succ N)).body hbody⟩
  | done hbody =>
      obtain ⟨N, hleads⟩ := hstage
      exact hleads.done hbody
  | unlock | leave => exact hstage

theorem Implements.stage (hp : p.Implements m I) {a : α} {s₀ : σ} (hI : I s₀)
    {q : Running α β γ ρ × σ} (h : p.worker.Alone anyCall (⟨a, .start⟩, s₀) q) :
    q.1.arg = a ∧ p.Stage m a s₀ q.2 q.1.pc := by
  have hstart : p.Stage m a s₀ s₀ .start := rfl
  refine Machine.Reach.invariant (I := fun q : Running α β γ ρ × σ =>
    q.1.arg = a ∧ p.Stage m a s₀ q.2 q.1.pc) h ⟨rfl, hstart⟩ ?_
  rintro ⟨⟨a', pc⟩, s⟩ e ⟨⟨a₁, pc₁⟩, s₁⟩ o ⟨rfl, hstage⟩ - hsolo
  obtain ⟨q, hstep, heq⟩ := Option.map_eq_some_iff.1 hsolo
  obtain ⟨rfl, -⟩ := Prod.mk.inj heq
  obtain ⟨hargs, hmoves⟩ := worker_step hstep
  exact ⟨hargs, hp.stage_moves hI hstage hmoves⟩

/-! ### Interleaved calls -/

section Interleaved

variable {ι : Type} {worker : ι → Option (Running α β γ ρ)} {s₀ s : σ}

/-- The call that worker `i` makes is the step `q`, and what it returns, if it has returned, is the
output of that step. -/
def Answers (worker : ι → Option (Running α β γ ρ)) (i : ι) (q : α × ρ) : Prop :=
  ∃ pc, worker i = some ⟨q.1, pc⟩ ∧ ∀ r, pc = .returned r → r = q.2

/-- Calls that ran one after the other, and are all through, are a run of the machine. -/
theorem Implements.serial (hp : p.Implements m I) (hI : I s₀) {is : List ι}
    (h : Serial p.worker Fresh anyCall worker s₀ is s)
    (hafter : ∀ i ∈ is, ∀ l, worker i = some l → l.pc.place = .after) :
    ∃ L, m.Trace Machine.free s₀ L s ∧ I s ∧ List.Forall₂ (Answers worker) is L := by
  induction h with
  | nil => exact ⟨[], .nil, hI, .nil⟩
  | @snoc is i l₀ l s₁ s' _ hfresh hl halone ih =>
      obtain ⟨L, htrace, hI₁, hanswers⟩ := ih fun j hj => hafter j (List.mem_append_left _ hj)
      obtain ⟨a, pc₀⟩ := l₀
      obtain rfl : pc₀ = .start := hfresh
      obtain ⟨a', pc⟩ := l
      obtain ⟨rfl, hstage⟩ := hp.stage hI₁ halone.alone
      have hplace : pc.place = .after := hafter i (by simp) _ hl
      obtain ⟨r, hr, hreturned⟩ : ∃ r, m.step s₁ a' = some (s', r) ∧
          ∀ r', pc = .returned r' → r' = r := by
        cases pc with
        | start | inside | leaving => cases hplace
        | behind c => exact ⟨_, hstage, fun r' => nofun⟩
        | returned r => exact ⟨r, hstage, fun r' heq => (Pc.returned.inj heq).symm⟩
      refine ⟨L ++ [(a', r)], htrace.snoc trivial hr, hp.keeps hI₁ hr, ?_⟩
      exact List.rel_append hanswers (.cons ⟨pc, hl, hreturned⟩ .nil)

variable [DecidableEq ι]

variable {t : List (Act ι (Running α β γ ρ) Tick × Unit)} {s : State ι (Running α β γ ρ) σ}

omit [DecidableEq ι] in
/-- **The call that has the lock** entered when the calls before it were through, and is on its way
from what they left. -/
theorem Implements.holder (hp : p.Implements m I) (hI : I s₀)
    (h : Ordered p.worker Fresh anyCall s₀ t s) {i : ι} (howner : s.owner = some i) :
    ∃ is L s₁ a pc, acquired p.worker t = is ++ [i] ∧ m.Trace Machine.free s₀ L s₁ ∧ I s₁ ∧
      List.Forall₂ (Answers s.worker) is L ∧ s.worker i = some ⟨a, pc⟩ ∧ pc.place = .inside ∧
      p.Stage m a s₁ s.shared pc := by
  obtain ⟨pre, hpre⟩ := h.newest i howner
  obtain ⟨⟨a', pc⟩, hl, -, hinside⟩ := h.got i (by simp [hpre])
  obtain ⟨-, is, s₁, ⟨a, pc₀⟩, his, hbefore, hfresh, halone⟩ := h.holder hl (hinside.2 howner)
  obtain rfl : pc₀ = .start := hfresh
  obtain ⟨L, htrace, hI₁, hanswers⟩ := hp.serial hI hbefore (h.earlier his)
  obtain ⟨rfl, hstage⟩ := hp.stage hI₁ halone.alone
  exact ⟨is, L, s₁, a', pc, his, htrace, hI₁, hanswers, hl, hinside.2 howner, hstage⟩

/-! ### Every step is a step of the machine, or none -/

/-- What a call will return: it is known when the lock is released, or when the call returns without
it. -/
def outcome (p : Procedure α β γ ρ σ) : Pc β γ ρ → Option ρ
  | .start | .inside _ | .leaving _ => none
  | .behind c => some (p.leave c)
  | .returned r => some r

/-- **The calls so far have done what led the machine to `u`**; the call that has the lock is on its
way from there. -/
structure Refines (p : Procedure α β γ ρ σ) (m : Machine σ α ρ) (I : σ → Prop)
    (s : State ι (Running α β γ ρ) σ) (u : σ) : Prop where
  inv : I u
  free : s.owner = none → s.shared = u
  held : ∀ i, s.owner = some i → ∃ a pc, s.worker i = some ⟨a, pc⟩ ∧ pc.place = .inside ∧
    p.Stage m a u s.shared pc
  inside : ∀ i a pc, s.worker i = some ⟨a, pc⟩ → pc.place = .inside → s.owner = some i

omit [DecidableEq ι] in
theorem Refines.init (hI : I s₀) : p.Refines m I (State.init s₀ : State ι (Running α β γ ρ) σ) s₀ :=
  ⟨hI, fun _ => rfl, fun _ => nofun, fun _ _ _ => nofun⟩

/-- A call begins. -/
theorem Refines.spawn {u : σ} (h : p.Refines m I s u) {i : ι} (a : α) (hnone : s.worker i = none) :
    p.Refines m I (s.put s.owner i ⟨a, .start⟩ s.shared) u where
  inv := h.inv
  free := h.free
  held := by
    intro j hj
    obtain ⟨a', pc, hpc, hrest⟩ := h.held j hj
    have hji : j ≠ i := by
      rintro rfl
      rw [hnone] at hpc
      cases hpc
    exact ⟨a', pc, by rwa [State.put_of_ne _ _ _ _ hji], hrest⟩
  inside := by
    intro j a' pc hpc hplace
    by_cases hji : j = i
    · subst hji
      rw [State.put_self] at hpc
      cases hpc
      cases hplace
    · rw [State.put_of_ne _ _ _ _ hji] at hpc
      exact h.inside j a' pc hpc hplace

/-- What has to be checked when a call makes a step: about that call alone. -/
theorem Refines.put {u u' : σ} (h : p.Refines m I s u) {i : ι} {a : α} {pc : Pc β γ ρ}
    {o : Option ι} {x : σ} (hI : I u') (hfree : o = none → x = u')
    (hheld : o = some i → p.Stage m a u' x pc) (hinside : pc.place = .inside ↔ o = some i)
    (hothers : ∀ j, j ≠ i → s.owner ≠ some j ∧ o ≠ some j) :
    p.Refines m I (s.put o i ⟨a, pc⟩ x) u' where
  inv := hI
  free := hfree
  held := by
    intro j hj
    by_cases hji : j = i
    · subst hji
      exact ⟨a, pc, State.put_self .., hinside.2 hj, hheld hj⟩
    · exact absurd hj (hothers j hji).2
  inside := by
    intro j a' pc' hpc hplace
    by_cases hji : j = i
    · subst hji
      rw [State.put_self] at hpc
      cases hpc
      exact hinside.1 hplace
    · rw [State.put_of_ne _ _ _ _ hji] at hpc
      exact absurd (h.inside j a' pc' hpc hplace) (hothers j hji).1

/-- The calls that take the lock in a step of call `i`. -/
def Tick.taken (i : ι) : Tick → List ι
  | .lock => [i]
  | .unlock | .step => []

/-- **A step of a call is the step of the machine with its arguments and its result, where the
result becomes known, and otherwise nothing.**  The lock is released only where it does. -/
theorem Refines.step {u : σ} (h : p.Refines m I s u) (hp : p.Implements m I) {i : ι} {e : Tick}
    {s' : State ι (Running α β γ ρ) σ} (hnext : p.worker.next s (.call i e) = some s') :
    ∃ a pc pc', s.worker i = some ⟨a, pc⟩ ∧ s'.worker = Function.update s.worker i (some ⟨a, pc'⟩) ∧
      ((p.outcome pc' = p.outcome pc ∧ s'.owner.toList = s.owner.toList ++ Tick.taken i e ∧
          p.Refines m I s' u) ∨
        ∃ r u', p.outcome pc = none ∧ p.outcome pc' = some r ∧ m.step u a = some (u', r) ∧
          Tick.taken i e = [] ∧ (s'.owner = s.owner ∨ s.owner = some i ∧ s'.owner = none) ∧
          p.Refines m I s' u') := by
  simp only [Worker.next, Option.bind_eq_bind, Option.bind_eq_some_iff] at hnext
  obtain ⟨⟨a, pc⟩, hpc, o, hgrant, ⟨⟨a', pc'⟩, x⟩, hstep, heq⟩ := hnext
  cases heq
  obtain ⟨hargs, hmoves⟩ := worker_step hstep
  obtain rfl : a' = a := hargs
  refine ⟨a', pc, pc', hpc, rfl, ?_⟩
  -- outside, nothing of the others changes
  have houtside : pc.place ≠ .inside → pc'.place ≠ .inside → o = s.owner → x = s.shared →
      p.Refines m I (s.put o i ⟨a', pc'⟩ x) u := by
    rintro hpl hpl' rfl rfl
    refine ⟨h.inv, h.free, ?_, ?_⟩
    · intro j hj
      obtain ⟨b, q, hq, hplace, hstage⟩ := h.held j hj
      have hji : j ≠ i := by
        rintro rfl
        rw [hpc] at hq
        cases hq
        exact hpl hplace
      exact ⟨b, q, by rwa [State.put_of_ne _ _ _ _ hji], hplace, hstage⟩
    · intro j b q hq hplace
      by_cases hji : j = i
      · subst hji
        rw [State.put_self] at hq
        cases hq
        exact absurd hplace hpl'
      · rw [State.put_of_ne _ _ _ _ hji] at hq
        exact h.inside j b q hq hplace
  -- inside, the call has the lock and is at a stage
  have hinside : pc.place = .inside → s.owner = some i ∧ p.Stage m a' u s.shared pc := by
    intro hplace
    have howner := h.inside i a' pc hpc hplace
    obtain ⟨b, q, hq, -, hstage⟩ := h.held i howner
    rw [hpc] at hq
    cases hq
    exact ⟨howner, hstage⟩
  have hothers : s.owner = some i → ∀ j, j ≠ i → s.owner ≠ some j ∧ s.owner ≠ some j := by
    intro howner j hji
    rw [howner]
    exact ⟨fun hc => hji (Option.some.inj hc).symm, fun hc => hji (Option.some.inj hc).symm⟩
  cases hmoves with
  | early hr =>
      cases hgrant
      exact .inr ⟨_, u, rfl, rfl, hp.early hr u, rfl, .inl rfl,
        houtside (by rintro ⟨⟩) (by rintro ⟨⟩) rfl rfl⟩
  | enter hnone =>
      have hfree : s.owner = none := by
        cases howner : s.owner with
        | none => rfl
        | some j =>
            rw [howner] at hgrant
            cases hgrant
      rw [hfree] at hgrant
      cases hgrant
      have hstart : p.Stage m a' u s.shared .start := h.free hfree
      have hstage := hp.stage_moves h.inv hstart (.enter hnone)
      refine .inl ⟨rfl, by rw [hfree]; rfl, h.put h.inv (by rintro ⟨⟩) (fun _ => hstage)
        (iff_of_true rfl rfl) ?_⟩
      intro j hji
      rw [hfree]
      exact ⟨(Option.some_ne_none j).symm, fun hc => hji (Option.some.inj hc).symm⟩
  | body hbody =>
      cases hgrant
      obtain ⟨howner, hstage⟩ := hinside rfl
      have hstage' := hp.stage_moves h.inv hstage (.body hbody)
      exact .inl ⟨rfl, (List.append_nil _).symm, h.put h.inv
        (fun hc => absurd (howner.symm.trans hc) (Option.some_ne_none i))
        (fun _ => hstage') (iff_of_true rfl howner) (hothers howner)⟩
  | done hbody =>
      cases hgrant
      obtain ⟨howner, hstage⟩ := hinside rfl
      have hstage' := hp.stage_moves h.inv hstage (.done hbody)
      exact .inl ⟨rfl, (List.append_nil _).symm, h.put h.inv
        (fun hc => absurd (howner.symm.trans hc) (Option.some_ne_none i))
        (fun _ => hstage') (iff_of_true rfl howner) (hothers howner)⟩
  | @unlock c =>
      cases hgrant
      obtain ⟨howner, hstage⟩ := hinside rfl
      have hres : m.step u a' = some (s.shared, p.leave c) := hstage
      refine .inr ⟨_, s.shared, rfl, rfl, hres, rfl, .inr ⟨howner, rfl⟩, ?_⟩
      exact h.put (hp.keeps h.inv hres) (fun _ => rfl) (by rintro ⟨⟩)
        (iff_of_false (by rintro ⟨⟩) (by rintro ⟨⟩))
        fun j hji => ⟨(hothers howner j hji).1, (Option.some_ne_none j).symm⟩
  | leave =>
      cases hgrant
      exact .inl ⟨rfl, (List.append_nil _).symm, houtside (by rintro ⟨⟩) (by rintro ⟨⟩) rfl rfl⟩

/-! ### The lock is given back -/

/-- A run of steps of worker `i` alone. -/
def By (p : Procedure α β γ ρ σ) (i : ι) (s s' : State ι (Running α β γ ρ) σ) : Prop :=
  p.worker.system.Reach (fun _ act => ∃ e, act = .call i e) s s'

theorem By.step {p : Procedure α β γ ρ σ} {i : ι} {s : State ι (Running α β γ ρ) σ} {e : Tick}
    {a : α} {pc pc' : Pc β γ ρ} {x : σ} {o : Option ι} (hpc : s.worker i = some ⟨a, pc⟩)
    (hgrant : e.op.grant s.owner i = some o) (hnext : p.next a pc s.shared e = some (pc', x)) :
    p.By i s (s.put o i ⟨a, pc'⟩ x) := by
  have hstep : p.worker.step ⟨a, pc⟩ s.shared e = some (⟨a, pc'⟩, x) := by
    simp only [worker, hnext, Option.map_some]
  have hcall := Worker.next_call (w := p.worker) hpc hgrant hstep
  exact Machine.Reach.refl.step (o := ()) ⟨e, rfl⟩ (congrArg (Option.map fun s' => (s', ())) hcall)

omit [DecidableEq ι] in
/-- A call that is to come to a result is not stuck. -/
theorem Leads.next {N : ℕ} {b : β} {s : σ} {q : σ × ρ} (h : p.Leads (N + 1) b s (some q)) :
    ∃ next x, p.body b s = some (next, x) := by
  cases hbody : p.body b s with
  | none =>
      have hnone := h 0
      rw [Nat.add_zero, solo_fault hbody] at hnone
      cases hnone
  | some next => exact ⟨next.1, next.2, rfl⟩

/-- **The call that has the lock gives it back**, by steps of its own and with its result. -/
theorem unlocks {i : ι} {a : α} {s₁ : σ} {s : State ι (Running α β γ ρ) σ} {q : σ × ρ}
    (hstep : m.step s₁ a = some q) {pc : Pc β γ ρ} (hpc : s.worker i = some ⟨a, pc⟩)
    (hplace : pc.place = .inside) (hstage : p.Stage m a s₁ s.shared pc) :
    ∃ s', p.By i s s' ∧ s'.owner = none ∧ (∀ j, j ≠ i → s'.worker j = s.worker j) ∧
      ∃ c, s'.worker i = some ⟨a, .behind c⟩ ∧ q = (s'.shared, p.leave c) := by
  -- the last step, once the work is done
  have hleave : ∀ {s : State ι (Running α β γ ρ) σ} {c : γ}, s.worker i = some ⟨a, .leaving c⟩ →
      q = (s.shared, p.leave c) →
      ∃ s', p.By i s s' ∧ s'.owner = none ∧ (∀ j, j ≠ i → s'.worker j = s.worker j) ∧
        ∃ c, s'.worker i = some ⟨a, .behind c⟩ ∧ q = (s'.shared, p.leave c) := by
    intro s c hpc hres
    exact ⟨_, By.step (e := .unlock) hpc rfl rfl, rfl, fun j hj => State.put_of_ne _ _ _ _ hj, c,
      State.put_self .., hres⟩
  cases pc with
  | start | behind | returned => cases hplace
  | leaving c => exact hleave hpc (Option.some.inj (hstep.symm.trans hstage))
  | inside b =>
      obtain ⟨N, hleads⟩ := hstage
      rw [hstep] at hleads
      induction N generalizing s b with
      | zero => cases hleads 0
      | succ N ih =>
          obtain ⟨next, x, hbody⟩ := hleads.next
          cases next with
          | inl b' =>
              have hgo : p.By i s (s.put s.owner i ⟨a, .inside b'⟩ x) := by
                refine By.step (e := .step) hpc rfl ?_
                simp only [Procedure.next, hbody, Option.map_some, Sum.elim_inl]
              obtain ⟨s', hrun, hfree, hothers, hres⟩ := ih
                (s := s.put s.owner i ⟨a, .inside b'⟩ x) b' (State.put_self ..) rfl
                (hleads.body hbody)
              refine ⟨s', hgo.trans hrun, hfree, ?_, hres⟩
              intro j hj
              rw [hothers j hj, State.put_of_ne _ _ _ _ hj]
          | inr c =>
              have hgo : p.By i s (s.put s.owner i ⟨a, .leaving c⟩ x) := by
                refine By.step (e := .step) hpc rfl ?_
                simp only [Procedure.next, hbody, Option.map_some, Sum.elim_inr]
              obtain ⟨s', hrun, hfree, hothers, hres⟩ := hleave
                (s := s.put s.owner i ⟨a, .leaving c⟩ x) (State.put_self ..)
                (Option.some.inj (hleads.done hbody))
              refine ⟨s', hgo.trans hrun, hfree, ?_, hres⟩
              intro j hj
              rw [hothers j hj, State.put_of_ne _ _ _ _ hj]

end Interleaved

end Procedure

end CriticalSection
