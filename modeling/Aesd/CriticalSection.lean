/-
**Workers that share a state under one lock.**

A worker has a state of its own and makes one call after the other; some of them take or release the
lock, and between the two the worker reads and changes a state that it shares with all the others.
Workers come at any time, and their calls are interleaved in any order that the lock admits.

If a worker leaves the shared state alone unless it has the lock, and does not depend on it either,
then the interleaving does not matter: the workers that got the lock, in the order in which they got
it, ran **one after the other**, each from its start on the shared state that the one before left.
So what is known of a worker that runs alone holds for each of them, and what a worker does in
several calls is one step for the others.

The guard `ok` restricts the calls that a run may have, as in `Machine`.

* `Worker`, `Worker.solo`, `Worker.system` — a worker, alone and among others;
* `Worker.Lawful` — it keeps to the lock;
* `acquired` — the workers that got the lock, in order;
* `Serial`, `Serial.last`, `Serial.cut` — one worker after the other, and the parts of such runs;
* `Ordered`, `Ordered.step` — the invariant, and that every step keeps it;
* `serial` — **every run is serial**.
-/

import Aesd.Machine
import Mathlib.Data.List.Induction
import Mathlib.Data.List.Nodup

set_option relaxedAutoImplicit false
set_option autoImplicit false

namespace CriticalSection

/-! ### Workers -/

/-- Where a worker is: before it takes the lock, between taking and releasing it, or behind. -/
inductive Place where
  | before
  | inside
  | after
  deriving DecidableEq

/-- What a call does to the lock. -/
inductive LockOp where
  | lock
  | unlock
  | idle
  deriving DecidableEq

/-- A worker with states `κ` and calls `ε`, over shared states `σ`. -/
structure Worker (κ σ ε : Type) where
  place : κ → Place
  op : ε → LockOp
  /-- What a call does to the worker and the shared state. -/
  step : κ → σ → ε → Option (κ × σ)

/-- The lock, with the worker that has it, the workers by their names, and the shared state. -/
structure State (ι κ σ : Type) where
  owner : Option ι
  worker : ι → Option κ
  shared : σ

/-- A worker comes, or makes its next call. -/
inductive Act (ι κ ε : Type) where
  | spawn (i : ι) (l : κ)
  | call (i : ι) (e : ε)

/-- No worker, and a lock that is free. -/
def State.init {ι κ σ : Type} (s : σ) : State ι κ σ := ⟨none, fun _ => none, s⟩

/-- Worker `i` becomes `l`, the lock belongs to `o`, and the shared state is `x`. -/
def State.put {ι κ σ : Type} [DecidableEq ι] (s : State ι κ σ) (o : Option ι) (i : ι) (l : κ)
    (x : σ) : State ι κ σ :=
  ⟨o, Function.update s.worker i (some l), x⟩

@[simp] theorem State.put_self {ι κ σ : Type} [DecidableEq ι] (s : State ι κ σ) (o : Option ι)
    (i : ι) (l : κ) (x : σ) : (s.put o i l x).worker i = some l := Function.update_self ..

theorem State.put_of_ne {ι κ σ : Type} [DecidableEq ι] (s : State ι κ σ) (o : Option ι) {i j : ι}
    (l : κ) (x : σ) (hji : j ≠ i) : (s.put o i l x).worker j = s.worker j :=
  Function.update_of_ne hji ..

/-- The owner of the lock after a call of worker `i`; taking the lock waits until it is free. -/
def LockOp.grant {ι : Type} (owner : Option ι) (i : ι) : LockOp → Option (Option ι)
  | .lock =>
      match owner with
      | none => some (some i)
      | some _ => none
  | .unlock => some none
  | .idle => some owner

namespace Worker

variable {ι κ σ ε : Type}

/-- The worker alone. -/
def solo (w : Worker κ σ ε) : Machine (κ × σ) ε Unit where
  step p e := (w.step p.1 p.2 e).map fun p' => (p', ())

/-- What a worker can come to alone. -/
def Alone (w : Worker κ σ ε) (ok : κ → σ → ε → Prop) (p q : κ × σ) : Prop :=
  w.solo.Reach (fun p => ok p.1 p.2) p q

theorem Alone.refl {w : Worker κ σ ε} {ok : κ → σ → ε → Prop} {p : κ × σ} : w.Alone ok p p :=
  Machine.Reach.refl

theorem Alone.step {w : Worker κ σ ε} {ok : κ → σ → ε → Prop} {p q : κ × σ} {l : κ} {s : σ}
    {e : ε} (h : w.Alone ok p (l, s)) (hok : ok l s e) (hstep : w.step l s e = some q) :
    w.Alone ok p q := by
  have hsolo : w.solo.step (l, s) e = some (q, ()) := by
    simp only [solo, hstep, Option.map_some]
  exact Machine.Reach.step h hok hsolo

/-- What a worker can come to without taking the lock. -/
def Outside (w : Worker κ σ ε) (ok : κ → σ → ε → Prop) (p q : κ × σ) : Prop :=
  w.Alone (fun l s e => ok l s e ∧ w.op e ≠ .lock) p q

theorem Outside.alone {w : Worker κ σ ε} {ok : κ → σ → ε → Prop} {p q : κ × σ}
    (h : w.Outside ok p q) : w.Alone ok p q := by
  obtain ⟨t, ht⟩ := h
  exact ⟨t, ht.mono fun _ _ hok => hok.1⟩

/-- What a worker can come to alone, from the start `l₀` on, once it has taken the lock on the
shared state `s`. -/
def Entered (w : Worker κ σ ε) (ok : κ → σ → ε → Prop) (l₀ : κ) (s : σ) (q : κ × σ) : Prop :=
  ∃ l₁ l₂ e, w.Outside ok (l₀, s) (l₁, s) ∧ ok l₁ s e ∧ w.op e = .lock ∧
    w.step l₁ s e = some (l₂, s) ∧ w.Alone ok (l₂, s) q

theorem Entered.mono {w : Worker κ σ ε} {ok : κ → σ → ε → Prop} {l₀ : κ} {s : σ} {q q' : κ × σ}
    (h : w.Entered ok l₀ s q) (hon : ∀ p, w.Alone ok p q → w.Alone ok p q') :
    w.Entered ok l₀ s q' := by
  obtain ⟨l₁, l₂, e, hbefore, hok, hop, hstep, hreach⟩ := h
  exact ⟨l₁, l₂, e, hbefore, hok, hop, hstep, hon _ hreach⟩

theorem Entered.alone {w : Worker κ σ ε} {ok : κ → σ → ε → Prop} {l₀ : κ} {s : σ} {q : κ × σ}
    (h : w.Entered ok l₀ s q) : w.Alone ok (l₀, s) q := by
  obtain ⟨l₁, l₂, e, hbefore, hok, -, hstep, hreach⟩ := h
  exact Machine.Reach.trans (hbefore.alone.step hok hstep) hreach

variable [DecidableEq ι]

def next (w : Worker κ σ ε) (s : State ι κ σ) : Act ι κ ε → Option (State ι κ σ)
  | .spawn i l =>
      match s.worker i with
      | none => some (s.put s.owner i l s.shared)
      | some _ => none
  | .call i e => do
      let l ← s.worker i
      let owner ← (w.op e).grant s.owner i
      let (l', shared) ← w.step l s.shared e
      some (s.put owner i l' shared)

theorem next_call {w : Worker κ σ ε} {s : State ι κ σ} {i : ι} {e : ε} {l l' : κ} {x : σ}
    {o : Option ι} (hl : s.worker i = some l) (hgrant : (w.op e).grant s.owner i = some o)
    (hstep : w.step l s.shared e = some (l', x)) :
    w.next s (.call i e) = some (s.put o i l' x) := by
  simp only [next, hl, hgrant, hstep, Option.bind_eq_bind, Option.bind_some]

/-- **The workers as a machine.** -/
def system (w : Worker κ σ ε) : Machine (State ι κ σ) (Act ι κ ε) Unit where
  step s a := (w.next s a).map fun s' => (s', ())

/-- Workers start as `start` says, and make the calls that `ok` admits. -/
def Guard (start : κ → Prop) (ok : κ → σ → ε → Prop) (s : State ι κ σ) : Act ι κ ε → Prop
  | .spawn _ l => start l
  | .call i e => ∀ l ∈ s.worker i, ok l s.shared e

omit [DecidableEq ι] in
/-- **A worker keeps to the lock**: it takes it once and releases it once, and unless it has it, its
calls neither change the shared state nor depend on it. -/
structure Lawful (w : Worker κ σ ε) (start : κ → Prop) (ok : κ → σ → ε → Prop) : Prop where
  start : ∀ l, start l → w.place l = .before
  lock : ∀ {l l' s s' e}, w.step l s e = some (l', s') → ok l s e → w.op e = .lock →
    w.place l = .before ∧ w.place l' = .inside
  unlock : ∀ {l l' s s' e}, w.step l s e = some (l', s') → ok l s e → w.op e = .unlock →
    w.place l = .inside ∧ w.place l' = .after
  inside : ∀ {l l' s s' e}, w.step l s e = some (l', s') → ok l s e → w.op e = .idle →
    w.place l = .inside → w.place l' = .inside
  outside : ∀ {l l' s s' e}, w.step l s e = some (l', s') → ok l s e → w.op e = .idle →
    w.place l ≠ .inside → w.place l' ≠ .inside ∧ (w.place l = .after → w.place l' = .after)
  apart : ∀ {l l' s s' e}, w.step l s e = some (l', s') → ok l s e → w.place l ≠ .inside →
    s' = s ∧ ∀ s₁, ok l s₁ e ∧ w.step l s₁ e = some (l', s₁)

end Worker

/-! ### One worker after the other -/

section Serial

variable {ι κ σ ε : Type}

/-- The workers that got the lock, in this order. -/
def acquired (w : Worker κ σ ε) (t : List (Act ι κ ε × Unit)) : List ι :=
  t.filterMap fun p => match p.1 with
    | .call i e => if w.op e = .lock then some i else none
    | .spawn _ _ => none

/-- **One worker after the other**: each takes the lock on the shared state that the one before
left, and is alone with it. -/
inductive Serial (w : Worker κ σ ε) (start : κ → Prop) (ok : κ → σ → ε → Prop)
    (worker : ι → Option κ) (s₀ : σ) : List ι → σ → Prop
  | nil : Serial w start ok worker s₀ [] s₀
  | snoc {is : List ι} {i : ι} {l₀ l : κ} {s s' : σ} : Serial w start ok worker s₀ is s →
      start l₀ → worker i = some l → w.Entered ok l₀ s (l, s') →
      Serial w start ok worker s₀ (is ++ [i]) s'

variable {w : Worker κ σ ε} {start : κ → Prop} {ok : κ → σ → ε → Prop}
  {worker worker' : ι → Option κ} {s₀ s : σ}

/-- Workers that go on by themselves stay one after the other. -/
theorem Serial.mono {is : List ι} (h : Serial w start ok worker s₀ is s)
    (hon : ∀ i ∈ is, ∀ l, worker i = some l → ∃ l', worker' i = some l' ∧
      ∀ p s', w.Alone ok p (l, s') →
        w.Alone ok p (l', s')) :
    Serial w start ok worker' s₀ is s := by
  induction h with
  | nil => exact .nil
  | snoc _ hstart hl hreach ih =>
      obtain ⟨l', hl', hgo⟩ := hon _ (by simp) _ hl
      exact .snoc (ih fun i hi => hon i (List.mem_append_left _ hi)) hstart hl'
        (hreach.mono fun p => hgo p _)

/-- The last worker of a serial run. -/
theorem Serial.last {is : List ι} {i : ι} (h : Serial w start ok worker s₀ (is ++ [i]) s) :
    ∃ s₁ l₀ l, Serial w start ok worker s₀ is s₁ ∧ start l₀ ∧ worker i = some l ∧
      w.Entered ok l₀ s₁ (l, s) := by
  generalize heq : is ++ [i] = js at h
  cases h with
  | nil => simp at heq
  | snoc hserial hstart hl hreach =>
      obtain ⟨rfl, hi⟩ := List.append_inj' heq rfl
      obtain rfl := List.head_eq_of_cons_eq hi
      exact ⟨_, _, _, hserial, hstart, hl, hreach⟩

/-- A serial run up to one of its workers. -/
theorem Serial.cut {pre post : List ι} {i : ι}
    (h : Serial w start ok worker s₀ (pre ++ i :: post) s) :
    ∃ s₁, Serial w start ok worker s₀ (pre ++ [i]) s₁ ∧ (post = [] → s₁ = s) := by
  induction post using List.reverseRecOn generalizing s with
  | nil => exact ⟨s, h, fun _ => rfl⟩
  | append_singleton post j ih =>
      rw [← List.cons_append, ← List.append_assoc] at h
      obtain ⟨s₁, l₀, l, hserial, -⟩ := h.last
      obtain ⟨s₂, hcut, -⟩ := ih hserial
      exact ⟨s₂, hcut, fun hc => absurd hc (by simp)⟩

end Serial

/-! ### The invariant -/

variable {ι κ σ ε : Type} {w : Worker κ σ ε} {start : κ → Prop} {ok : κ → σ → ε → Prop} {s₀ : σ}

/-- **The invariant.** -/
structure Ordered (w : Worker κ σ ε) (start : κ → Prop) (ok : κ → σ → ε → Prop) (s₀ : σ)
    (t : List (Act ι κ ε × Unit)) (s : State ι κ σ) : Prop where
  serial : Serial w start ok s.worker s₀ (acquired w t) s.shared
  nodup : (acquired w t).Nodup
  /-- Who got the lock is inside or behind, and has it only if it is inside. -/
  got : ∀ i ∈ acquired w t, ∃ l, s.worker i = some l ∧ w.place l ≠ .before ∧
    (w.place l = .inside ↔ s.owner = some i)
  /-- Who did not get it is elsewhere, and would be there on any shared state. -/
  apart : ∀ i l, s.worker i = some l → i ∉ acquired w t → w.place l ≠ .inside ∧
    s.owner ≠ some i ∧ ∃ l₀, start l₀ ∧ ∀ s₁, w.Outside ok (l₀, s₁) (l, s₁)
  /-- The lock belongs to the newest worker that got it, or to none. -/
  newest : ∀ i, s.owner = some i → ∃ pre, acquired w t = pre ++ [i]

theorem Ordered.init : Ordered w start ok s₀ ([] : List (Act ι κ ε × Unit)) (State.init s₀) where
  serial := .nil
  nodup := List.nodup_nil
  got := nofun
  apart := fun _ _ => nofun
  newest := fun _ => nofun

variable {t : List (Act ι κ ε × Unit)} {s s' : State ι κ σ}

theorem acquired_snoc (a : Act ι κ ε) : acquired w (t ++ [(a, ())]) = acquired w t ++ (match a with
    | .call i e => if w.op e = .lock then [i] else []
    | .spawn _ _ => []) := by
  unfold acquired
  rw [List.filterMap_append]
  congr 1
  cases a with
  | call i e => by_cases hop : w.op e = .lock <;> simp [hop]
  | spawn i l => rfl

/-- A worker that has the lock is the last of a serial run. -/
theorem Ordered.holder (h : Ordered w start ok s₀ t s) {i : ι} {l : κ} (hl : s.worker i = some l)
    (hplace : w.place l = .inside) :
    s.owner = some i ∧ ∃ pre s₁ l₀, acquired w t = pre ++ [i] ∧
      Serial w start ok s.worker s₀ pre s₁ ∧ start l₀ ∧ w.Entered ok l₀ s₁ (l, s.shared) := by
  have hi : i ∈ acquired w t := by
    by_contra hout
    exact (h.apart i l hl hout).1 hplace
  obtain ⟨l', hl', -, howner⟩ := h.got i hi
  obtain rfl := Option.some.inj (hl.symm.trans hl')
  obtain ⟨pre, hpre⟩ := h.newest i (howner.1 hplace)
  have hserial := h.serial
  rw [hpre] at hserial
  obtain ⟨s₁, l₀, l', hbefore, hstart, hl', hreach⟩ := hserial.last
  obtain rfl := Option.some.inj (hl.symm.trans hl')
  exact ⟨howner.1 hplace, pre, s₁, l₀, hpre, hbefore, hstart, hreach⟩

/-- Who got the lock and does not have it is behind. -/
theorem Ordered.through (h : Ordered w start ok s₀ t s) {i : ι} (hi : i ∈ acquired w t)
    (hout : s.owner ≠ some i) : ∀ l, s.worker i = some l → w.place l = .after := by
  intro l hl
  obtain ⟨l', hl', hbefore, howner⟩ := h.got i hi
  obtain rfl := Option.some.inj (hl.symm.trans hl')
  cases hplace : w.place l with
  | before => exact absurd hplace hbefore
  | inside => exact absurd (howner.1 hplace) hout
  | after => rfl

/-- Only the newest worker that got the lock can have it still: those before it are behind. -/
theorem Ordered.earlier (h : Ordered w start ok s₀ t s) {pre post : List ι} {i : ι}
    (hacq : acquired w t = pre ++ i :: post) :
    ∀ j ∈ pre, ∀ l, s.worker j = some l → w.place l = .after := by
  intro j hj
  refine h.through (by simp [hacq, hj]) ?_
  intro howner
  obtain ⟨pre', hlast⟩ := h.newest j howner
  have hnodup := h.nodup
  rw [hacq, List.nodup_append] at hnodup
  have hmem : j ∈ i :: post := by
    have hne : i :: post ≠ [] := List.cons_ne_nil i post
    have hget : (acquired w t).getLast? = some j := by rw [hlast, List.getLast?_concat]
    rw [hacq, List.getLast?_append_of_ne_nil _ hne] at hget
    exact List.mem_of_getLast? hget
  exact hnodup.2.2 j hj j hmem rfl

variable [DecidableEq ι]

/-- What has to be checked when a worker makes a call that does not take the lock. -/
theorem Ordered.idle (h : Ordered w start ok s₀ t s) {i : ι} {e : ε} {l' : κ} {o : Option ι}
    {shared : σ} (hop : w.op e ≠ .lock)
    (hserial : Serial w start ok (s.put o i l' shared).worker s₀ (acquired w t) shared)
    (hgot : i ∈ acquired w t → w.place l' ≠ .before ∧ (w.place l' = .inside ↔ o = some i))
    (hapart : i ∉ acquired w t → w.place l' ≠ .inside ∧ o ≠ some i ∧ ∃ l₀, start l₀ ∧
      ∀ s₁, w.Outside ok (l₀, s₁) (l', s₁))
    (hothers : ∀ j, j ≠ i → (o = some j ↔ s.owner = some j))
    (hnewest : o = some i → s.owner = some i) :
    Ordered w start ok s₀ (t ++ [(.call i e, ())]) (s.put o i l' shared) := by
  have hacq : acquired w (t ++ [(.call i e, ())]) = acquired w t := by
    rw [acquired_snoc]
    simp [hop]
  constructor
  · rwa [hacq]
  · rw [hacq]
    exact h.nodup
  · intro j hj
    rw [hacq] at hj
    by_cases hji : j = i
    · subst hji
      exact ⟨l', State.put_self .., hgot hj⟩
    · obtain ⟨l, hl, hplace, howner⟩ := h.got j hj
      exact ⟨l, by rwa [State.put_of_ne _ _ _ _ hji], hplace, howner.trans (hothers j hji).symm⟩
  · intro j l hl hj
    rw [hacq] at hj
    by_cases hji : j = i
    · subst hji
      rw [State.put_self] at hl
      obtain rfl := Option.some.inj hl
      exact hapart hj
    · rw [State.put_of_ne _ _ _ _ hji] at hl
      obtain ⟨hplace, howner, hrest⟩ := h.apart j l hl hj
      exact ⟨hplace, fun hc => howner ((hothers j hji).1 hc), hrest⟩
  · intro j hj
    rw [hacq]
    by_cases hji : j = i
    · subst hji
      exact h.newest j (hnewest hj)
    · exact h.newest j ((hothers j hji).1 hj)

theorem Ordered.spawn (h : Ordered w start ok s₀ t s) (hw : w.Lawful start ok) {i : ι} {l : κ}
    (hstart : start l) (hnone : s.worker i = none) :
    Ordered w start ok s₀ (t ++ [(.spawn i l, ())]) (s.put s.owner i l s.shared) := by
  have hacq : acquired w (t ++ [(.spawn i l, ())]) = acquired w t := by
    rw [acquired_snoc, List.append_nil]
  have hout : ∀ j ∈ acquired w t, j ≠ i := by
    rintro j hj rfl
    obtain ⟨l', hl', -⟩ := h.got j hj
    rw [hnone] at hl'
    cases hl'
  constructor
  · rw [hacq]
    refine h.serial.mono ?_
    intro j hj l' hl'
    exact ⟨l', by rwa [State.put_of_ne _ _ _ _ (hout j hj)], fun _ _ hreach => hreach⟩
  · rw [hacq]
    exact h.nodup
  · intro j hj
    rw [hacq] at hj
    obtain ⟨l', hl', hrest⟩ := h.got j hj
    exact ⟨l', by rwa [State.put_of_ne _ _ _ _ (hout j hj)], hrest⟩
  · intro j l' hl' hj
    rw [hacq] at hj
    by_cases hji : j = i
    · subst hji
      rw [State.put_self] at hl'
      obtain rfl := Option.some.inj hl'
      refine ⟨by rw [hw.start l hstart]; exact nofun, ?_, l, hstart, fun _ => .refl⟩
      intro howner
      obtain ⟨pre, hpre⟩ := h.newest j howner
      exact hj (by simp [hpre])
    · rw [State.put_of_ne _ _ _ _ hji] at hl'
      exact h.apart j l' hl' hj
  · intro j hj
    rw [hacq]
    exact h.newest j hj

/-- A worker outside goes on by itself. -/
theorem Ordered.outside (h : Ordered w start ok s₀ t s) (hw : w.Lawful start ok) {i : ι} {e : ε}
    {l l' : κ} {shared : σ} (hl : s.worker i = some l)
    (hstep : w.step l s.shared e = some (l', shared)) (hok : ok l s.shared e) (hop : w.op e = .idle)
    (hplace : w.place l ≠ .inside) :
    Ordered w start ok s₀ (t ++ [(.call i e, ())]) (s.put s.owner i l' shared) := by
  obtain ⟨rfl, hany⟩ := hw.apart hstep hok hplace
  obtain ⟨hplace', hafter⟩ := hw.outside hstep hok hop hplace
  have hgo : ∀ s₁ p, w.Alone ok p (l, s₁) →
      w.Alone ok p (l', s₁) := by
    intro s₁ p hreach
    exact hreach.step (hany s₁).1 (hany s₁).2
  refine h.idle (by rw [hop]; exact nofun) ?_ ?_ ?_ (fun j _ => Iff.rfl) id
  · refine h.serial.mono ?_
    intro j hj lj hlj
    by_cases hji : j = i
    · subst hji
      obtain rfl := Option.some.inj (hl.symm.trans hlj)
      exact ⟨l', State.put_self .., fun p s₁ hreach => hgo s₁ p hreach⟩
    · exact ⟨lj, by rwa [State.put_of_ne _ _ _ _ hji], fun _ _ hreach => hreach⟩
  · intro hi
    obtain ⟨l₁, hl₁, hbefore, howner⟩ := h.got i hi
    obtain rfl := Option.some.inj (hl.symm.trans hl₁)
    have hbehind : w.place l = .after := by
      cases hp : w.place l with
      | before => exact absurd hp hbefore
      | inside => exact absurd hp hplace
      | after => rfl
    rw [hafter hbehind]
    exact ⟨nofun, iff_of_false nofun fun hc => hplace (howner.2 hc)⟩
  · intro hi
    obtain ⟨-, howner, l₀, hstart, hreach⟩ := h.apart i l hl hi
    refine ⟨hplace', howner, l₀, hstart, fun s₁ => ?_⟩
    exact Worker.Alone.step (hreach s₁) ⟨(hany s₁).1, by rw [hop]; exact nofun⟩ (hany s₁).2

/-- The worker that has the lock goes on, or releases it. -/
theorem Ordered.inside (h : Ordered w start ok s₀ t s) {i : ι} {e : ε} {l l' : κ} {o : Option ι}
    {shared : σ} (hl : s.worker i = some l) (hstep : w.step l s.shared e = some (l', shared))
    (hok : ok l s.shared e) (hop : w.op e ≠ .lock) (hplace : w.place l = .inside)
    (hplace' : w.place l' ≠ .before) (ho : w.place l' = .inside ↔ o = some i)
    (hothers : ∀ j, j ≠ i → o ≠ some j) :
    Ordered w start ok s₀ (t ++ [(.call i e, ())]) (s.put o i l' shared) := by
  obtain ⟨howner, pre, s₁, l₀, hpre, hbefore, hstart, hreach⟩ := h.holder hl hplace
  have hi : i ∈ acquired w t := by simp [hpre]
  have hne : ∀ j ∈ pre, j ≠ i := by
    have hnodup := h.nodup
    rw [hpre, List.nodup_append] at hnodup
    exact fun j hj => hnodup.2.2 j hj i (List.mem_singleton_self i)
  refine h.idle hop ?_ (fun _ => ⟨hplace', ho⟩) (fun hout => absurd hi hout) ?_ fun _ => howner
  · rw [hpre]
    refine .snoc (hbefore.mono ?_) hstart (State.put_self ..)
      (hreach.mono fun _ halone => halone.step hok hstep)
    intro j hj lj hlj
    exact ⟨lj, by rwa [State.put_of_ne _ _ _ _ (hne j hj)], fun _ _ hreach => hreach⟩
  · intro j hji
    rw [howner]
    exact iff_of_false (hothers j hji) fun hc => hji (Option.some.inj hc).symm

/-- A worker takes the lock. -/
theorem Ordered.lock (h : Ordered w start ok s₀ t s) (hw : w.Lawful start ok) {i : ι} {e : ε}
    {l l' : κ} {shared : σ} (hl : s.worker i = some l)
    (hstep : w.step l s.shared e = some (l', shared)) (hok : ok l s.shared e) (hop : w.op e = .lock)
    (hfree : s.owner = none) :
    Ordered w start ok s₀ (t ++ [(.call i e, ())]) (s.put (some i) i l' shared) := by
  obtain ⟨hplace, hplace'⟩ := hw.lock hstep hok hop
  obtain ⟨rfl, hany⟩ := hw.apart hstep hok (by rw [hplace]; exact nofun)
  have hacq : acquired w (t ++ [(.call i e, ())]) = acquired w t ++ [i] := by
    rw [acquired_snoc]
    simp [hop]
  have hout : i ∉ acquired w t := by
    intro hi
    obtain ⟨l₁, hl₁, hbefore, -⟩ := h.got i hi
    obtain rfl := Option.some.inj (hl.symm.trans hl₁)
    exact hbefore hplace
  have hne : ∀ j ∈ acquired w t, j ≠ i := fun j hj hji => hout (hji ▸ hj)
  obtain ⟨-, -, l₀, hstart, hreach⟩ := h.apart i l hl hout
  constructor
  · rw [hacq]
    refine .snoc (h.serial.mono ?_) hstart (State.put_self ..)
      ⟨l, l', e, hreach s.shared, hok, hop, hstep, .refl⟩
    intro j hj lj hlj
    exact ⟨lj, by rwa [State.put_of_ne _ _ _ _ (hne j hj)], fun _ _ hreach => hreach⟩
  · rw [hacq]
    exact List.nodup_append.2 ⟨h.nodup, List.nodup_singleton i, fun j hj k hk =>
      List.mem_singleton.1 hk ▸ hne j hj⟩
  · intro j hj
    rw [hacq, List.mem_append, List.mem_singleton] at hj
    by_cases hji : j = i
    · subst hji
      exact ⟨l', State.put_self .., by rw [hplace']; exact nofun, iff_of_true hplace' rfl⟩
    · obtain ⟨lj, hlj, hbefore, howner⟩ := h.got j (hj.resolve_right hji)
      refine ⟨lj, by rwa [State.put_of_ne _ _ _ _ hji], hbefore, ?_⟩
      rw [howner, hfree]
      exact iff_of_false nofun fun hc => hji (Option.some.inj hc).symm
  · intro j lj hlj hj
    rw [hacq, List.mem_append, List.mem_singleton, not_or] at hj
    rw [State.put_of_ne _ _ _ _ hj.2] at hlj
    obtain ⟨hplacej, -, hrest⟩ := h.apart j lj hlj hj.1
    exact ⟨hplacej, fun hc => hj.2 (Option.some.inj hc).symm, hrest⟩
  · intro j hj
    obtain rfl := Option.some.inj hj
    exact ⟨_, hacq⟩

/-- **Every step keeps the invariant.** -/
theorem Ordered.step (h : Ordered w start ok s₀ t s) (hw : w.Lawful start ok) {a : Act ι κ ε}
    (hok : Worker.Guard start ok s a) (hnext : w.next s a = some s') :
    Ordered w start ok s₀ (t ++ [(a, ())]) s' := by
  cases a with
  | spawn i l =>
      simp only [Worker.next] at hnext
      split at hnext
      · next hnone =>
          cases hnext
          exact h.spawn hw hok hnone
      · cases hnext
  | call i e =>
      simp only [Worker.next, Option.bind_eq_bind, Option.bind_eq_some_iff] at hnext
      obtain ⟨l, hl, o, hgrant, ⟨l', shared⟩, hstep, heq⟩ := hnext
      cases heq
      have hokl := hok l hl
      cases hop : w.op e with
      | lock =>
          rw [hop] at hgrant
          cases hfree : s.owner with
          | none =>
              rw [hfree] at hgrant
              cases hgrant
              exact h.lock hw hl hstep hokl hop hfree
          | some j =>
              rw [hfree] at hgrant
              cases hgrant
      | unlock =>
          rw [hop] at hgrant
          cases hgrant
          obtain ⟨hplace, hplace'⟩ := hw.unlock hstep hokl hop
          refine h.inside hl hstep hokl (by rw [hop]; exact nofun) hplace ?_ ?_ fun _ _ => nofun
          · rw [hplace']
            exact nofun
          · rw [hplace']
            exact iff_of_false nofun nofun
      | idle =>
          rw [hop] at hgrant
          cases hgrant
          by_cases hplace : w.place l = .inside
          · have hplace' := hw.inside hstep hokl hop hplace
            have howner := (h.holder hl hplace).1
            refine h.inside hl hstep hokl (by rw [hop]; exact nofun) hplace ?_ ?_ ?_
            · rw [hplace']
              exact nofun
            · exact iff_of_true hplace' howner
            · intro j hji hc
              exact hji (Option.some.inj (hc.symm.trans howner))
          · exact h.outside hw hl hstep hokl hop hplace

/-- **Every run of workers that keep to the lock is serial.** -/
theorem serial (hw : w.Lawful start ok)
    (h : w.system.Trace (Worker.Guard start ok) (State.init s₀) t s) :
    Ordered w start ok s₀ t s := by
  induction h with
  | nil => exact .init
  | snoc _ hok hstep ih =>
      obtain ⟨s', hnext, heq⟩ := Option.map_eq_some_iff.1 hstep
      obtain ⟨rfl, rfl⟩ := Prod.mk.inj heq
      exact ih.step hw hok hnext

end CriticalSection
