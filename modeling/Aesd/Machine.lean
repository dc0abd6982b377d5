/-
**Machines with labelled, partial steps, and what holds along their runs.**

Everything in this project that takes step after step — the device driver under a sequence of
system calls, the connection threads of the server under a scheduler, the main loop next to the
threads it spawns — is an instance of one notion: a state, a step that reads a label and either
answers with the next state and an output or is not possible, and the runs that such steps make.

A run is recorded with its history, because several results compare two runs, or say what the
outputs of a whole run were.  A *guard* `ok` restricts the steps a run may take; it may look at
the state before the step and at the label, never at what the step computes.

Main definitions:

* `Machine`, `Machine.run` — a machine, and the run on a list of labels, computed;
* `Machine.Trace` — the runs whose steps all pass a guard, with their history;
* `Machine.Reach` — the states such runs reach.

Main results:

* `Machine.Trace.invariant` — what holds at the start and is kept by every step holds throughout;
* `Machine.Trace.invariant_outputs` — and what it says about an output holds of all of them;
* `Machine.reach_final` — what makes a measure smaller and is never stuck comes to its end;
* `Machine.trace_of_run` — a computed run is a run in the sense of `Machine.Trace`;
* `Machine.run_of_passes` — labels that pass the guard one after the other make a run, if a guarded
  step is always possible;
* `Machine.run_simulates` — a step-by-step simulation of one machine by another goes through a whole
  run;
* `Machine.Trace.refines`, `Machine.Trace.refines_labels` — and a run whose steps are steps of
  another machine is a run of that;
* `Machine.Trace.unique` — a run is determined by its labels.
-/

import Mathlib.Data.List.Basic
import Mathlib.Logic.Function.Basic

set_option relaxedAutoImplicit false
set_option autoImplicit false

/-- A machine with states `σ`, labels `ι` and outputs `ο`.  A step that is not possible — blocked,
or ending in a fault — is `none`. -/
structure Machine (σ ι ο : Type) where
  /-- One step. -/
  step : σ → ι → Option (σ × ο)

namespace Machine

variable {σ ι ο : Type} (m : Machine σ ι ο)

/-! ### Runs -/

/-- The run on a list of labels: the last state and the outputs, or `none` if a step is not
possible. -/
def run : σ → List ι → Option (σ × List ο)
  | s, [] => some (s, [])
  | s, i :: is =>
      match m.step s i with
      | none => none
      | some (s', o) => (run s' is).map fun p => (p.1, o :: p.2)

theorem run_cons_eq_some {s s' : σ} {i : ι} {is : List ι} {os : List ο} :
    m.run s (i :: is) = some (s', os) ↔
      ∃ s₁ o os', m.step s i = some (s₁, o) ∧ m.run s₁ is = some (s', os') ∧ os = o :: os' := by
  rw [run]
  cases hstep : m.step s i with
  | none => simp
  | some p =>
      obtain ⟨s₁, o⟩ := p
      simp only [Option.map_eq_some_iff, Prod.mk.injEq, Prod.exists]
      constructor
      · rintro ⟨s₂, os', hrun, rfl, rfl⟩
        exact ⟨s₁, o, os', rfl, hrun, rfl⟩
      · rintro ⟨s₂, o₂, os', hs, hrun, rfl⟩
        cases hs
        exact ⟨s', os', hrun, rfl, rfl⟩

/-- The runs whose steps all pass the guard `ok`, with their history of labels and outputs. -/
inductive Trace (ok : σ → ι → Prop) (s₀ : σ) : List (ι × ο) → σ → Prop
  | nil : Trace ok s₀ [] s₀
  | snoc {t : List (ι × ο)} {s s' : σ} {i : ι} {o : ο} : Trace ok s₀ t s → ok s i →
      m.step s i = some (s', o) → Trace ok s₀ (t ++ [(i, o)]) s'

/-- The states that runs with guard `ok` reach from `s₀`. -/
def Reach (ok : σ → ι → Prop) (s₀ s : σ) : Prop := ∃ t, m.Trace ok s₀ t s

/-- The guard that lets every step pass. -/
def free : σ → ι → Prop := fun _ _ => True

variable {m} {ok : σ → ι → Prop} {s₀ : σ}

theorem Reach.refl : m.Reach ok s₀ s₀ := ⟨[], Trace.nil⟩

theorem Reach.step {s s' : σ} {i : ι} {o : ο} (h : m.Reach ok s₀ s) (hok : ok s i)
    (hstep : m.step s i = some (s', o)) : m.Reach ok s₀ s' := by
  obtain ⟨t, ht⟩ := h
  exact ⟨_, ht.snoc hok hstep⟩

/-- A run goes on with a run from the state it reached. -/
theorem Reach.trans {s s' : σ} (h : m.Reach ok s₀ s) (h' : m.Reach ok s s') :
    m.Reach ok s₀ s' := by
  obtain ⟨t, ht⟩ := h'
  induction ht with
  | nil => exact h
  | snoc _ hok hstep ih => exact ih.step hok hstep

/-- A weaker guard has more runs. -/
theorem Trace.mono {ok' : σ → ι → Prop} {t : List (ι × ο)} {s : σ} (h : m.Trace ok s₀ t s)
    (hsub : ∀ s i, ok s i → ok' s i) : m.Trace ok' s₀ t s := by
  induction h with
  | nil => exact Trace.nil
  | snoc _ hok hstep ih => exact ih.snoc (hsub _ _ hok) hstep

/-! ### What holds along a run -/

/-- **The invariant rule.**  What holds at the start and is kept by every step that passes the
guard holds in every state of a run. -/
theorem Trace.invariant {I : σ → Prop} {t : List (ι × ο)} {s : σ} (h : m.Trace ok s₀ t s)
    (hinit : I s₀)
    (hstep : ∀ s i s' o, I s → ok s i → m.step s i = some (s', o) → I s') : I s := by
  induction h with
  | nil => exact hinit
  | snoc _ hok hs ih => exact hstep _ _ _ _ ih hok hs

theorem Reach.invariant {I : σ → Prop} {s : σ} (h : m.Reach ok s₀ s) (hinit : I s₀)
    (hstep : ∀ s i s' o, I s → ok s i → m.step s i = some (s', o) → I s') : I s := by
  obtain ⟨t, ht⟩ := h
  exact ht.invariant hinit hstep

/-- The invariant rule, with what the invariant says about the output of each step. -/
theorem Trace.invariant_outputs {I : σ → Prop} {O : ο → Prop} {t : List (ι × ο)} {s : σ}
    (h : m.Trace ok s₀ t s) (hinit : I s₀)
    (hstep : ∀ s i s' o, I s → ok s i → m.step s i = some (s', o) → I s' ∧ O o) :
    I s ∧ ∀ p ∈ t, O p.2 := by
  induction h with
  | nil => exact ⟨hinit, fun _ => nofun⟩
  | snoc _ hok hs ih =>
      obtain ⟨hI, hO⟩ := hstep _ _ _ _ ih.1 hok hs
      refine ⟨hI, ?_⟩
      intro p hp
      rcases List.mem_append.1 hp with hp | hp
      · exact ih.2 p hp
      · rw [List.mem_singleton.1 hp]
        exact hO

/-! ### Runs that come to an end -/

section Measure

variable {I : σ → Prop} {μ : σ → ℕ}

/-- A measure that every step makes smaller bounds the length of the runs. -/
theorem Trace.length_add_le {t : List (ι × ο)} {s : σ} (h : m.Trace ok s₀ t s) (hinit : I s₀)
    (hstep : ∀ s i s' o, I s → ok s i → m.step s i = some (s', o) → I s' ∧ μ s' < μ s) :
    I s ∧ t.length + μ s ≤ μ s₀ := by
  induction h with
  | nil => exact ⟨hinit, by simp⟩
  | snoc _ hok hs ih =>
      obtain ⟨hI, hlt⟩ := hstep _ _ _ _ ih.1 hok hs
      refine ⟨hI, ?_⟩
      rw [List.length_append, List.length_singleton]
      have := ih.2
      omega

/-- **The termination rule.**  If every step makes a measure smaller, and a step is possible until
the end is reached, then the end is reached. -/
theorem reach_final (final : σ → Prop) {s : σ} (hinit : I s)
    (hstep : ∀ s i s' o, I s → ok s i → m.step s i = some (s', o) → I s' ∧ μ s' < μ s)
    (hprogress : ∀ s, I s → ¬ final s → ∃ i s' o, ok s i ∧ m.step s i = some (s', o)) :
    ∃ s', m.Reach ok s s' ∧ I s' ∧ final s' := by
  induction hm : μ s using Nat.strongRecOn generalizing s with
  | ind n ih =>
      by_cases hfinal : final s
      · exact ⟨s, .refl, hinit, hfinal⟩
      · obtain ⟨i, s₁, o, hok, hs⟩ := hprogress s hinit hfinal
        obtain ⟨hI, hlt⟩ := hstep _ _ _ _ hinit hok hs
        obtain ⟨s', hreach, hI', hfinal'⟩ := ih _ (hm ▸ hlt) hI rfl
        exact ⟨s', (Reach.refl.step hok hs).trans hreach, hI', hfinal'⟩

end Measure

/-! ### Labels that pass a guard -/

variable (m)

/-- Along the run on the labels, every step passes the guard. -/
def Passes (ok : σ → ι → Prop) : σ → List ι → Prop
  | _, [] => True
  | s, i :: is => ok s i ∧ ∀ s' o, m.step s i = some (s', o) → Passes ok s' is

theorem passes_cons {s : σ} {i : ι} {is : List ι} :
    m.Passes ok s (i :: is) ↔ ok s i ∧ ∀ p ∈ m.step s i, m.Passes ok p.1 is := by
  simp only [Passes, Option.mem_def, Prod.forall]

instance decidablePasses [∀ s i, Decidable (ok s i)] :
    (s : σ) → (is : List ι) → Decidable (m.Passes ok s is)
  | _, [] => isTrue trivial
  | s, i :: is =>
      have : Decidable (∀ p ∈ m.step s i, m.Passes ok p.1 is) :=
        match m.step s i with
        | none => isTrue (by simp)
        | some p =>
            match decidablePasses p.1 is with
            | isTrue h => isTrue (by simpa using h)
            | isFalse h => isFalse (by simpa using h)
      decidable_of_iff _ (passes_cons m).symm

variable {m}

/-- Every run passes the guard that lets every step pass. -/
theorem passes_free (s : σ) (is : List ι) : m.Passes free s is := by
  induction is generalizing s with
  | nil => trivial
  | cons i is ih => exact ⟨trivial, fun s' _ _ => ih s'⟩

/-- A computed run, all of whose steps pass the guard, is a run with that history. -/
theorem trace_append_run {is : List ι} {os : List ο} {t : List (ι × ο)} {s s' : σ}
    (h : m.Trace ok s₀ t s) (hrun : m.run s is = some (s', os)) (hok : m.Passes ok s is) :
    m.Trace ok s₀ (t ++ is.zip os) s' := by
  induction is generalizing t s os with
  | nil =>
      cases hrun
      simpa using h
  | cons i is ih =>
      obtain ⟨s₁, o, os', hs, hrest, rfl⟩ := (run_cons_eq_some m).1 hrun
      have := ih (h.snoc hok.1 hs) hrest (hok.2 s₁ o hs)
      simpa [List.append_assoc] using this

theorem trace_of_run {is : List ι} {os : List ο} {s' : σ} (hrun : m.run s₀ is = some (s', os))
    (hok : m.Passes ok s₀ is) : m.Trace ok s₀ (is.zip os) s' :=
  trace_append_run Trace.nil hrun hok

/-- What is computed of a run holds of it. -/
theorem run_map {α : Type} {s : σ} {is : List ι} {p : σ × List ο} {x : α}
    (hrun : m.run s is = some p) (f : σ × List ο → α) (hx : (m.run s is).map f = some x) :
    f p = x := by
  rw [hrun, Option.map_some] at hx
  exact Option.some.inj hx

/-- **The progress rule.**  If a step that passes the guard is possible and keeps an invariant, the
run on labels that pass the guard exists; its outputs, where the label determines them, and its last
state are those of a fold. -/
theorem run_of_passes {α : Type} (I : σ → Prop) (abs : σ → α) (astep : α → ι → α) (out : ι → ο)
    {s : σ} {is : List ι} (h : m.Passes ok s is) (hI : I s)
    (hstep : ∀ s i, I s → ok s i →
      ∃ s', m.step s i = some (s', out i) ∧ I s' ∧ abs s' = astep (abs s) i) :
    ∃ s', m.run s is = some (s', is.map out) ∧ I s' ∧ abs s' = is.foldl astep (abs s) := by
  induction is generalizing s with
  | nil => exact ⟨s, rfl, hI, rfl⟩
  | cons i is ih =>
      obtain ⟨s₁, hs, hI₁, habs⟩ := hstep s i hI h.1
      obtain ⟨s', hrun, hI', habs'⟩ := ih (h.2 s₁ _ hs) hI₁
      refine ⟨s', (run_cons_eq_some m).2 ⟨s₁, _, _, hs, hrun, rfl⟩, hI', ?_⟩
      rw [habs', habs, List.foldl_cons]

/-- **The simulation rule.**  If related states stay related in a step that passes the guard, and
both machines put out the same, then the runs on labels that pass the guard exist in both, put out
the same, and end in related states. -/
theorem run_simulates {τ : Type} {a : Machine τ ι ο} {R : σ → τ → Prop} {s : σ} {x : τ}
    {is : List ι} (h : m.Passes ok s is) (hR : R s x)
    (hstep : ∀ s x i, R s x → ok s i →
      ∃ s' x' o, m.step s i = some (s', o) ∧ a.step x i = some (x', o) ∧ R s' x') :
    ∃ s' x' os, m.run s is = some (s', os) ∧ a.run x is = some (x', os) ∧ R s' x' := by
  induction is generalizing s x with
  | nil => exact ⟨s, x, [], rfl, rfl, hR⟩
  | cons i is ih =>
      obtain ⟨s₁, x₁, o, hs, hx, hR₁⟩ := hstep s x i hR h.1
      obtain ⟨s', x', os, hrun, harun, hR'⟩ := ih (h.2 s₁ o hs) hR₁
      exact ⟨s', x', o :: os, (run_cons_eq_some m).2 ⟨s₁, o, os, hs, hrun, rfl⟩,
        (run_cons_eq_some a).2 ⟨x₁, o, os, hx, harun, rfl⟩, hR'⟩

/-- **The refinement rule.**  If what a guarded step does to related states is a guarded step of the
other machine, with the label and the output read as that machine's, then a run is a run of the
other machine. -/
theorem Trace.refines {τ κ ω : Type} {a : Machine τ κ ω} {ok' : τ → κ → Prop} {R : σ → τ → Prop}
    {f : ι → κ} {g : ο → ω} {t : List (ι × ο)} {s : σ} {x₀ : τ} (h : m.Trace ok s₀ t s)
    (hR : R s₀ x₀)
    (hstep : ∀ s x i s' o, R s x → ok s i → m.step s i = some (s', o) →
      ok' x (f i) ∧ ∃ x', a.step x (f i) = some (x', g o) ∧ R s' x') :
    ∃ x, a.Trace ok' x₀ (t.map fun p => (f p.1, g p.2)) x ∧ R s x := by
  induction h with
  | nil => exact ⟨x₀, .nil, hR⟩
  | snoc _ hok hs ih =>
      obtain ⟨x, htrace, hR⟩ := ih
      obtain ⟨hok', x', hx, hR'⟩ := hstep _ _ _ _ _ hR hok hs
      refine ⟨x', ?_, hR'⟩
      rw [List.map_append]
      exact htrace.snoc hok' hx

/-- The refinement rule, where the other machine's label may depend on the output. -/
theorem Trace.refines_labels {τ κ ω : Type} {a : Machine τ κ ω} {ok' : τ → κ → Prop}
    {R : σ → τ → Prop} {f : ι × ο → κ × ω} {t : List (ι × ο)} {s : σ} {x₀ : τ}
    (h : m.Trace ok s₀ t s) (hR : R s₀ x₀)
    (hstep : ∀ s x i s' o, R s x → ok s i → m.step s i = some (s', o) →
      ok' x (f (i, o)).1 ∧ ∃ x', a.step x (f (i, o)).1 = some (x', (f (i, o)).2) ∧ R s' x') :
    ∃ x, a.Trace ok' x₀ (t.map f) x ∧ R s x := by
  induction h with
  | nil => exact ⟨x₀, .nil, hR⟩
  | snoc _ hok hs ih =>
      obtain ⟨x, htrace, hR⟩ := ih
      obtain ⟨hok', x', hx, hR'⟩ := hstep _ _ _ _ _ hR hok hs
      refine ⟨x', ?_, hR'⟩
      rw [List.map_append]
      exact htrace.snoc hok' hx

/-- **A run is determined by its labels.** -/
theorem Trace.unique {ok' : σ → ι → Prop} {t t' : List (ι × ο)} {s s' : σ}
    (h : m.Trace ok s₀ t s) (h' : m.Trace ok' s₀ t' s')
    (hlabels : t.map Prod.fst = t'.map Prod.fst) : t = t' ∧ s = s' := by
  induction h generalizing t' s' with
  | nil =>
      cases h' with
      | nil => exact ⟨rfl, rfl⟩
      | snoc => simp at hlabels
  | snoc _ _ hs ih =>
      cases h' with
      | nil => simp at hlabels
      | snoc htrace' _ hs' =>
          rw [List.map_append, List.map_append] at hlabels
          obtain ⟨hbefore, hlast⟩ := List.append_inj' hlabels rfl
          obtain ⟨rfl, rfl⟩ := ih htrace' hbefore
          obtain rfl := List.head_eq_of_cons_eq hlast
          rw [hs] at hs'
          cases hs'
          exact ⟨rfl, rfl⟩

end Machine
