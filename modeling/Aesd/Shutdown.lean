/-
**The shutdown: `signal_handler` of `server/aesdsocket.c`, and what the process does behind it.**

`signal_handler` clears `is_active` and then shuts the listening socket down, in whatever thread the
signal arrives and wherever that is; between the two, and before the first, the other threads go on.
`main` reads `is_active` at the head of its loop only, and waits for a connection in `accept`, which
a socket that was shut down makes return.  A signal that came between that test and `accept` would
be lost without the shutdown; one that comes before `listen` finds no socket to shut down, and must
not be lost either.

Here the loop of `main` with its handlers, which is in `MainThread`, stands between the calls of
`main` before and behind it, which are in `MainLife`, in the build for the device; next to them is
the listening socket, and any number of calls of `signal_handler` between their two steps.

* `Service`, `service` — the process, as a machine;
* `Service.Listens` — where there is a socket to shut down, and why `accept` returns;
* `signal_not_lost` — **behind a signal at most one connection is accepted**, and none when
  `signal_handler` is through.

That the process then comes to its end is in
`ServerStop`. -/

import Aesd.MainLife
import Aesd.SetupFailure

set_option relaxedAutoImplicit false
set_option autoImplicit false

namespace Aesd

/-! ### The process -/

/-- The listening socket. -/
inductive Listener where
  /-- There is none, or it was closed. -/
  | absent
  /-- It does not listen yet. -/
  | created
  | listening
  /-- It was shut down: `accept` fails. -/
  | shut
  deriving DecidableEq

/-- `shutdown`; it fails if the socket does not listen. -/
def Listener.shutdown : Listener → Listener
  | .listening => .shut
  | listener => listener

/-- What a call of `main` does to the listening socket. -/
def LifePc.listener : LifePc → Bool → Listener → Listener
  | .creatingSocket, true, _ => .created
  | .listening, true, _ => .listening
  | .closingSocket, _, _ => .absent
  | _, _, listener => listener

/-- `main` at its calls around the loop, the listening socket, the calls of `signal_handler` that
have cleared `is_active` and not yet shut the socket down, and the loop with the handlers. -/
structure Service where
  pc : LifePc
  listener : Listener
  handling : ℕ
  process : Process

/-- The process when it starts. -/
def Service.init : Service := ⟨.gettingAddrinfo, .absent, 0, .init⟩

/-- What the process does: `main` makes a call around the loop, or leaves it; there is a step in the
loop or of a handler, or the first one of `signal_handler`; or there is the second one. -/
inductive ServiceAct where
  | call (ok : Bool)
  | leave
  | process (a : ProcessAct)
  | shutdown

/-- The loop comes after the setup; a connection is accepted from a socket that listens; and threads
and signals are there as long as the process is. -/
def Service.allows (s : Service) : ProcessAct → Bool
  | .main (.accept (some _)) => s.pc = .serving && s.listener = .listening
  | .main _ => s.pc = .serving
  | .handler _ _ | .signal | .cancelled _ => s.pc ≠ .returned

/-- A step that begins a call of `signal_handler`. -/
def ProcessAct.signals : ProcessAct → Bool
  | .signal => true
  | _ => false

def Service.step (daemon : Bool) (s : Service) : ServiceAct → Option (Service × List Misuse)
  | .call ok =>
      (s.pc.next true daemon ok).map fun pc =>
        ({ s with pc := pc, listener := s.pc.listener ok s.listener }, [])
  | .leave =>
      if s.pc = .serving ∧ s.process.main = .returned then
        some ({ s with pc := .exit true }, [])
      else none
  | .process a =>
      if s.allows a then
        (s.process.step a).map fun p =>
          ({ s with process := p.1, handling := s.handling + if a.signals then 1 else 0 }, p.2)
      else none
  | .shutdown =>
      if 0 < s.handling then
        -- `sockfd` is `-1` where there is no socket
        some ({ s with handling := s.handling - 1, listener := s.listener.shutdown }, [])
      else none

/-- **The process as a machine.** -/
def service (daemon : Bool) : Machine Service ServiceAct (List Misuse) where
  step := Service.step daemon

/-- A connection is accepted. -/
def ServiceAct.accepts : ServiceAct → Bool
  | .process (.main (.accept (some _))) => true
  | _ => false

/-- The connections that are accepted in a run. -/
def accepted (t : List (ServiceAct × List Misuse)) : ℕ := t.countP fun p => p.1.accepts

/-! ### Where the socket is, and where `main` waits -/

variable {daemon : Bool} {s s' : Service} {a : ServiceAct} {o : List Misuse}

/-- **Where there is a socket to shut down, and why `accept` returns**: the socket listens, or was
shut down, from `listen` on; outside its part of the run the loop is not there; and if `main` is
about to wait, then `is_active` is set, or a call of `signal_handler` is still to shut the socket
down, or one has done so. -/
structure Service.Listens (s : Service) : Prop where
  listener : 6 ≤ s.pc.rank → s.pc.rank ≤ 9 → s.listener = .listening ∨ s.listener = .shut
  idle : s.pc ≠ .serving → s.process.main = .testing ∨ s.process.main = .returned
  waits : s.process.main = .accepting →
    s.process.isActive = true ∨ 0 < s.handling ∨ s.listener = .shut

theorem Service.Listens.init : Service.init.Listens where
  listener h := absurd h (by decide)
  idle _ := Or.inl rfl
  waits := nofun

/-- `main` is in its loop when it waits. -/
theorem Service.Listens.serving (h : s.Listens) (hmain : s.process.main = .accepting) :
    s.pc = .serving := by
  by_contra hne
  rcases h.idle hne with hc | hc <;> rw [hmain] at hc <;> cases hc

/-- A call around the loop, when the loop is not there. -/
theorem Service.call_cases {ok : Bool} (h : s.step daemon (.call ok) = some (s', o)) :
    ∃ pc, s.pc.next true daemon ok = some pc ∧ s.pc ≠ .serving ∧
      s' = { s with pc := pc, listener := s.pc.listener ok s.listener } ∧ o = [] := by
  obtain ⟨pc, hpc, heq⟩ := Option.map_eq_some_iff.1 h
  cases heq
  refine ⟨pc, hpc, ?_, rfl, rfl⟩
  intro hserving
  rw [hserving] at hpc
  cases hpc

theorem Service.leave_cases (h : s.step daemon .leave = some (s', o)) :
    s.pc = .serving ∧ s.process.main = .returned ∧ s' = { s with pc := .freeingAddrinfo } ∧
      o = [] := by
  rw [Service.step] at h
  split at h
  · next hcond =>
      cases h
      exact ⟨hcond.1, hcond.2, rfl, rfl⟩
  · cases h

theorem Service.process_cases {a : ProcessAct} (h : s.step daemon (.process a) = some (s', o)) :
    s.allows a = true ∧ ∃ p, s.process.step a = some (p, o) ∧
      s' = { s with process := p, handling := s.handling + if a.signals then 1 else 0 } := by
  rw [Service.step] at h
  split at h
  · next hallows =>
      obtain ⟨⟨p, o'⟩, hp, heq⟩ := Option.map_eq_some_iff.1 h
      cases heq
      exact ⟨hallows, p, hp, rfl⟩
  · cases h

theorem Service.shutdown_cases (h : s.step daemon .shutdown = some (s', o)) :
    0 < s.handling ∧
      s' = { s with handling := s.handling - 1, listener := s.listener.shutdown } ∧ o = [] := by
  rw [Service.step] at h
  split at h
  · next hhandling =>
      cases h
      exact ⟨hhandling, rfl, rfl⟩
  · cases h

/-- `main` makes its calls in the loop only. -/
theorem Service.serving_of_allows {e : MainEvent} (h : s.allows (.main e) = true) :
    s.pc = .serving := by
  cases e with
  | accept connection =>
      cases connection with
      | none => exact of_decide_eq_true h
      | some i =>
          simp only [Service.allows, Bool.and_eq_true, decide_eq_true_eq] at h
          exact h.1
  | _ => exact of_decide_eq_true h

/-- What a step of the loop or of a handler does to `is_active`, and when `main` comes to wait. -/
theorem Process.step_isActive {p p' : Process} {a : ProcessAct} (h : p.step a = some (p', o)) :
    (p'.isActive = if a.signals then false else p.isActive) ∧
      (p'.main = .accepting → p'.main = p.main ∨ p.isActive = true) := by
  cases a with
  | main e =>
      cases Process.mainStep_moves h with
      | test hmain =>
          refine ⟨rfl, ?_⟩
          intro hc
          by_cases hactive : p.isActive = true
          · exact Or.inr hactive
          · simp only [if_neg hactive] at hc
            cases hc
      | checked i nodes c hmain hc =>
          refine ⟨rfl, ?_⟩
          intro hc'
          simp only at hc'
          split at hc' <;> cases hc'
      | join i rest c hmain hc _ | freeInstance i rest c hmain hc =>
          refine ⟨rfl, ?_⟩
          intro hc'
          cases rest <;> cases hc'
      | _ => exact ⟨rfl, fun hc' => MainPc.noConfusion hc'⟩
  | signal =>
      cases h
      exact ⟨rfl, fun _ => Or.inl rfl⟩
  | handler i e =>
      obtain ⟨c, threads, pc, pc', -, -, -, rfl, -⟩ := Process.handlerStep_cases h
      exact ⟨rfl, fun _ => Or.inl rfl⟩
  | cancelled i =>
      obtain ⟨c, pc, -, -, -, rfl, -⟩ := Process.endStep_cases h
      exact ⟨rfl, fun _ => Or.inl rfl⟩

/-- From `listen` to the loop, a call of `main` leaves a socket that listens, or does not change
it. -/
theorem LifePc.next_listener {ok : Bool} {pc pc' : LifePc} (h : pc.next true daemon ok = some pc')
    (hsix : 6 ≤ pc'.rank) (hnine : pc'.rank ≤ 9) (listener : Listener) :
    pc.listener ok listener = .listening ∨
      (6 ≤ pc.rank ∧ pc.rank ≤ 9 ∧ pc.listener ok listener = listener) := by
  cases pc <;> cases ok <;> cases daemon <;> cases h <;>
    first
      | exact absurd hsix (by decide)
      | exact absurd hnine (by decide)
      | exact Or.inl rfl
      | exact Or.inr ⟨by decide, by decide, rfl⟩

/-- **Every step** leaves the socket, the flag and `main` like that. -/
theorem Service.Listens.step (h : s.Listens) (hstep : s.step daemon a = some (s', o)) :
    s'.Listens := by
  cases a with
  | call ok =>
      obtain ⟨pc, hpc, hserving, rfl, -⟩ := Service.call_cases hstep
      refine ⟨?_, fun _ => h.idle hserving, fun hmain => absurd (h.serving hmain) hserving⟩
      intro hsix hnine
      rcases LifePc.next_listener hpc hsix hnine s.listener with hlistening | ⟨hsix, hnine, hsame⟩
      · exact Or.inl hlistening
      · simp only [hsame]
        exact h.listener hsix hnine
  | leave =>
      obtain ⟨-, hmain, rfl, -⟩ := Service.leave_cases hstep
      refine ⟨fun _ hnine => absurd hnine (show ¬ 12 ≤ 9 by decide), fun _ => Or.inr hmain, ?_⟩
      intro hc
      rw [hmain] at hc
      cases hc
  | process a =>
      obtain ⟨hallows, p, hp, rfl⟩ := Service.process_cases hstep
      obtain ⟨hflag, hmain⟩ := Process.step_isActive hp
      refine ⟨h.listener, ?_, ?_⟩
      · intro hserving
        have ha : ∀ e, a ≠ .main e := by
          rintro e rfl
          exact hserving (Service.serving_of_allows hallows)
        simp only [(Process.step_others hp ha).1]
        exact h.idle hserving
      · intro hwaiting
        cases hsignal : a.signals with
        | true => exact Or.inr (Or.inl (by simp))
        | false =>
            rw [hsignal] at hflag
            simp only [hflag, Bool.false_eq_true, if_false, Nat.add_zero]
            rcases hmain hwaiting with hsame | hactive
            · exact h.waits (hsame ▸ hwaiting)
            · exact Or.inl hactive
  | shutdown =>
      obtain ⟨-, rfl, -⟩ := Service.shutdown_cases hstep
      have hshut : ∀ listener : Listener, listener = .listening ∨ listener = .shut →
          listener.shutdown = .shut := by
        rintro listener (rfl | rfl) <;> rfl
      refine ⟨?_, h.idle, ?_⟩
      · exact fun hsix hnine => Or.inr (hshut _ (h.listener hsix hnine))
      · intro hmain
        have hserving := h.serving hmain
        exact Or.inr (Or.inr (hshut _ (h.listener (by rw [hserving]; decide)
          (by rw [hserving]; decide))))

/-! ### No signal is lost -/

/-- `main` waits for a connection, and one may come. -/
def Service.open (s : Service) : ℕ :=
  if s.process.main = .accepting ∧ s.listener = .listening then 1 else 0

/-- When `is_active` is cleared, a connection is accepted only where `main` waits already. -/
theorem Service.Listens.step_open (h : s.Listens) (hsignal : s.process.isActive = false)
    (hstep : s.step daemon a = some (s', o)) :
    s'.process.isActive = false ∧ (if a.accepts then 1 else 0) + s'.open ≤ s.open := by
  cases a with
  | call ok =>
      obtain ⟨pc, -, hserving, rfl, -⟩ := Service.call_cases hstep
      have hmain : s.process.main ≠ .accepting := fun hc => hserving (h.serving hc)
      exact ⟨hsignal, by simp [ServiceAct.accepts, Service.open, hmain]⟩
  | leave =>
      obtain ⟨-, hmain, rfl, -⟩ := Service.leave_cases hstep
      exact ⟨hsignal, by simp [ServiceAct.accepts, Service.open, hmain]⟩
  | process a =>
      obtain ⟨hallows, p, hp, rfl⟩ := Service.process_cases hstep
      obtain ⟨hflag, hmain⟩ := Process.step_isActive hp
      refine ⟨by rw [hflag, hsignal]; exact ite_self _, ?_⟩
      by_cases haccept : ∃ i, a = .main (.accept (some i))
      · -- `main` has waited, and does so no more
        obtain ⟨i, rfl⟩ := haccept
        have hlistening : s.listener = .listening := by
          simp only [Service.allows, Bool.and_eq_true, decide_eq_true_eq] at hallows
          exact hallows.2
        cases Process.mainStep_moves hp with
        | accepted _ hwaiting =>
            simp [ServiceAct.accepts, Service.open, hwaiting, hlistening, Process.goto]
      · have hnot : ServiceAct.accepts (.process a) = false := by
          unfold ServiceAct.accepts
          split
          · next i heq =>
              cases heq
              exact absurd ⟨i, rfl⟩ haccept
          · rfl
        rw [hnot, if_neg Bool.false_ne_true, Nat.zero_add]
        unfold Service.open
        by_cases hwaiting : p.main = .accepting
        · rcases hmain hwaiting with hsame | hactive
          · simp only [hsame, le_refl]
          · rw [hsignal] at hactive
            cases hactive
        · rw [if_neg fun hc => hwaiting hc.1]
          exact Nat.zero_le _
  | shutdown =>
      obtain ⟨-, rfl, -⟩ := Service.shutdown_cases hstep
      refine ⟨hsignal, ?_⟩
      cases hlistener : s.listener <;>
        simp [ServiceAct.accepts, Service.open, hlistener, Listener.shutdown]

/-- **No signal is lost.**  When `signal_handler` has cleared `is_active`, in whatever state of the
process, it stays cleared, and at most one connection is accepted from then on: where `main` was
about to wait, and the socket was not yet shut down.  When all calls of `signal_handler` are
through, `main` does not wait for anybody, and no connection is accepted. -/
theorem signal_not_lost {daemon : Bool} {s : Service}
    (hs : (service daemon).Reach Machine.free .init s) (hsignal : s.process.isActive = false) :
    (s.process.main = .accepting → s.handling = 0 → s.listener = .shut) ∧
      ∀ t s', (service daemon).Trace Machine.free s t s' →
        s'.process.isActive = false ∧
          accepted t ≤ if s.process.main = .accepting ∧ 0 < s.handling then 1 else 0 := by
  have hlistens : s.Listens := hs.invariant .init fun _ _ _ _ h _ hstep => h.step hstep
  have hshut : s.process.main = .accepting → s.handling = 0 → s.listener = .shut := by
    intro hmain hthrough
    rcases hlistens.waits hmain with hactive | hhandling | hshut
    · rw [hsignal] at hactive
      cases hactive
    · omega
    · exact hshut
  refine ⟨hshut, ?_⟩
  intro t s' ht
  have hrun : s'.Listens ∧ s'.process.isActive = false ∧ accepted t + s'.open ≤ s.open := by
    induction ht with
    | nil => exact ⟨hlistens, hsignal, by simp [accepted]⟩
    | snoc _ _ hstep ih =>
        obtain ⟨hlistens, hsignal, hle⟩ := ih
        obtain ⟨hsignal', hle'⟩ := hlistens.step_open hsignal hstep
        refine ⟨hlistens.step hstep, hsignal', ?_⟩
        rw [accepted, List.countP_append, List.countP_singleton, ← accepted]
        dsimp only
        omega
  refine ⟨hrun.2.1, ?_⟩
  have hopen : s.open ≤ if s.process.main = .accepting ∧ 0 < s.handling then 1 else 0 := by
    unfold Service.open
    by_cases hmain : s.process.main = .accepting
    · rcases Nat.eq_zero_or_pos s.handling with hzero | hpos
      · simp [hshut hmain hzero]
      · simp only [hmain, hpos, and_self, if_true, true_and]
        split <;> omega
    · simp [hmain]
  have := hrun.2.2
  omega

/-- The labels of a run in which a client sends nothing, `main` waits for the next one, and a signal
arrives. -/
def signalWaiting : List ServiceAct :=
  List.replicate 6 (.call true) ++
    [MainEvent.go, .accept (some 0), .malloc true, .malloc true, .pthreadCreate true,
      .queueEnqueue true, .go, .go, .go].map (fun e => .process (.main e)) ++
    [.process (.handler 0 (.lock 0)), .process (.handler 0 (.fopen true)), .process .signal]

theorem signal_not_lost_signalWaiting :
    ∃ s, (service false).Reach Machine.free .init s ∧ s.process.main = .accepting ∧
      s.listener = .listening ∧ s.handling = 1 ∧
      ∀ t s', (service false).Trace Machine.free s t s' →
        s'.process.isActive = false ∧ accepted t ≤ 1 := by
  have hex : ∃ p, (service false).run .init signalWaiting = some p :=
    Option.isSome_iff_exists.1 (by decide +kernel)
  obtain ⟨⟨s, os⟩, hrun⟩ := hex
  have hmain : s.process.main = .accepting := Machine.run_map hrun (fun p => p.1.process.main) rfl
  have hhandling : s.handling = 1 := Machine.run_map hrun (fun p => p.1.handling) rfl
  have hsignal : s.process.isActive = false :=
    Machine.run_map hrun (fun p => p.1.process.isActive) rfl
  have hreach : (service false).Reach Machine.free .init s :=
    ⟨_, Machine.trace_of_run hrun (Machine.passes_free _ _)⟩
  refine ⟨s, hreach, hmain, Machine.run_map hrun (fun p => p.1.listener) rfl, hhandling, ?_⟩
  intro t s' ht
  obtain ⟨hsignal', hle⟩ := (signal_not_lost hreach hsignal).2 t s' ht
  rw [if_pos ⟨hmain, by rw [hhandling]; decide⟩] at hle
  exact ⟨hsignal', hle⟩

end Aesd
