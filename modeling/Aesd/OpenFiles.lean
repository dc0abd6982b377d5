/-
**Open files that are shared, and calls on them at the same time.**

`ConcurrentCalls` takes each call apart and hands it its file as a value.  Here the files are behind
the descriptors, as in `CharDevice`: a call looks its file up when it begins, makes its steps next
to those of any number of other calls, and hands the file back when it returns.  `aesd_open` and
`aesd_release` change nothing but the file, and are done at once.

The driver's mutex belongs to the device and not to the file.  `aesd_llseek` moves `filp->f_pos`
after it has released it, and a read gets the position that the file had when it began, so two calls
on one open file can each miss what the other does to the position.  The runs here are those in
which *one call at a time runs on an open file*; calls on different files run as they like.

* `Call.start`, `Result.onFile` — what a call finds in its file, and what it leaves there;
* `OpenFiles`, `OpenFiles.act` — the descriptors and the calls that are running;
* `OpenFiles.Guard` — one call at a time on an open file;
* `Linearized`, `Linearized.step` — the calls one after the other, and that every step keeps this;
* `calls_linearize` — **concurrent calls are atomic calls, in an order that agrees with time**.
-/

import Aesd.ConcurrentCalls

set_option relaxedAutoImplicit false
set_option autoImplicit false

namespace Aesd

open CriticalSection

/-! ### What a call does to its file -/

/-- The descriptor that a call is made on. -/
def Call.descriptor : Call → Option ℕ
  | .openFile f | .releaseFile f => some f
  | .read f _ _ _ => f
  | .write f _ _ => f
  | .llseek f _ _ => some f
  | .ioctl f _ _ => some f

/-- Changes what is behind a descriptor. -/
def modifyAt {β : Type} (table : ℕ → β) (f : Option ℕ) (g : β → β) : ℕ → β :=
  match f with
  | none => table
  | some f => Function.update table f (g (table f))

/-- How a call begins: opening and releasing a file is done at once, any other call looks up its
file and the position in it. -/
def Call.start (file : ℕ → File) : Call → ((ℕ → File) × Reply) ⊕ Op
  | .openFile f =>
      let (filp, r) := aesdOpen ⟨false, 0⟩
      .inl (Function.update file f filp, ⟨r, []⟩)
  | .releaseFile f =>
      let (filp, r) := aesdRelease (file f)
      .inl (Function.update file f filp, ⟨r, []⟩)
  | .read f buf count env =>
      .inr (.read (f.map file) buf count (((f.map file).map File.fPos).getD 0) env)
  | .write f buf env => .inr (.write (f.map file) buf env)
  | .llseek f off whence => .inr (.llseek (file f) off whence)
  | .ioctl f cmd env => .inr (.ioctl (file f) cmd env)

/-- What the caller gets. -/
def Result.reply : Result → Reply
  | .read r => ⟨r.retval, r.data⟩
  | .write retval => ⟨retval, []⟩
  | .seek _ retval => ⟨retval, []⟩

/-- What becomes of the file. -/
def Result.onFile : Result → File → File
  | .read r, filp => { filp with fPos := r.fPos }
  | .write _, filp => filp
  | .seek filp _, _ => filp

@[simp] theorem modifyAt_self {β : Type} (table : ℕ → β) (i : ℕ) (g : β → β) :
    modifyAt table (some i) g i = g (table i) := Function.update_self ..

theorem modifyAt_of_ne {β : Type} (table : ℕ → β) {f : Option ℕ} (g : β → β) {i : ℕ}
    (hf : f ≠ some i) : modifyAt table f g i = table i := by
  cases f with
  | none => rfl
  | some j => exact Function.update_of_ne (fun hij => hf (congrArg some hij.symm)) ..

/-- A call finds nothing but its file. -/
theorem Call.start_congr {file file' : ℕ → File} {c : Call}
    (h : ∀ f ∈ c.descriptor, file f = file' f) {a : Op} (ha : c.start file = .inr a) :
    c.start file' = .inr a := by
  rw [← ha]
  cases c with
  | openFile f | releaseFile f => cases ha
  | read f buf count env =>
      cases f with
      | none => rfl
      | some f => simp only [start, Option.map_some, h f rfl]
  | write f buf env =>
      cases f with
      | none => rfl
      | some f => simp only [start, Option.map_some, h f rfl]
  | llseek f off whence => simp only [start, h f rfl]
  | ioctl f cmd env => simp only [start, h f rfl]

theorem Call.start_at_once {file file' file₁ : ℕ → File} {c : Call} {r : Reply}
    (h : c.start file = .inl (file₁, r)) (hfile : ∀ f ∈ c.descriptor, file f = file' f) :
    ∃ filp, file₁ = modifyAt file c.descriptor (fun _ => filp) ∧
      c.start file' = .inl (modifyAt file' c.descriptor fun _ => filp, r) := by
  cases c with
  | openFile f =>
      cases h
      exact ⟨_, rfl, rfl⟩
  | releaseFile f =>
      cases h
      exact ⟨_, rfl, by rw [start, hfile f rfl]; rfl⟩
  | read | write | llseek | ioctl => cases h

/-- **A call of `charDev` is the call in one step, between finding the file and leaving it.** -/
theorem Sys.call_of_start {M : ℕ} {u : Sys} {c : Call} {a : Op} (ha : c.start u.file = .inr a)
    {k : Kernel} {r : Result} (hatomic : a.atomic M u.kern = .ok (k, r)) :
    u.call M c = .ok (⟨k, modifyAt u.file c.descriptor r.onFile⟩, r.reply) := by
  cases c with
  | openFile f | releaseFile f => cases ha
  | read f buf count env =>
      cases ha
      simp only [Op.atomic] at hatomic
      cases hread : aesdRead env u.kern (f.map u.file) buf count
          (((f.map u.file).map File.fPos).getD 0) with
      | error e =>
          rw [hread] at hatomic
          cases hatomic
      | ok q =>
          rw [hread] at hatomic
          cases hatomic
          simp only [Sys.call, hread]
          cases f <;> rfl
  | write f buf env =>
      cases ha
      simp only [Op.atomic] at hatomic
      cases hwrite : aesdWrite M env u.kern (f.map u.file) buf with
      | error e =>
          rw [hwrite] at hatomic
          cases hatomic
      | ok q =>
          rw [hwrite] at hatomic
          cases hatomic
          simp only [Sys.call, hwrite]
          cases f with
          | none => rfl
          | some f =>
              have hsame : modifyAt u.file (some f) (Result.write q.2).onFile = u.file :=
                Function.update_eq_self f u.file
              simp only [Call.descriptor, hsame]
              rfl
  | llseek f off whence =>
      cases ha
      simp only [Op.atomic] at hatomic
      cases hseek : aesdLlseek u.kern (u.file f) off whence with
      | error e =>
          rw [hseek] at hatomic
          cases hatomic
      | ok q =>
          rw [hseek] at hatomic
          cases hatomic
          simp only [Sys.call, hseek]
          rfl
  | ioctl f cmd env =>
      cases ha
      simp only [Op.atomic] at hatomic
      cases hseek : aesdIoctl env u.kern (u.file f) cmd with
      | error e =>
          rw [hseek] at hatomic
          cases hatomic
      | ok q =>
          rw [hseek] at hatomic
          cases hatomic
          simp only [Sys.call, hseek]
          rfl

theorem Sys.call_at_once {M : ℕ} {u : Sys} {c : Call} {q : (ℕ → File) × Reply}
    (h : c.start u.file = .inl q) : u.call M c = .ok (⟨u.kern, q.1⟩, q.2) := by
  cases c with
  | openFile f | releaseFile f =>
      cases h
      rfl
  | read | write | llseek | ioctl => cases h

/-! ### The descriptors and the calls -/

/-- The open files by descriptor, and the calls by the name of who makes them. -/
structure OpenFiles (ι : Type) where
  workers : CriticalSection.State ι (Running Op Pos After Result) Kernel
  file : ℕ → File
  /-- The call that is running on a file. -/
  user : ℕ → Option ι
  /-- The calls that were made, -/
  call : ι → Option Call
  /-- and what they returned. -/
  reply : ι → Option Reply

/-- A call begins, makes its next step, or returns. -/
inductive CallAct (ι : Type) where
  | enter (i : ι) (c : Call)
  | tick (i : ι) (e : Tick)
  | exit (i : ι)

/-- The loaded module, no file open. -/
def OpenFiles.init {ι : Type} : OpenFiles ι :=
  ⟨State.init Kernel.init, fun _ => ⟨false, 0⟩, fun _ => none, fun _ => none, fun _ => none⟩

section Acts

variable {ι : Type} [DecidableEq ι]

def OpenFiles.act (M : ℕ) (s : OpenFiles ι) : CallAct ι → Option (OpenFiles ι)
  | .enter i c =>
      if (s.call i).isSome then none
      else
        match c.start s.file with
        | .inl (file, r) =>
            some { s with
              file := file
              call := Function.update s.call i (some c)
              reply := Function.update s.reply i (some r) }
        | .inr a => do
            let workers ← (driver M).worker.next s.workers (.spawn i ⟨a, .start⟩)
            some { s with
              workers := workers
              user := modifyAt s.user c.descriptor fun _ => some i
              call := Function.update s.call i (some c) }
  | .tick i e => do
      let workers ← (driver M).worker.next s.workers (.call i e)
      some { s with workers := workers }
  | .exit i =>
      match s.call i, s.workers.worker i, s.reply i with
      | some c, some ⟨_, .returned r⟩, none =>
          some { s with
            file := modifyAt s.file c.descriptor r.onFile
            user := modifyAt s.user c.descriptor fun _ => none
            reply := Function.update s.reply i (some r.reply) }
      | _, _, _ => none

/-- **The open files as a machine.** -/
def sharedDriver (M : ℕ) : Machine (OpenFiles ι) (CallAct ι) Unit where
  step s a := (s.act M a).map fun s' => (s', ())

omit [DecidableEq ι] in
/-- **One call at a time runs on an open file.** -/
def OpenFiles.Guard (s : OpenFiles ι) : CallAct ι → Prop
  | .enter _ c => ∀ f ∈ c.descriptor, s.user f = none
  | .tick _ _ | .exit _ => True

instance OpenFiles.decidableGuard (s : OpenFiles ι) : (a : CallAct ι) → Decidable (s.Guard a)
  | .enter _ c => inferInstanceAs (Decidable (∀ f ∈ c.descriptor, s.user f = none))
  | .tick _ _ | .exit _ => isTrue trivial

/-- The runs of calls on the loaded module. -/
def SharedRun (M : ℕ) (t : List (CallAct ι × Unit)) (s : OpenFiles ι) : Prop :=
  (sharedDriver M).Trace OpenFiles.Guard OpenFiles.init t s

omit [DecidableEq ι] in
/-- The calls that take the mutex in a step. -/
def CallAct.taken : CallAct ι → List ι
  | .tick i e => Procedure.Tick.taken i e
  | .enter _ _ | .exit _ => []

omit [DecidableEq ι] in
/-- The calls that got the mutex, in this order. -/
def gotMutex (t : List (CallAct ι × Unit)) : List ι := t.flatMap fun p => p.1.taken

/-- **What a step does.** -/
inductive OpenFiles.Moves (M : ℕ) (s : OpenFiles ι) : CallAct ι → OpenFiles ι → Prop
  | atOnce {i : ι} {c : Call} {file : ℕ → File} {r : Reply} : s.call i = none →
      c.start s.file = .inl (file, r) →
      Moves M s (.enter i c) { s with
        file := file
        call := Function.update s.call i (some c)
        reply := Function.update s.reply i (some r) }
  | enter {i : ι} {c : Call} {a : Op} : s.call i = none → s.workers.worker i = none →
      c.start s.file = .inr a →
      Moves M s (.enter i c) { s with
        workers := s.workers.put s.workers.owner i ⟨a, .start⟩ s.workers.shared
        user := modifyAt s.user c.descriptor fun _ => some i
        call := Function.update s.call i (some c) }
  | tick {i : ι} {e : Tick}
      {workers : CriticalSection.State ι (Running Op Pos After Result) Kernel} :
      (driver M).worker.next s.workers (.call i e) = some workers →
      Moves M s (.tick i e) { s with workers := workers }
  | exit {i : ι} {c : Call} {a : Op} {r : Result} : s.call i = some c →
      s.workers.worker i = some ⟨a, .returned r⟩ → s.reply i = none →
      Moves M s (.exit i) { s with
        file := modifyAt s.file c.descriptor r.onFile
        user := modifyAt s.user c.descriptor fun _ => none
        reply := Function.update s.reply i (some r.reply) }

theorem OpenFiles.act_moves {M : ℕ} {s s' : OpenFiles ι} {a : CallAct ι}
    (h : s.act M a = some s') : s.Moves M a s' := by
  cases a with
  | enter i c =>
      simp only [act] at h
      split at h
      · cases h
      · next hnew =>
          have hnone : s.call i = none := by simpa using hnew
          split at h
          · next hstart =>
              cases h
              exact .atOnce hnone hstart
          · next hstart =>
              obtain ⟨workers, hnext, heq⟩ := Option.bind_eq_some_iff.1 h
              cases heq
              simp only [Worker.next] at hnext
              split at hnext
              · next hworker =>
                  cases hnext
                  exact .enter hnone hworker hstart
              · cases hnext
  | tick i e =>
      obtain ⟨workers, hnext, heq⟩ := Option.bind_eq_some_iff.1 h
      cases heq
      exact .tick hnext
  | exit i =>
      simp only [act] at h
      split at h
      · next hcall hworker hreply =>
          cases h
          exact .exit hcall hworker hreply
      · cases h

end Acts

/-! ### The calls one after the other -/

section Linearized

variable {ι : Type}

/-- What a call will return, where it is known. -/
def OpenFiles.outcome (M : ℕ) (s : OpenFiles ι) (i : ι) : Option Result :=
  (s.workers.worker i).bind fun l => (driver M).outcome l.pc

/-- The file behind a descriptor as the call that is running on it leaves it, if that is known. -/
def OpenFiles.settled (M : ℕ) (s : OpenFiles ι) (f : ℕ) : File :=
  match (s.user f).bind (s.outcome M) with
  | none => s.file f
  | some r => r.onFile (s.file f)

/-- **The calls so far, one after the other**: `L` has those whose result is known, and `u` is the
device and the files as they leave them. -/
structure Linearized (M : ℕ) (s : OpenFiles ι) (L : List (ι × Call × Reply)) (u : Sys) : Prop where
  trace : (charDev M).Trace Machine.free Sys.init (L.map Prod.snd) u
  refines : (driver M).Refines (atomicCalls M) (Kernel.Inv M) s.workers u.kern
  file : ∀ f, u.file f = s.settled M f
  nodup : (L.map Prod.fst).Nodup
  begun : ∀ i c r, (i, c, r) ∈ L → s.call i = some c
  replied : ∀ i r, s.reply i = some r → ∃ c, (i, c, r) ∈ L
  known : ∀ i r, s.outcome M i = some r → ∃ c, (i, c, r.reply) ∈ L
  pending : ∀ i l, s.workers.worker i = some l → s.outcome M i = none → i ∉ L.map Prod.fst
  /-- A call that is running has its file for itself, and works with what it found there. -/
  working : ∀ i l, s.workers.worker i = some l → s.reply i = none →
    ∃ c, s.call i = some c ∧ c.start s.file = .inr l.arg ∧ ∀ f ∈ c.descriptor, s.user f = some i
  used : ∀ f i, s.user f = some i → ∃ c, s.call i = some c ∧ c.descriptor = some f
  new : ∀ i, s.call i = none → s.workers.worker i = none ∧ s.reply i = none

variable {M : ℕ} {s s' : OpenFiles ι} {L : List (ι × Call × Reply)} {u : Sys}

theorem Linearized.init : Linearized M (OpenFiles.init : OpenFiles ι) [] Sys.init where
  trace := .nil
  refines := .init (.init M)
  file := fun _ => rfl
  nodup := List.nodup_nil
  begun := nofun
  replied := fun _ _ => nofun
  known := fun _ _ => nofun
  pending := fun _ _ => nofun
  working := fun _ _ => nofun
  used := fun _ _ => nofun
  new := fun _ _ => ⟨rfl, rfl⟩

theorem OpenFiles.settled_idle {f : ℕ} (h : s.user f = none) : s.settled M f = s.file f := by
  rw [settled, h]
  rfl

theorem OpenFiles.settled_known {f : ℕ} {i : ι} {r : Result} (h : s.user f = some i)
    (hr : s.outcome M i = some r) : s.settled M f = r.onFile (s.file f) := by
  rw [settled, h, Option.bind_some, hr]

theorem OpenFiles.settled_pending {f : ℕ} {i : ι} (h : s.user f = some i)
    (hr : s.outcome M i = none) : s.settled M f = s.file f := by
  rw [settled, h, Option.bind_some, hr]

/-- The file behind a descriptor does not change with other descriptors and other calls. -/
theorem OpenFiles.settled_congr {f : ℕ} (huser : s'.user f = s.user f)
    (hfile : s'.file f = s.file f)
    (houtcome : ∀ i, s.user f = some i → s'.outcome M i = s.outcome M i) :
    s'.settled M f = s.settled M f := by
  rw [settled, settled, huser, hfile]
  cases hu : s.user f with
  | none => rfl
  | some i => simp only [Option.bind_some, houtcome i hu]

theorem OpenFiles.outcome_of_worker {i : ι}
    {l : Running Op Pos After Result} (h : s.workers.worker i = some l) :
    s.outcome M i = (driver M).outcome l.pc := by
  rw [outcome, h, Option.bind_some]

/-- A call whose result is not known has not returned. -/
theorem Linearized.reply_none (h : Linearized M s L u) {i : ι} {l : Running Op Pos After Result}
    (hl : s.workers.worker i = some l) (hnone : s.outcome M i = none) : s.reply i = none := by
  cases hr : s.reply i with
  | none => rfl
  | some r =>
      obtain ⟨c, hmem⟩ := h.replied i r hr
      exact absurd (List.mem_map_of_mem hmem) (h.pending i l hl hnone)

/-- Who begins only now is not in the list. -/
theorem Linearized.not_mem (h : Linearized M s L u) {i : ι} (hnone : s.call i = none) :
    i ∉ L.map Prod.fst := by
  intro hi
  obtain ⟨⟨j, c, r⟩, hmem, rfl⟩ := List.mem_map.1 hi
  rw [h.begun j c r hmem] at hnone
  cases hnone

theorem nodup_append_one {i : ι} (h : (L.map Prod.fst).Nodup) (hi : i ∉ L.map Prod.fst)
    (q : Call × Reply) : ((L ++ [(i, q)]).map Prod.fst).Nodup := by
  rw [List.map_append]
  refine List.nodup_append.2 ⟨h, List.nodup_singleton i, ?_⟩
  rintro j hj k hk rfl
  cases List.mem_singleton.1 hk
  exact hi hj

/-- What has to be known when a call makes a step: the result of that call is as it was, or becomes
known. -/
structure Ticks (M : ℕ) (s s' : OpenFiles ι) (i : ι) (a : Op) (o : Option Result) : Prop where
  was : ∃ pc, s.workers.worker i = some ⟨a, pc⟩
  self : ∃ pc, s'.workers.worker i = some ⟨a, pc⟩
  others : ∀ j, j ≠ i → s'.workers.worker j = s.workers.worker j
  outcome : s'.outcome M i = o
  user : s'.user = s.user
  file : s'.file = s.file
  call : s'.call = s.call
  reply : s'.reply = s.reply

theorem Ticks.outcome_of_ne {i j : ι} {a : Op} {o : Option Result} (h : Ticks M s s' i a o)
    (hji : j ≠ i) : s'.outcome M j = s.outcome M j := by
  rw [OpenFiles.outcome, OpenFiles.outcome, h.others j hji]

/-- Who runs a call after a step runs it before. -/
theorem Ticks.worker {i j : ι} {a : Op} {o : Option Result} (h : Ticks M s s' i a o)
    {l : Running Op Pos After Result} (hl : s'.workers.worker j = some l) :
    ∃ l₀, s.workers.worker j = some l₀ ∧ l₀.arg = l.arg := by
  by_cases hji : j = i
  · subst hji
    obtain ⟨pc, hpc⟩ := h.was
    obtain ⟨pc', hpc'⟩ := h.self
    rw [hpc'] at hl
    cases hl
    exact ⟨_, hpc, rfl⟩
  · rw [h.others j hji] at hl
    exact ⟨l, hl, rfl⟩

theorem Ticks.working {i j : ι} {a : Op} {o : Option Result} (h : Ticks M s s' i a o)
    (hlin : Linearized M s L u) {l : Running Op Pos After Result}
    (hl : s'.workers.worker j = some l) (hj : s'.reply j = none) :
    ∃ c, s'.call j = some c ∧ c.start s'.file = .inr l.arg ∧
      ∀ f ∈ c.descriptor, s'.user f = some j := by
  obtain ⟨l₀, hl₀, harg⟩ := h.worker hl
  rw [h.reply] at hj
  rw [h.call, h.file, h.user, ← harg]
  exact hlin.working j l₀ hl₀ hj

theorem Ticks.new {i j : ι} {a : Op} {o : Option Result} (h : Ticks M s s' i a o)
    (hlin : Linearized M s L u) (hj : s'.call j = none) :
    s'.workers.worker j = none ∧ s'.reply j = none := by
  rw [h.call] at hj
  obtain ⟨hworker, hreply⟩ := hlin.new j hj
  have hji : j ≠ i := by
    rintro rfl
    obtain ⟨pc, hpc⟩ := h.was
    rw [hworker] at hpc
    cases hpc
  rw [h.others j hji, h.reply]
  exact ⟨hworker, hreply⟩

/-- A call goes on, and its result is as it was. -/
theorem Linearized.goesOn (h : Linearized M s L u) {i : ι} {a : Op}
    (hticks : Ticks M s s' i a (s.outcome M i))
    (hrefines : (driver M).Refines (atomicCalls M) (Kernel.Inv M) s'.workers u.kern) :
    Linearized M s' L u := by
  have houtcome : ∀ j, s'.outcome M j = s.outcome M j := by
    intro j
    by_cases hji : j = i
    · rw [hji, hticks.outcome]
    · exact hticks.outcome_of_ne hji
  constructor
  · exact h.trace
  · exact hrefines
  · intro f
    rw [h.file f]
    exact (OpenFiles.settled_congr (congrFun hticks.user f) (congrFun hticks.file f)
      fun j _ => houtcome j).symm
  · exact h.nodup
  · rw [hticks.call]
    exact h.begun
  · rw [hticks.reply]
    exact h.replied
  · intro j r hj
    rw [houtcome] at hj
    exact h.known j r hj
  · intro j l hl hj
    rw [houtcome] at hj
    obtain ⟨l₀, hl₀, -⟩ := hticks.worker hl
    exact h.pending j l₀ hl₀ hj
  · intro j l
    exact hticks.working h
  · intro f j hj
    rw [hticks.user] at hj
    rw [hticks.call]
    exact h.used f j hj
  · intro j
    exact hticks.new h

/-- The result of a call becomes known. -/
theorem Linearized.result (h : Linearized M s L u) {i : ι} {a : Op} {r : Result} {k : Kernel}
    (hticks : Ticks M s s' i a (some r)) (hnone : s.outcome M i = none)
    (hatomic : a.atomic M u.kern = .ok (k, r))
    (hrefines : (driver M).Refines (atomicCalls M) (Kernel.Inv M) s'.workers k) :
    ∃ c u', Linearized M s' (L ++ [(i, c, r.reply)]) u' := by
  obtain ⟨pc, hpc⟩ := hticks.was
  have hreply := h.reply_none hpc hnone
  obtain ⟨c, hc, hstart, hmine⟩ := h.working i _ hpc hreply
  have hstart' : c.start u.file = .inr a := by
    refine Call.start_congr (fun f hf => ?_) hstart
    rw [h.file f, s.settled_pending (hmine f hf) hnone]
  have hmap : (L ++ [(i, c, r.reply)]).map Prod.snd = L.map Prod.snd ++ [(c, r.reply)] := by
    rw [List.map_append]
    rfl
  refine ⟨c, ⟨k, modifyAt u.file c.descriptor r.onFile⟩, ?_⟩
  constructor
  · rw [hmap]
    exact h.trace.snoc trivial (charDev_step.2 (Sys.call_of_start hstart' hatomic))
  · exact hrefines
  · intro f
    change modifyAt u.file c.descriptor r.onFile f = s'.settled M f
    by_cases hf : c.descriptor = some f
    · have hbusy : s'.user f = some i := by rw [hticks.user, hmine f hf]
      rw [s'.settled_known hbusy hticks.outcome, hf, modifyAt_self, h.file f,
        s.settled_pending (hmine f hf) hnone, hticks.file]
    · rw [modifyAt_of_ne _ _ hf, h.file f]
      refine (OpenFiles.settled_congr (congrFun hticks.user f) (congrFun hticks.file f) ?_).symm
      intro j hj
      refine hticks.outcome_of_ne ?_
      rintro rfl
      obtain ⟨c', hc', hdescr⟩ := h.used f j hj
      rw [hc] at hc'
      cases hc'
      exact hf hdescr
  · exact nodup_append_one h.nodup (h.pending i _ hpc hnone) (c, r.reply)
  · intro j c' r' hj
    rw [hticks.call]
    rcases List.mem_append.1 hj with hj | hj
    · exact h.begun j c' r' hj
    · cases List.mem_singleton.1 hj
      exact hc
  · intro j r' hj
    rw [hticks.reply] at hj
    obtain ⟨c', hmem⟩ := h.replied j r' hj
    exact ⟨c', List.mem_append_left _ hmem⟩
  · intro j r' hj
    by_cases hji : j = i
    · subst hji
      rw [hticks.outcome] at hj
      cases hj
      exact ⟨c, List.mem_append_right _ (List.mem_singleton_self _)⟩
    · rw [hticks.outcome_of_ne hji] at hj
      obtain ⟨c', hmem⟩ := h.known j r' hj
      exact ⟨c', List.mem_append_left _ hmem⟩
  · intro j l hl hj hmem
    have hji : j ≠ i := by
      rintro rfl
      rw [hticks.outcome] at hj
      cases hj
    rw [hticks.others j hji] at hl
    rw [hticks.outcome_of_ne hji] at hj
    rw [List.map_append, List.mem_append] at hmem
    rcases hmem with hmem | hmem
    · exact h.pending j l hl hj hmem
    · exact hji (List.mem_singleton.1 hmem)
  · intro j l
    exact hticks.working h
  · intro f j hj
    rw [hticks.user] at hj
    rw [hticks.call]
    exact h.used f j hj
  · intro j
    exact hticks.new h

variable [DecidableEq ι]

/-- A file is opened or released. -/
theorem Linearized.atOnce (h : Linearized M s L u) {i : ι} {c : Call} {file : ℕ → File} {r : Reply}
    (hguard : ∀ f ∈ c.descriptor, s.user f = none) (hnone : s.call i = none)
    (hstart : c.start s.file = .inl (file, r)) (hworkers : s'.workers = s.workers)
    (huser : s'.user = s.user) (hfile : s'.file = file)
    (hcall : s'.call = Function.update s.call i (some c))
    (hreply : s'.reply = Function.update s.reply i (some r)) :
    ∃ u', Linearized M s' (L ++ [(i, c, r)]) u' := by
  have hsame : ∀ f ∈ c.descriptor, s.file f = u.file f := by
    intro f hf
    rw [h.file f, s.settled_idle (hguard f hf)]
  obtain ⟨filp, rfl, hstart'⟩ := Call.start_at_once hstart hsame
  have houtcome : ∀ j, s'.outcome M j = s.outcome M j := by
    intro j
    rw [OpenFiles.outcome, OpenFiles.outcome, hworkers]
  have hmap : (L ++ [(i, c, r)]).map Prod.snd = L.map Prod.snd ++ [(c, r)] := by
    rw [List.map_append]
    rfl
  have hother : ∀ {j : ι} {c' : Call}, s.call j = some c' → s'.call j = some c' := by
    intro j c' hj
    have hji : j ≠ i := by
      rintro rfl
      rw [hnone] at hj
      cases hj
    rwa [hcall, Function.update_of_ne hji]
  have hnew : ∀ {j : ι} {l : Running Op Pos After Result}, s.workers.worker j = some l → j ≠ i := by
    rintro j l hl rfl
    rw [(h.new j hnone).1] at hl
    cases hl
  refine ⟨⟨u.kern, modifyAt u.file c.descriptor fun _ => filp⟩, ?_⟩
  constructor
  · rw [hmap]
    exact h.trace.snoc trivial (charDev_step.2 (Sys.call_at_once hstart'))
  · rw [hworkers]
    exact h.refines
  · intro f
    change modifyAt u.file c.descriptor (fun _ => filp) f = s'.settled M f
    by_cases hf : c.descriptor = some f
    · rw [s'.settled_idle (by rw [huser]; exact hguard f hf), hfile, hf, modifyAt_self,
        modifyAt_self]
    · rw [modifyAt_of_ne _ _ hf, h.file f]
      refine (OpenFiles.settled_congr (congrFun huser f) ?_ fun j _ => houtcome j).symm
      rw [hfile, modifyAt_of_ne _ _ hf]
  · exact nodup_append_one h.nodup (h.not_mem hnone) (c, r)
  · intro j c' r' hj
    rcases List.mem_append.1 hj with hj | hj
    · exact hother (h.begun j c' r' hj)
    · cases List.mem_singleton.1 hj
      rw [hcall, Function.update_self]
  · intro j r' hj
    rw [hreply] at hj
    by_cases hji : j = i
    · subst hji
      rw [Function.update_self] at hj
      cases hj
      exact ⟨c, List.mem_append_right _ (List.mem_singleton_self _)⟩
    · rw [Function.update_of_ne hji] at hj
      obtain ⟨c', hmem⟩ := h.replied j r' hj
      exact ⟨c', List.mem_append_left _ hmem⟩
  · intro j r' hj
    rw [houtcome] at hj
    obtain ⟨c', hmem⟩ := h.known j r' hj
    exact ⟨c', List.mem_append_left _ hmem⟩
  · intro j l hl hj hmem
    rw [houtcome] at hj
    rw [hworkers] at hl
    rw [List.map_append, List.mem_append] at hmem
    rcases hmem with hmem | hmem
    · exact h.pending j l hl hj hmem
    · exact hnew hl (List.mem_singleton.1 hmem)
  · intro j l hl hj
    rw [hworkers] at hl
    rw [hreply, Function.update_of_ne (hnew hl)] at hj
    obtain ⟨c', hc', hwork, hbusy⟩ := h.working j l hl hj
    rw [huser, hfile]
    refine ⟨c', hother hc', Call.start_congr ?_ hwork, hbusy⟩
    intro f hf
    refine (modifyAt_of_ne _ _ ?_).symm
    intro hc
    have hmine := hbusy f hf
    rw [hguard f hc] at hmine
    cases hmine
  · intro f j hj
    rw [huser] at hj
    obtain ⟨c', hc', hdescr⟩ := h.used f j hj
    exact ⟨c', hother hc', hdescr⟩
  · intro j hj
    have hji : j ≠ i := by
      rintro rfl
      rw [hcall, Function.update_self] at hj
      cases hj
    rw [hcall, Function.update_of_ne hji] at hj
    rw [hworkers, hreply, Function.update_of_ne hji]
    exact h.new j hj

/-- A call begins. -/
theorem Linearized.enter (h : Linearized M s L u) {i : ι} {c : Call} {a : Op}
    (hguard : ∀ f ∈ c.descriptor, s.user f = none) (hnone : s.call i = none)
    (hstart : c.start s.file = .inr a)
    (hworkers : s'.workers = s.workers.put s.workers.owner i ⟨a, .start⟩ s.workers.shared)
    (huser : s'.user = modifyAt s.user c.descriptor fun _ => some i) (hfile : s'.file = s.file)
    (hcall : s'.call = Function.update s.call i (some c)) (hreply : s'.reply = s.reply) :
    Linearized M s' L u := by
  have hself : s'.workers.worker i = some ⟨a, .start⟩ := by
    rw [hworkers]
    exact State.put_self ..
  have hne : ∀ {j : ι}, j ≠ i → s'.workers.worker j = s.workers.worker j := by
    intro j hji
    rw [hworkers]
    exact State.put_of_ne _ _ _ _ hji
  have houtcome : ∀ {j : ι}, j ≠ i → s'.outcome M j = s.outcome M j := by
    intro j hji
    rw [OpenFiles.outcome, OpenFiles.outcome, hne hji]
  have hother : ∀ {j : ι} {c' : Call}, s.call j = some c' → j ≠ i ∧ s'.call j = some c' := by
    intro j c' hj
    have hji : j ≠ i := by
      rintro rfl
      rw [hnone] at hj
      cases hj
    exact ⟨hji, by rwa [hcall, Function.update_of_ne hji]⟩
  constructor
  · exact h.trace
  · rw [hworkers]
    exact h.refines.spawn a (h.new i hnone).1
  · intro f
    rw [h.file f]
    by_cases hf : c.descriptor = some f
    · have hmine : s'.user f = some i := by rw [huser, hf, modifyAt_self]
      have hpending : s'.settled M f = s'.file f :=
        s'.settled_pending hmine (s'.outcome_of_worker hself)
      rw [s.settled_idle (hguard f hf), hpending, hfile]
    · refine (OpenFiles.settled_congr ?_ (congrFun hfile f) ?_).symm
      · rw [huser, modifyAt_of_ne _ _ hf]
      · intro j hj
        obtain ⟨c', hc', -⟩ := h.used f j hj
        exact houtcome (hother hc').1
  · exact h.nodup
  · intro j c' r hj
    exact (hother (h.begun j c' r hj)).2
  · rw [hreply]
    exact h.replied
  · intro j r hj
    by_cases hji : j = i
    · subst hji
      rw [s'.outcome_of_worker hself] at hj
      cases hj
    · rw [houtcome hji] at hj
      exact h.known j r hj
  · intro j l hl hj
    by_cases hji : j = i
    · subst hji
      exact h.not_mem hnone
    · rw [hne hji] at hl
      rw [houtcome hji] at hj
      exact h.pending j l hl hj
  · intro j l hl hj
    by_cases hji : j = i
    · subst hji
      rw [hself] at hl
      cases hl
      refine ⟨c, by rw [hcall, Function.update_self], by rw [hfile]; exact hstart, ?_⟩
      intro f hf
      rw [huser, show c.descriptor = some f from hf, modifyAt_self]
    · rw [hne hji] at hl
      rw [hreply] at hj
      obtain ⟨c', hc', hwork, hbusy⟩ := h.working j l hl hj
      refine ⟨c', (hother hc').2, by rw [hfile]; exact hwork, ?_⟩
      intro f hf
      rw [huser, modifyAt_of_ne, hbusy f hf]
      intro hc
      have hmine := hbusy f hf
      rw [hguard f hc] at hmine
      cases hmine
  · intro f j hj
    by_cases hf : c.descriptor = some f
    · rw [huser, hf, modifyAt_self] at hj
      cases hj
      exact ⟨c, by rw [hcall, Function.update_self], hf⟩
    · rw [huser, modifyAt_of_ne _ _ hf] at hj
      obtain ⟨c', hc', hdescr⟩ := h.used f j hj
      exact ⟨c', (hother hc').2, hdescr⟩
  · intro j hj
    have hji : j ≠ i := by
      rintro rfl
      rw [hcall, Function.update_self] at hj
      cases hj
    rw [hcall, Function.update_of_ne hji] at hj
    rw [hne hji, hreply]
    exact h.new j hj

/-- A call returns. -/
theorem Linearized.exit (h : Linearized M s L u) {i : ι} {c : Call} {a : Op} {r : Result}
    (hc : s.call i = some c) (hl : s.workers.worker i = some ⟨a, .returned r⟩)
    (hnone : s.reply i = none) (hworkers : s'.workers = s.workers)
    (huser : s'.user = modifyAt s.user c.descriptor fun _ => none)
    (hfile : s'.file = modifyAt s.file c.descriptor r.onFile) (hcall : s'.call = s.call)
    (hreply : s'.reply = Function.update s.reply i (some r.reply)) : Linearized M s' L u := by
  have hr : s.outcome M i = some r := s.outcome_of_worker hl
  obtain ⟨c₁, hc₁, -, hmine⟩ := h.working i _ hl hnone
  obtain rfl := Option.some.inj (hc.symm.trans hc₁)
  have houtcome : ∀ j, s'.outcome M j = s.outcome M j := by
    intro j
    rw [OpenFiles.outcome, OpenFiles.outcome, hworkers]
  constructor
  · exact h.trace
  · rw [hworkers]
    exact h.refines
  · intro f
    rw [h.file f]
    by_cases hf : c.descriptor = some f
    · have hidle : s'.user f = none := by rw [huser, hf, modifyAt_self]
      rw [s'.settled_idle hidle, s.settled_known (hmine f hf) hr, hfile, hf, modifyAt_self]
    · refine (OpenFiles.settled_congr ?_ ?_ fun j _ => houtcome j).symm
      · rw [huser, modifyAt_of_ne _ _ hf]
      · rw [hfile, modifyAt_of_ne _ _ hf]
  · exact h.nodup
  · rw [hcall]
    exact h.begun
  · intro j r' hj
    rw [hreply] at hj
    by_cases hji : j = i
    · subst hji
      rw [Function.update_self] at hj
      cases hj
      exact h.known j r hr
    · rw [Function.update_of_ne hji] at hj
      exact h.replied j r' hj
  · intro j r' hj
    rw [houtcome] at hj
    exact h.known j r' hj
  · intro j l hl hj
    rw [houtcome] at hj
    rw [hworkers] at hl
    exact h.pending j l hl hj
  · intro j l hl hj
    have hji : j ≠ i := by
      rintro rfl
      rw [hreply, Function.update_self] at hj
      cases hj
    rw [hworkers] at hl
    rw [hreply, Function.update_of_ne hji] at hj
    obtain ⟨c', hc', hwork, hbusy⟩ := h.working j l hl hj
    -- the other call has its file for itself
    have hapart : ∀ f ∈ c'.descriptor, c.descriptor ≠ some f := by
      intro f hf hc
      exact hji (Option.some.inj ((hbusy f hf).symm.trans (hmine f hc)))
    rw [hcall, huser, hfile]
    refine ⟨c', hc', Call.start_congr ?_ hwork, ?_⟩
    · intro f hf
      rw [modifyAt_of_ne _ _ (hapart f hf)]
    · intro f hf
      rw [modifyAt_of_ne _ _ (hapart f hf), hbusy f hf]
  · intro f j hj
    by_cases hf : c.descriptor = some f
    · rw [huser, hf, modifyAt_self] at hj
      cases hj
    · rw [huser, modifyAt_of_ne _ _ hf] at hj
      rw [hcall]
      exact h.used f j hj
  · intro j hj
    rw [hcall] at hj
    have hji : j ≠ i := by
      rintro rfl
      rw [hc] at hj
      cases hj
    rw [hworkers, hreply, Function.update_of_ne hji]
    exact h.new j hj

/-- **Every step keeps the calls one after the other**, and adds the call whose result becomes known
to the list; so those that got the mutex are in it in that order, without the one that has it. -/
theorem Linearized.step (hM : 10 * M < 2 ^ 31) (h : Linearized M s L u) {a : CallAct ι}
    (hguard : s.Guard a) (hmoves : s.Moves M a s') :
    ∃ L' u', Linearized M s' (L ++ L') u' ∧ ∀ is, is.Sublist (L.map Prod.fst) →
      ∃ is', is ++ s.workers.owner.toList ++ a.taken = is' ++ s'.workers.owner.toList ∧
        is'.Sublist ((L ++ L').map Prod.fst) := by
  cases hmoves with
  | @atOnce i c file r hnone hstart =>
      have hnow : ∃ u', Linearized M { s with
          file := file
          call := Function.update s.call i (some c)
          reply := Function.update s.reply i (some r) } (L ++ [(i, c, r)]) u' :=
        h.atOnce hguard hnone hstart rfl rfl rfl rfl rfl
      obtain ⟨u', hlin⟩ := hnow
      refine ⟨[(i, c, r)], u', hlin, fun is his => ⟨is, List.append_nil _, his.trans ?_⟩⟩
      rw [List.map_append]
      exact List.sublist_append_left _ _
  | @enter i c a hnone hworker hstart =>
      refine ⟨[], u, ?_, fun is his => ⟨is, List.append_nil _, by rwa [List.append_nil]⟩⟩
      rw [List.append_nil]
      exact h.enter hguard hnone hstart rfl rfl rfl rfl rfl
  | @tick i e workers hnext =>
      obtain ⟨a, pc, pc', hpc, hworker, hcase⟩ := h.refines.step (driver_implements hM) hnext
      have hself : workers.worker i = some ⟨a, pc'⟩ := by rw [hworker, Function.update_self]
      have hothers : ∀ j, j ≠ i → workers.worker j = s.workers.worker j := by
        intro j hji
        rw [hworker, Function.update_of_ne hji]
      have hout : ({ s with workers := workers } : OpenFiles ι).outcome M i
          = (driver M).outcome pc' := OpenFiles.outcome_of_worker (l := ⟨a, pc'⟩) hself
      have hticks : Ticks M s { s with workers := workers } i a ((driver M).outcome pc') :=
        ⟨⟨pc, hpc⟩, ⟨pc', hself⟩, hothers, hout, rfl, rfl, rfl, rfl⟩
      have hwas : s.outcome M i = (driver M).outcome pc := OpenFiles.outcome_of_worker hpc
      rcases hcase with ⟨hsame, howner, hrefines⟩ | ⟨r, k, hnone, hres, hatomic, htaken, howner,
        hrefines⟩
      · rw [hsame, ← hwas] at hticks
        refine ⟨[], u, ?_, fun is his => ⟨is, ?_, by rwa [List.append_nil]⟩⟩
        · rw [List.append_nil]
          exact h.goesOn hticks hrefines
        · rw [List.append_assoc, CallAct.taken, ← howner]
      · rw [hres] at hticks
        obtain ⟨c, u', hlin⟩ := h.result hticks (hwas.trans hnone) (atomicCalls_step.1 hatomic)
          hrefines
        refine ⟨[(i, c, r.reply)], u', hlin, ?_⟩
        intro is his
        rw [List.map_append, CallAct.taken, htaken, List.append_nil]
        rcases howner with howner | ⟨howner, hfree⟩
        · exact ⟨is, by rw [howner], his.trans (List.sublist_append_left _ _)⟩
        · refine ⟨is ++ [i], ?_, his.append (List.Sublist.refl _)⟩
          rw [howner, hfree, Option.toList_some, Option.toList_none, List.append_nil]
  | exit hcall hworker hreply =>
      refine ⟨[], u, ?_, fun is his => ⟨is, List.append_nil _, by rwa [List.append_nil]⟩⟩
      rw [List.append_nil]
      exact h.exit hcall hworker hreply rfl rfl rfl rfl rfl

variable {t : List (CallAct ι × Unit)}

/-- Every run has its calls one after the other, and goes on with them. -/
theorem SharedRun.linearized (hM : 10 * M < 2 ^ 31) (h : SharedRun M t s) :
    ∃ L u, Linearized M s L u ∧
      (∃ is, gotMutex t = is ++ s.workers.owner.toList ∧ is.Sublist (L.map Prod.fst)) ∧
      ∀ t₁ t₂ s₁, t = t₁ ++ t₂ → SharedRun M t₁ s₁ →
        ∃ L₁ L₂ u₁, L = L₁ ++ L₂ ∧ Linearized M s₁ L₁ u₁ := by
  induction h with
  | nil =>
      refine ⟨[], Sys.init, .init, ⟨[], rfl, .refl _⟩, ?_⟩
      intro t₁ t₂ s₁ ht h₁
      obtain ⟨rfl, -⟩ := List.append_eq_nil_iff.1 ht.symm
      have hnil : SharedRun M [] (OpenFiles.init : OpenFiles ι) := .nil
      obtain ⟨-, rfl⟩ := Machine.Trace.unique h₁ hnil rfl
      exact ⟨[], [], Sys.init, rfl, .init⟩
  | @snoc t s s' a o htrace hguard hstep ih =>
      obtain ⟨L, u, hlin, ⟨is, hgot, his⟩, hearlier⟩ := ih
      obtain ⟨s'', hact, heq⟩ := Option.map_eq_some_iff.1 hstep
      cases heq
      obtain ⟨L', u', hlin', htook⟩ := hlin.step hM hguard (OpenFiles.act_moves hact)
      obtain ⟨is', hgot', his'⟩ := htook is his
      refine ⟨L ++ L', u', hlin', ⟨is', ?_, his'⟩, ?_⟩
      · rw [← hgot', ← hgot, gotMutex, List.flatMap_append]
        simp only [gotMutex, List.flatMap_cons, List.flatMap_nil, List.append_nil]
      · intro t₁ t₂ s₁ ht h₁
        rcases List.eq_nil_or_concat t₂ with rfl | ⟨t₂, x, rfl⟩
        · rw [List.append_nil] at ht
          subst ht
          obtain ⟨-, rfl⟩ := Machine.Trace.unique h₁ (htrace.snoc hguard hstep) rfl
          exact ⟨L ++ L', [], u', (List.append_nil _).symm, hlin'⟩
        · rw [List.concat_eq_append, ← List.append_assoc] at ht
          obtain ⟨hbefore, -⟩ := List.append_inj' ht rfl
          obtain ⟨L₁, L₂, u₁, rfl, hlin₁⟩ := hearlier t₁ t₂ s₁ hbefore h₁
          exact ⟨L₁, L₂ ++ L', u₁, by rw [List.append_assoc], hlin₁⟩

/-- **Concurrent calls are atomic calls, in an order that agrees with time.**  In every run in which
one call at a time runs on an open file, the calls whose result is known, each with the result that
it returns, are a run of `charDev`.  Their order is one in which they can have happened: at every
moment of the run a first part of them has all that had returned, and none that had not begun.
Those that got the mutex, without the one that has it, come in the order in which they got it; while
no call has the mutex the device is as that run leaves it, and so is every file that no call is
running on. -/
theorem calls_linearize (hM : 10 * M < 2 ^ 31) (h : SharedRun M t s) :
    ∃ (L : List (ι × Call × Reply)) (u : Sys),
      (charDev M).Trace Machine.free Sys.init (L.map Prod.snd) u ∧ (L.map Prod.fst).Nodup ∧
      (∀ i c r, (i, c, r) ∈ L → s.call i = some c ∧ ∀ r' ∈ s.reply i, r' = r) ∧
      (∀ t₁ t₂ s₁, t = t₁ ++ t₂ → SharedRun M t₁ s₁ → ∃ L₁ L₂, L = L₁ ++ L₂ ∧
        (∀ i, (s₁.reply i).isSome → i ∈ L₁.map Prod.fst) ∧
        ∀ i ∈ L₁.map Prod.fst, (s₁.call i).isSome) ∧
      (∃ is, gotMutex t = is ++ s.workers.owner.toList ∧ is.Sublist (L.map Prod.fst)) ∧
      (s.workers.owner = none → s.workers.shared = u.kern) ∧
      ∀ f, s.user f = none → s.file f = u.file f := by
  obtain ⟨L, u, hlin, hgot, hearlier⟩ := SharedRun.linearized hM h
  refine ⟨L, u, hlin.trace, hlin.nodup, ?_, ?_, hgot, hlin.refines.free, ?_⟩
  · intro i c r hmem
    refine ⟨hlin.begun i c r hmem, ?_⟩
    intro r' hr'
    obtain ⟨c', hmem'⟩ := hlin.replied i r' hr'
    cases List.inj_on_of_nodup_map hlin.nodup hmem hmem' rfl
    rfl
  · intro t₁ t₂ s₁ ht h₁
    obtain ⟨L₁, L₂, u₁, hL, hlin₁⟩ := hearlier t₁ t₂ s₁ ht h₁
    refine ⟨L₁, L₂, hL, ?_, ?_⟩
    · intro i hi
      obtain ⟨r, hr⟩ := Option.isSome_iff_exists.1 hi
      obtain ⟨c, hmem⟩ := hlin₁.replied i r hr
      exact List.mem_map_of_mem hmem
    · intro i hi
      obtain ⟨⟨j, c, r⟩, hmem, rfl⟩ := List.mem_map.1 hi
      rw [hlin₁.begun j c r hmem]
      rfl
  · intro f hf
    rw [hlin.file f, s.settled_idle hf]

end Linearized

/-- A write on one file next to a read on another; then a seek and a read on the second. -/
theorem calls_linearize_two :
    ∃ (t : List (CallAct ℕ × Unit)) (s : OpenFiles ℕ), SharedRun 64 t s ∧
      gotMutex t = [2, 3, 4, 5] ∧ s.reply 3 = some ⟨2, [97, 10]⟩ ∧ s.reply 5 = some ⟨1, [10]⟩ ∧
      ∃ (L : List (ℕ × Call × Reply)) (u : Sys),
        (charDev 64).Trace Machine.free Sys.init (L.map Prod.snd) u ∧
        [2, 3, 4, 5].Sublist (L.map Prod.fst) ∧ s.workers.shared = u.kern := by
  have hex : ∃ p, (sharedDriver 64).run OpenFiles.init
      [.enter 0 (.openFile 3), .enter 1 (.openFile 4),
        .enter 2 (.write (some 3) (some [97, 10]) ⟨false, ⟨some 0, fun _ => 7⟩, 0⟩),
        .enter 3 (.read (some 4) true 512 ⟨false, 0⟩),
        .tick 2 .lock, .tick 2 .step, .tick 2 .step, .tick 2 .step, .tick 2 .step, .tick 2 .step,
        .tick 2 .step, .tick 2 .unlock, .tick 3 .lock, .tick 3 .step, .tick 3 .step,
        .tick 3 .step, .tick 2 .step, .tick 3 .unlock, .tick 3 .step, .exit 3, .exit 2,
        .enter 4 (.ioctl 4 aesdcharIocseekto ⟨some ⟨0, 1⟩, false⟩), .tick 4 .lock, .tick 4 .step,
        .tick 4 .step, .tick 4 .step, .tick 4 .unlock, .tick 4 .step, .exit 4,
        .enter 5 (.read (some 4) true 512 ⟨false, 0⟩), .tick 5 .lock, .tick 5 .step,
        .tick 5 .step, .tick 5 .step, .tick 5 .unlock, .tick 5 .step, .exit 5] = some p :=
    Option.isSome_iff_exists.1 (by decide +kernel)
  obtain ⟨⟨s, os⟩, hrun⟩ := hex
  have howner : s.workers.owner = none := Machine.run_map hrun (fun p => p.1.workers.owner) rfl
  have hfirst : s.reply 3 = some ⟨2, [97, 10]⟩ := Machine.run_map hrun (fun p => p.1.reply 3) rfl
  have hlast : s.reply 5 = some ⟨1, [10]⟩ := Machine.run_map hrun (fun p => p.1.reply 5) rfl
  have hos : os = List.replicate 37 () := Machine.run_map hrun Prod.snd rfl
  subst hos
  have htrace : SharedRun 64 _ s := Machine.trace_of_run hrun (by decide +kernel)
  obtain ⟨L, u, hL, -, -, -, ⟨is, hgot, his⟩, hkern, -⟩ := calls_linearize (by decide) htrace
  rw [howner, Option.toList_none, List.append_nil] at hgot
  have hmutex : is = [2, 3, 4, 5] := hgot.symm.trans rfl
  rw [hmutex] at his
  exact ⟨_, s, htrace, rfl, hfirst, hlast, L, u, hL, his, hkern howner⟩

end Aesd
