/-
**One connection over the char device.**

A handler thread with its socket, its stdio stream and the device: the automaton of
`ConnectionHandler`, with what its calls do.  Of stdio this much is assumed: the bytes that were
written to the stream are handed to the device in order, in pieces of at least one byte, before the
first read or before the stream is closed; reads go on from the position of the file, until enough
bytes for the request are there or a read returned zero.  How stdio cuts the pieces, when it hands
them over and how much it reads ahead is left to the run.

This is the system of one connection that holds the mutex; `Server` has many.

Main definitions:

* `Conn`, `Session`, `session` — the connection, with the device, as a machine;
* `Session.Succeeds`, `Session.Guard` — no call fails, and what `recv` returns is as it should be;
* `Session.Moves` — everything a step that succeeds can do.

Main result:

* `Session.step_moves` — a step that succeeds is one of them.
-/

import Aesd.CharDeviceRead
import Aesd.ConnectionHandler
import Aesd.TermLog

set_option relaxedAutoImplicit false
set_option autoImplicit false

namespace Aesd

open TermLog

/-! ### The system -/

/-- What belongs to a connection besides the control point of its handler: the socket, the stream
and the open file. -/
structure Conn where
  /-- The chunks that `recv` delivered. -/
  delivered : List (List UInt8)
  /-- The seek requests that were issued. -/
  seeks : List AesdSeekto
  /-- The bytes that `send` accepted. -/
  accepted : List UInt8
  /-- The pieces that stdio handed to the device. -/
  handed : List (List UInt8)
  /-- The bytes written to the stream and not handed to the device yet. -/
  unwritten : List UInt8
  /-- The bytes that stdio read ahead. -/
  ahead : List UInt8
  /-- The end-of-file or the error flag of the stream. -/
  eof : Bool
  /-- The open file. -/
  filp : File

/-- The connection before its handler starts. -/
def Conn.init : Conn := ⟨[], [], [], [], [], [], false, ⟨false, 0⟩⟩

/-- A connection with the device. -/
structure Session where
  pc : Pc
  conn : Conn
  kern : Kernel

/-- What a call does to the connection and the device; `none` if it is not possible with this
result. -/
def Session.effect (M : ℕ) (s : Session) : Event → Option (Conn × Kernel)
  | .fopen true => some ({ s.conn with filp := (aesdOpen ⟨false, 0⟩).1 }, s.kern)
  | .recv (.chunk bytes) =>
      some ({ s.conn with delivered := s.conn.delivered ++ [bytes] }, s.kern)
  | .ioctl interrupted =>
      match s.pc with
      | .seeking seek _ _ =>
          match aesdIoctl ⟨some seek, interrupted⟩ s.kern s.conn.filp aesdcharIocseekto with
          | .error _ => none
          | .ok (filp, _) =>
              some ({ s.conn with seeks := s.conn.seeks ++ [seek], filp := filp }, s.kern)
      | _ => none
  | .fwrite =>
      match s.pc with
      | .writing buffer n =>
          some ({ s.conn with unwritten := s.conn.unwritten ++ buffer.take n }, s.kern)
      | _ => none
  | .flush n env =>
      if 0 < n ∧ n ≤ s.conn.unwritten.length then
        match aesdWrite M env s.kern (some s.conn.filp) (some (s.conn.unwritten.take n)) with
        | .error _ => none
        | .ok (kern, _) =>
            some ({ s.conn with
              unwritten := s.conn.unwritten.drop n
              handed := s.conn.handed ++ [s.conn.unwritten.take n] }, kern)
      else none
  | .fill count env =>
      if s.conn.unwritten = [] ∧ 0 < count ∧ s.conn.eof = false then
        match aesdRead env s.kern (some s.conn.filp) true count s.conn.filp.fPos with
        | .error _ => none
        | .ok r =>
            some ({ s.conn with
              ahead := s.conn.ahead ++ (if 0 ≤ r.retval then r.data else [])
              eof := r.retval ≤ 0
              filp := { s.conn.filp with fPos := r.fPos } }, s.kern)
      else none
  | .fread data =>
      if s.conn.unwritten = [] ∧ (recvBufferLen ≤ s.conn.ahead.length ∨ s.conn.eof = true) ∧
          data = s.conn.ahead.take recvBufferLen then
        some ({ s.conn with ahead := s.conn.ahead.drop recvBufferLen }, s.kern)
      else none
  -- the file is not rewound in this build
  | .fseek _ => none
  | .send res =>
      match s.pc with
      | .sending data =>
          some ({ s.conn with accepted := s.conn.accepted ++ data.take res.toNat }, s.kern)
      | _ => none
  | .fclose =>
      if s.conn.unwritten = [] then
        some ({ s.conn with filp := (aesdRelease s.conn.filp).1 }, s.kern)
      else none
  | _ => some (s.conn, s.kern)

/-- One call of the handler, in the char-device build. -/
def Session.step (M : ℕ) (s : Session) (e : Event) : Option Session := do
  let pc ← s.pc.next true e
  let (conn, kern) ← s.effect M e
  some ⟨pc, conn, kern⟩

/-- **A connection as a machine.** -/
def session (M : ℕ) : Machine Session Event Unit where
  step s e := (s.step M e).map fun s' => (s', ())

/-- A handler that is about to start, over a device. -/
def Session.init (k : Kernel) : Session := ⟨.locking, .init, k⟩

/-! ### Steps that succeed -/

/-- The call does not fail: no error, no interruption, no refused request, no short copy, and `send`
takes everything it is given.  A `recv` may fail: the handler then does what it does when the client
closes. -/
def Session.Succeeds (M : ℕ) (s : Session) : Event → Prop
  | .lock res => res = 0
  | .fopen ok => ok = true
  | .ioctl interrupted => interrupted = false
  | .flush n env =>
      env.interrupted = false ∧ s.kern.WriteGranted M env (s.conn.unwritten.take n) ∧
        uncopied env.left (s.conn.unwritten.take n).length = 0
  | .fill _ env => env.interrupted = false ∧ env.left = 0
  | .send res =>
      match s.pc with
      | .sending data => res = data.length
      | _ => True
  | _ => True

/-- What `recv` returns is what `P` allows after the chunks that were delivered. -/
def Session.Receives (P : List (List UInt8) → Recv → Prop) (s : Session) (e : Event) : Prop :=
  ∀ res, e = .recv res → P s.conn.delivered res

/-- The call is a `recv`. -/
def Event.isRecv : Event → Bool
  | .recv _ => true
  | _ => false

/-- Nothing is asked of any other call. -/
theorem Session.receives_other {P : List (List UInt8) → Recv → Prop} {s : Session} {e : Event}
    (h : e.isRecv = false) : s.Receives P e := by
  rintro res rfl
  cases h

/-- No call fails, and `recv` returns what `P` allows. -/
def Session.Guard (M : ℕ) (P : List (List UInt8) → Recv → Prop) (s : Session) (e : Event) : Prop :=
  s.Succeeds M e ∧ s.Receives P e

instance (M : ℕ) (s : Session) (e : Event) : Decidable (s.Succeeds M e) := by
  unfold Session.Succeeds
  split
  · infer_instance
  · infer_instance
  · infer_instance
  · infer_instance
  · infer_instance
  · split <;> infer_instance
  · infer_instance

instance (P : List (List UInt8) → Recv → Prop) [∀ delivered res, Decidable (P delivered res)]
    (s : Session) : (e : Event) → Decidable (s.Receives P e)
  | .recv res =>
      decidable_of_iff (P s.conn.delivered res)
        ⟨fun h _ heq => Event.recv.inj heq ▸ h, fun h => h res rfl⟩
  | .lock _ | .fopen _ | .ioctl _ | .fwrite | .flush _ _ | .fseek _ | .fill _ _ | .fread _
  | .send _ | .fclose | .unlock | .close | .clear | .complete => isTrue (Session.receives_other rfl)

instance (M : ℕ) (P : List (List UInt8) → Recv → Prop)
    [∀ delivered res, Decidable (P delivered res)] (s : Session) (e : Event) :
    Decidable (s.Guard M P e) := inferInstanceAs (Decidable (_ ∧ _))

/-- **Everything a step that succeeds can do.** -/
inductive Session.Moves (M : ℕ) (s : Session) : Event → Session → Prop
  | lock : s.pc = .locking → Moves M s (.lock 0) { s with pc := .opening }
  | fopen : s.pc = .opening →
      Moves M s (.fopen true) { s with pc := .receiving, conn := { s.conn with filp := ⟨true, 0⟩ } }
  | recv (bytes : List UInt8) : s.pc = .receiving → 0 < bytes.length →
      bytes.length ≤ recvBufferLen →
      Moves M s (.recv (.chunk bytes)) { s with
        pc := afterRecv true bytes
        conn := { s.conn with delivered := s.conn.delivered ++ [bytes] } }
  | closed (res : Recv) : s.pc = .receiving → (∀ bytes, res ≠ .chunk bytes) →
      Moves M s (.recv res) { s with pc := .closingFile }
  | ioctl (seek : AesdSeekto) (buffer : List UInt8) (n : ℕ) (filp : File) (res : ℤ) :
      s.pc = .seeking seek buffer n →
      aesdIoctl ⟨some seek, false⟩ s.kern s.conn.filp aesdcharIocseekto = .ok (filp, res) →
      Moves M s (.ioctl false) { s with
        pc := afterChunk true buffer n
        conn := { s.conn with seeks := s.conn.seeks ++ [seek], filp := filp } }
  | fwrite (buffer : List UInt8) (n : ℕ) : s.pc = .writing buffer n →
      Moves M s .fwrite { s with
        pc := afterChunk true buffer n
        conn := { s.conn with unwritten := s.conn.unwritten ++ buffer.take n } }
  | flush (n : ℕ) (env : WriteEnv) (kern : Kernel) (res : ℤ) : s.pc.fileOpen = true → 0 < n →
      n ≤ s.conn.unwritten.length → s.Succeeds M (.flush n env) →
      aesdWrite M env s.kern (some s.conn.filp) (some (s.conn.unwritten.take n)) = .ok (kern, res) →
      Moves M s (.flush n env) { s with
        conn := { s.conn with
          unwritten := s.conn.unwritten.drop n
          handed := s.conn.handed ++ [s.conn.unwritten.take n] }
        kern := kern }
  | fill (count : ℕ) (r : ReadResult) : s.pc = .reading → s.conn.unwritten = [] → 0 < count →
      s.conn.eof = false →
      aesdRead ⟨false, 0⟩ s.kern (some s.conn.filp) true count s.conn.filp.fPos = .ok r →
      Moves M s (.fill count ⟨false, 0⟩) { s with
        conn := { s.conn with
          ahead := s.conn.ahead ++ (if 0 ≤ r.retval then r.data else [])
          eof := r.retval ≤ 0
          filp := { s.conn.filp with fPos := r.fPos } } }
  | fread : s.pc = .reading → s.conn.unwritten = [] →
      (recvBufferLen ≤ s.conn.ahead.length ∨ s.conn.eof = true) →
      Moves M s (.fread (s.conn.ahead.take recvBufferLen)) { s with
        pc := if s.conn.ahead.take recvBufferLen = [] then .closingFile
          else .sending (s.conn.ahead.take recvBufferLen)
        conn := { s.conn with ahead := s.conn.ahead.drop recvBufferLen } }
  | send (data : List UInt8) : s.pc = .sending data →
      Moves M s (.send data.length) { s with
        pc := .reading
        conn := { s.conn with accepted := s.conn.accepted ++ data } }
  | fclose : s.pc = .closingFile → s.conn.unwritten = [] →
      Moves M s .fclose { s with
        pc := .unlocking
        conn := { s.conn with filp := (aesdRelease s.conn.filp).1 } }
  | unlock : s.pc = .unlocking → Moves M s .unlock { s with pc := .closingClient }
  | close : s.pc = .closingClient → Moves M s .close { s with pc := .clearing }
  | clear : s.pc = .clearing → Moves M s .clear { s with pc := .completing }
  | complete : s.pc = .completing → Moves M s .complete { s with pc := .done }

theorem Session.step_eq_some {M : ℕ} {s s' : Session} {e : Event} :
    s.step M e = some s' ↔
      s.pc.next true e = some s'.pc ∧ s.effect M e = some (s'.conn, s'.kern) := by
  obtain ⟨pc', conn', kern'⟩ := s'
  simp only [Session.step, Option.bind_eq_bind, Option.bind_eq_some_iff, Prod.exists,
    Option.some.injEq, Session.mk.injEq]
  constructor
  · rintro ⟨pc, hpc, conn, kern, heff, rfl, rfl, rfl⟩
    exact ⟨hpc, heff⟩
  · rintro ⟨hpc, heff⟩
    exact ⟨pc', hpc, conn', kern', heff, rfl, rfl, rfl⟩

/-- A call that the handler can make, and that has an effect, is a step. -/
theorem Session.step_of {M : ℕ} {s : Session} {e : Event} {pc : Pc} {conn : Conn} {kern : Kernel}
    (hpc : s.pc.next true e = some pc) (heff : s.effect M e = some (conn, kern)) :
    s.step M e = some ⟨pc, conn, kern⟩ :=
  Session.step_eq_some.2 ⟨hpc, heff⟩

/-- **A step that succeeds is one of the moves.** -/
theorem Session.step_moves {M : ℕ} {s s' : Session} {e : Event} (h : s.step M e = some s')
    (hok : s.Succeeds M e) : s.Moves M e s' := by
  obtain ⟨hpc, heff⟩ := Session.step_eq_some.1 h
  obtain ⟨pc, conn, kern⟩ := s
  obtain ⟨pc', conn', kern'⟩ := s'
  simp only at hpc heff
  cases Pc.next_moves hpc with
  | lock res =>
      obtain rfl := hok
      cases heff
      exact .lock rfl
  | fopen ok =>
      obtain rfl := hok
      cases heff
      exact .fopen rfl
  | chunk bytes hpos hlen =>
      cases heff
      exact .recv bytes rfl hpos hlen
  | closed res hres =>
      have hsame : Session.effect M ⟨.receiving, conn, kern⟩ (.recv res) = some (conn, kern) := by
        cases res with
        | chunk bytes => exact absurd rfl (hres bytes)
        | closed => rfl
        | failed => rfl
      obtain ⟨rfl, rfl⟩ := Prod.mk.inj (Option.some.inj (hsame.symm.trans heff))
      exact .closed res rfl hres
  | ioctl seek buffer n interrupted =>
      obtain rfl := hok
      simp only [Session.effect] at heff
      split at heff
      · cases heff
      · next hioctl =>
          cases heff
          exact .ioctl _ _ _ _ _ rfl hioctl
  | fwrite buffer n =>
      cases heff
      exact .fwrite _ _ rfl
  | fseek res => cases heff
  | fread data =>
      simp only [Session.effect] at heff
      split at heff
      · next hready =>
          obtain ⟨hflushed, henough, rfl⟩ := hready
          cases heff
          exact .fread rfl hflushed henough
      · cases heff
  | send data res =>
      obtain rfl := hok
      cases heff
      rw [if_neg (by omega)]
      simpa using Session.Moves.send (s := ⟨.sending data, conn, kern⟩) data rfl
  | fclose =>
      simp only [Session.effect] at heff
      split at heff
      · next hflushed =>
          cases heff
          exact .fclose rfl hflushed
      · cases heff
  | unlock =>
      cases heff
      exact .unlock rfl
  | close =>
      cases heff
      exact .close rfl
  | clear =>
      cases heff
      exact .clear rfl
  | complete =>
      cases heff
      exact .complete rfl
  | flush _ n env hopen =>
      simp only [Session.effect] at heff
      split at heff
      · next hn =>
          split at heff
          · cases heff
          · next hw =>
              cases heff
              exact .flush _ _ _ _ hopen hn.1 hn.2 hok hw
      · cases heff
  | fill count env =>
      simp only [Session.effect] at heff
      split at heff
      · next hready =>
          split at heff
          · cases heff
          · next r hread =>
              obtain ⟨interrupted, left⟩ := env
              obtain ⟨rfl, rfl⟩ := hok
              cases heff
              exact .fill _ _ rfl hready.1 hready.2.1 hready.2.2 hread
      · cases heff

/-- A step of the machine that passes a guard is one of the moves. -/
theorem Session.guard_moves {M : ℕ} {P : List (List UInt8) → Recv → Prop} {s s' : Session}
    {e : Event} {o : Unit} (h : (session M).step s e = some (s', o)) (hok : s.Guard M P e) :
    s.Moves M e s' := by
  obtain ⟨s₁, hs₁, heq⟩ := Option.map_eq_some_iff.1 h
  obtain ⟨rfl, -⟩ := Prod.mk.inj heq
  exact Session.step_moves hs₁ hok.1

/-- A step that is possible is a step of the machine. -/
theorem Session.machine_step {M : ℕ} {s s' : Session} {e : Event} (h : s.step M e = some s') :
    (session M).step s e = some (s', ()) :=
  Option.map_eq_some_iff.2 ⟨s', h, rfl⟩

/-- A step that is possible and passes a guard leads on. -/
theorem Session.reach_step {M : ℕ} {P : List (List UInt8) → Recv → Prop} {s s' : Session}
    {e : Event} (h : s.step M e = some s') (hok : s.Guard M P e) :
    (session M).Reach (Session.Guard M P) s s' :=
  Machine.Reach.refl.step hok (Session.machine_step h)

end Aesd
