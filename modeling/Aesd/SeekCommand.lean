/-
**The seek command, from the packet to the reply.**

A connection whose first `recv` delivers exactly a seek packet.  The handler reads the two numbers
out of it — through `strtok_r`, which overwrites the delimiters, and `atoi`, whose `int` is negative
for the upper half of the range — and passes them to the `ioctl`; the newline is still found in the
buffer that was overwritten, so the loop ends; and the reads that follow start where the `ioctl` put
the position.

What the handler passes on and leaves alone does not depend on any call succeeding; what it sends
does.

* `Session.SeekOnly.step` — with any results of the calls: one request, nothing written;
* `Session.SeekRun.step`, `Session.SeekRun.progress` — with calls that succeed: the reply, on its
  way;
* `seek_command` — **the seek command works end to end**.
-/

import Aesd.SessionInv

set_option relaxedAutoImplicit false
set_option autoImplicit false

namespace Aesd

/-- The first `recv` delivers exactly `packet`. -/
def firstChunk (packet : List UInt8) (delivered : List (List UInt8)) (res : Recv) : Prop :=
  delivered = [] → res = .chunk packet

/-! ### What does not depend on the calls succeeding -/

/-- A call that neither receives a chunk nor makes a request nor moves bytes towards the device. -/
def Event.inert : Event → Bool
  | .recv (.chunk _) | .ioctl _ | .fwrite | .flush _ _ => false
  | _ => true

/-- Such a call leaves what was received, requested and written as it was. -/
theorem Session.effect_sameInput {M : ℕ} {s : Session} {e : Event} {conn : Conn} {kern : Kernel}
    (h : s.effect M e = some (conn, kern)) (he : e.inert = true) (pc : Pc) :
    s.SameInput ⟨pc, conn, kern⟩ := by
  have hsame : some (s.conn, s.kern) = some (conn, kern) → s.SameInput ⟨pc, conn, kern⟩ := by
    intro heq
    cases heq
    exact ⟨rfl, rfl, rfl, rfl, rfl⟩
  cases e with
  | recv res =>
      cases res with
      | chunk bytes => cases he
      | closed | failed => exact hsame h
  | ioctl interrupted => cases he
  | fwrite => cases he
  | flush n env => cases he
  | lock res => exact hsame h
  | unlock | close | clear | complete => exact hsame h
  | fseek res => cases h
  | fopen ok =>
      cases ok with
      | false => exact hsame h
      | true =>
          cases h
          exact ⟨rfl, rfl, rfl, rfl, rfl⟩
  | fill count env =>
      simp only [Session.effect] at h
      split at h
      · split at h
        · cases h
        · cases h
          exact ⟨rfl, rfl, rfl, rfl, rfl⟩
      · cases h
  | fread data =>
      simp only [Session.effect] at h
      split at h
      · cases h
        exact ⟨rfl, rfl, rfl, rfl, rfl⟩
      · cases h
  | send res =>
      simp only [Session.effect] at h
      split at h
      · cases h
        exact ⟨rfl, rfl, rfl, rfl, rfl⟩
      · cases h
  | fclose =>
      simp only [Session.effect] at h
      split at h
      · cases h
        exact ⟨rfl, rfl, rfl, rfl, rfl⟩
      · cases h

/-- The control points of a handler that gets the seek packet for byte `y` of command `x`, with the
chunks that were delivered and the requests that were made: after the packet one request is about to
be made, or was made, and no more is received. -/
def Pc.SeekPhase (x y : UInt32) (delivered : List (List UInt8)) (seeks : List AesdSeekto) :
    Pc → Prop
  | .locking | .opening | .receiving => delivered = [] ∧ seeks = []
  | .seeking seek buffer n =>
      delivered = [seekPacket x.toNat y.toNat] ∧ seeks = [] ∧ seek = ⟨x, y⟩ ∧
        afterChunk true buffer n = .reading
  | .reading | .sending _ => delivered = [seekPacket x.toNat y.toNat] ∧ seeks = [⟨x, y⟩]
  | .writing .. | .rewinding | .crashed => False
  | _ => (delivered = [] ∧ seeks = []) ∨
      (delivered = [seekPacket x.toNat y.toNat] ∧ seeks = [⟨x, y⟩])

/-- A call that neither receives nor makes a request keeps to these. -/
theorem Pc.SeekPhase.next {x y : UInt32} {delivered : List (List UInt8)} {seeks : List AesdSeekto}
    {pc pc' : Pc} {e : Event} (h : pc.SeekPhase x y delivered seeks)
    (hpc : pc.next true e = some pc') (he : e.inert = true) :
    pc'.SeekPhase x y delivered seeks := by
  cases Pc.next_moves hpc with
  | lock res =>
      split
      · exact Or.inl h
      · exact h
  | fopen ok =>
      split
      · exact h
      · exact Or.inl h
  | chunk | ioctl => cases he
  | fwrite | fseek => exact h.elim
  | closed => exact Or.inl h
  | fread | send =>
      split
      · exact Or.inr h
      · exact h
  | fclose | unlock | close | clear | complete | flush | fill => exact h

/-- **A connection that got a seek packet**, over the device `k`: nothing was written, and one
request was made. -/
structure Session.SeekOnly (k : Kernel) (x y : UInt32) (s : Session) : Prop where
  kern : s.kern = k
  handed : s.conn.handed = []
  unwritten : s.conn.unwritten = []
  phase : s.pc.SeekPhase x y s.conn.delivered s.conn.seeks

theorem Session.SeekOnly.init (k : Kernel) (x y : UInt32) : (Session.init k).SeekOnly k x y :=
  ⟨rfl, rfl, rfl, rfl, rfl⟩

/-- **Whatever the calls return**, one request is made for the packet and nothing is written. -/
theorem Session.SeekOnly.step {M : ℕ} {k : Kernel} {x y : UInt32} {s s' : Session} {e : Event}
    (h : s.SeekOnly k x y) (hrecv : s.Receives (firstChunk (seekPacket x.toNat y.toNat)) e)
    (hstep : s.step M e = some s') : s'.SeekOnly k x y := by
  obtain ⟨hpc, heff⟩ := Session.step_eq_some.1 hstep
  obtain ⟨pc, conn, kern⟩ := s
  obtain ⟨pc', conn', kern'⟩ := s'
  obtain ⟨hkern, hhanded, hunwritten, hphase⟩ := h
  simp only at hpc heff hkern hhanded hunwritten hphase
  by_cases he : e.inert = true
  · have hsame := Session.effect_sameInput heff he pc'
    refine ⟨hsame.kern.trans hkern, hsame.handed.trans hhanded,
      hsame.unwritten.trans hunwritten, ?_⟩
    have hphase' := hphase.next hpc he
    rwa [← hsame.delivered, ← hsame.seeks] at hphase'
  cases Pc.next_moves hpc with
  | chunk bytes =>
      -- the packet arrives
      cases heff
      obtain rfl := Recv.chunk.inj (hrecv _ rfl hphase.1)
      obtain ⟨buffer, hafter, hleave⟩ := afterRecv_seekPacket x y
      refine ⟨hkern, hhanded, hunwritten, ?_⟩
      rw [hafter]
      exact ⟨by rw [hphase.1]; rfl, hphase.2, rfl, hleave⟩
  | ioctl seek buffer n =>
      -- the request is made
      obtain ⟨hdelivered, hseeks, rfl, hleave⟩ := hphase
      simp only [Session.effect] at heff
      split at heff
      · cases heff
      · cases heff
        refine ⟨hkern, hhanded, hunwritten, ?_⟩
        rw [hleave]
        exact ⟨hdelivered, by rw [hseeks]; rfl⟩
  | fwrite buffer n => exact hphase.elim
  | flush pc n =>
      -- nothing was written before
      simp [Session.effect, hunwritten] at heff
      omega
  | closed res hres =>
      cases res with
      | chunk bytes => exact absurd rfl (hres bytes)
      | closed => exact absurd rfl he
      | failed => exact absurd rfl he
  | lock | fopen | fseek | fread | send | fclose | unlock | close | clear | complete | fill =>
      exact absurd rfl he

/-! ### The position that is sought -/

/-- The position of the file after a seek request: that of the byte, or the start if the request is
refused. -/
def seekPos (k : Kernel) (x y : ℕ) : ℕ :=
  match k.commands[x]? with
  | none => 0
  | some c => if c.length < y then 0 else ((k.commands.take x).flatten).length + y

theorem Kernel.Inv.aesdIoctl_seekPos {M : ℕ} {k : Kernel} (h : k.Inv M)
    (hflat : k.flat.length < 2 ^ 31) (x y : UInt32) :
    ∃ r, aesdIoctl ⟨some ⟨x, y⟩, false⟩ k ⟨true, 0⟩ aesdcharIocseekto
      = .ok (⟨true, seekPos k x.toNat y.toNat⟩, r) := by
  rw [aesdIoctl_seekto k rfl]
  unfold seekPos
  cases hc : k.commands[x.toNat]? with
  | none =>
      refine ⟨-EINVAL, ?_⟩
      rw [h.seekLocked_einval ⟨true, 0⟩ (List.getElem?_eq_none_iff.1 hc)]
      rfl
  | some c =>
      rw [h.seekLocked_stored hflat ⟨true, 0⟩ hc]
      by_cases hoff : c.length < y.toNat
      · refine ⟨-EINVAL, ?_⟩
        simp only [if_pos hoff]
        rfl
      · exact ⟨0, by simp only [if_neg hoff]⟩

theorem seekPos_le (k : Kernel) (x y : ℕ) : seekPos k x y ≤ k.flat.length := by
  unfold seekPos
  cases hc : k.commands[x]? with
  | none => exact Nat.zero_le _
  | some c =>
      by_cases hoff : c.length < y
      · simp only [if_pos hoff]
        exact Nat.zero_le _
      · simp only [if_neg hoff]
        obtain ⟨hx, rfl⟩ := List.getElem?_eq_some_iff.1 hc
        have hsplit : k.flat = (k.commands.take x).flatten ++ (k.commands.drop x).flatten := by
          rw [Kernel.flat, ← List.flatten_append, List.take_append_drop]
        rw [hsplit, List.length_append, List.drop_eq_getElem_cons hx, List.flatten_cons,
          List.length_append]
        omega

/-- From the position of a stored byte on there are the rest of its command and the commands behind
it. -/
theorem drop_seekPos {k : Kernel} {x y : ℕ} {c : List UInt8} (hc : k.commands[x]? = some c)
    (hy : y < c.length) :
    k.flat.drop (seekPos k x y) = c.drop y ++ (k.commands.drop (x + 1)).flatten := by
  have hx := (List.getElem?_eq_some_iff.1 hc).1
  have hpos : seekPos k x y = ((k.commands.take x).flatten).length + y := by
    unfold seekPos
    simp only [hc, if_neg (not_lt.2 hy.le)]
  have hsplit : k.flat = (k.commands.take x).flatten ++
      (c ++ (k.commands.drop (x + 1)).flatten) := by
    rw [Kernel.flat, ← (List.getElem?_eq_some_iff.1 hc).2, ← List.flatten_cons,
      ← List.drop_eq_getElem_cons hx, ← List.flatten_append, List.take_append_drop]
  rw [hpos, hsplit, List.drop_length_add_append, List.drop_append_of_le_length hy.le]

/-! ### What a handler sends for the packet -/

/-- The states of a connection that gets the packet, when no call fails. -/
inductive Session.SeekRun (k : Kernel) (x y : UInt32) : Session → Prop
  | locking : SeekRun k x y ⟨.locking, .init, k⟩
  | opening : SeekRun k x y ⟨.opening, .init, k⟩
  | receiving : SeekRun k x y ⟨.receiving, { Conn.init with filp := ⟨true, 0⟩ }, k⟩
  | seeking (buffer : List UInt8) (n : ℕ) : afterChunk true buffer n = .reading →
      SeekRun k x y ⟨.seeking ⟨x, y⟩ buffer n,
        { Conn.init with delivered := [seekPacket x.toNat y.toNat], filp := ⟨true, 0⟩ }, k⟩
  | answering {s : Session} : s.Answering (seekPos k x.toNat y.toNat) → s.kern = k →
      s.conn.unwritten = [] → s.conn.seeks = [⟨x, y⟩] → SeekRun k x y s

/-- The steps that are left at most. -/
def Session.seekTodo (k : Kernel) (s : Session) : ℕ :=
  match s.pc with
  | .locking => 3 * k.flat.length + 11
  | .opening => 3 * k.flat.length + 10
  | .receiving => 3 * k.flat.length + 9
  | .seeking .. => 3 * k.flat.length + 8
  | _ => s.todo

theorem Session.Answering.seekTodo_eq {p : ℕ} {s : Session} (h : s.Answering p) (k : Kernel) :
    s.seekTodo k = s.todo := by
  unfold Session.Answering at h
  unfold Session.seekTodo
  split at h
  all_goals first
    | contradiction
    | simp only [*]

/-- What the handler can do before it answers, with nothing written. -/
theorem Session.Moves.before_answer {M : ℕ} {s s' : Session} {e : Event} (hm : s.Moves M e s')
    (hunwritten : s.conn.unwritten = []) :
    match s.pc with
    | .locking => s' = { s with pc := .opening }
    | .opening => s' = { s with pc := .receiving, conn := { s.conn with filp := ⟨true, 0⟩ } }
    | .receiving =>
        (∃ bytes, e = .recv (.chunk bytes) ∧ s' = { s with
          pc := afterRecv true bytes
          conn := { s.conn with delivered := s.conn.delivered ++ [bytes] } }) ∨
        ∃ res, e = .recv res ∧ ∀ bytes, res ≠ .chunk bytes
    | .seeking seek buffer n => ∃ filp r,
        aesdIoctl ⟨some seek, false⟩ s.kern s.conn.filp aesdcharIocseekto = .ok (filp, r) ∧
        s' = { s with
          pc := afterChunk true buffer n
          conn := { s.conn with seeks := s.conn.seeks ++ [seek], filp := filp } }
    | _ => True := by
  cases hm with
  | lock hpc => simp only [hpc]
  | fopen hpc => simp only [hpc]
  | recv bytes hpc => simp only [hpc]; exact Or.inl ⟨bytes, rfl, rfl⟩
  | closed res hpc hres => simp only [hpc]; exact Or.inr ⟨res, rfl, hres⟩
  | ioctl seek buffer n filp res hpc hioctl => simp only [hpc]; exact ⟨filp, res, hioctl, rfl⟩
  | flush n env kern res hopen hpos hle =>
      rw [hunwritten, List.length_nil] at hle
      omega
  | fwrite _ _ hpc | fill _ _ hpc | fread hpc | send _ hpc | fclose hpc | unlock hpc | close hpc
  | clear hpc | complete hpc => simp only [hpc]

/-- **A step leads from one of these states to another**, and brings the end nearer. -/
theorem Session.SeekRun.step {M : ℕ} {k : Kernel} {x y : UInt32} {s s' : Session} {e : Event}
    (h : s.SeekRun k x y) (hinv : k.Inv M) (hflat : k.flat.length < 2 ^ 31)
    (hrecv : s.Receives (firstChunk (seekPacket x.toNat y.toNat)) e) (hm : s.Moves M e s') :
    s'.SeekRun k x y ∧ s'.seekTodo k < s.seekTodo k := by
  have hple := seekPos_le k x.toNat y.toNat
  have hp : seekPos k x.toNat y.toNat < 2 ^ 63 := by omega
  cases h with
  | locking =>
      obtain rfl := hm.before_answer rfl
      exact ⟨.opening, by simp [Session.seekTodo]⟩
  | opening =>
      obtain rfl := hm.before_answer rfl
      exact ⟨.receiving, by simp [Session.seekTodo]⟩
  | receiving =>
      rcases hm.before_answer rfl with ⟨bytes, rfl, rfl⟩ | ⟨res, rfl, hres⟩
      · obtain rfl := Recv.chunk.inj (hrecv _ rfl rfl)
        obtain ⟨buffer, hafter, hleave⟩ := afterRecv_seekPacket x y
        rw [hafter]
        exact ⟨.seeking buffer _ hleave, by simp [Session.seekTodo]⟩
      · exact absurd (hrecv _ rfl rfl) (hres _)
  | seeking buffer n hleave =>
      obtain ⟨filp, r, hioctl, rfl⟩ := hm.before_answer rfl
      obtain ⟨r', hioctl'⟩ := hinv.aesdIoctl_seekPos hflat x y
      obtain ⟨rfl, -⟩ := Prod.mk.inj (Except.ok.inj (hioctl.symm.trans hioctl'))
      simp only [hleave]
      refine ⟨.answering (Or.inl ⟨rfl, rfl, rfl, rfl⟩) rfl rfl rfl, ?_⟩
      simp only [Session.seekTodo, Session.todo, Conn.init, List.length_drop, List.length_nil,
        Bool.false_eq_true, if_false]
      omega
  | answering hans hkern hunwritten hseeks =>
      have hinv' : s.kern.Inv M := hkern ▸ hinv
      have hflat' : s.kern.flat.length < 2 ^ 31 := hkern ▸ hflat
      have hans' := hans.step hp hinv' hflat' hm
      obtain ⟨hsame, hlt⟩ := hans.todo_lt hp hinv' hflat' hunwritten hm
      rw [hans.seekTodo_eq, hans'.seekTodo_eq]
      exact ⟨.answering hans' (hsame.kern.trans hkern) (hsame.unwritten.trans hunwritten)
        (hsame.seeks.trans hseeks), hlt⟩

/-- **The handler is never stuck** before it has returned. -/
theorem Session.SeekRun.progress {M : ℕ} {k : Kernel} {x y : UInt32} {s : Session}
    (h : s.SeekRun k x y) (hinv : k.Inv M) (hflat : k.flat.length < 2 ^ 31)
    (hdone : s.pc ≠ .done) :
    ∃ e s', s.step M e = some s' ∧ s.Guard M (firstChunk (seekPacket x.toNat y.toNat)) e := by
  have hple := seekPos_le k x.toNat y.toNat
  cases h with
  | locking => exact ⟨.lock 0, _, rfl, rfl, Session.receives_other rfl⟩
  | opening => exact ⟨.fopen true, _, rfl, rfl, Session.receives_other rfl⟩
  | receiving =>
      have hpos : 0 < (seekPacket x.toNat y.toNat).length := by simp [seekPacket]
      have hlt := length_seekPacket_lt x y
      refine ⟨.recv (.chunk (seekPacket x.toNat y.toNat)), _,
        Session.step_of (if_pos ⟨hpos, hlt.le⟩) rfl, trivial, ?_⟩
      intro res heq _
      exact (Event.recv.inj heq).symm
  | seeking buffer n hleave =>
      obtain ⟨r, hioctl⟩ := hinv.aesdIoctl_seekPos hflat x y
      have heff : Session.effect M ⟨.seeking ⟨x, y⟩ buffer n, { Conn.init with
          delivered := [seekPacket x.toNat y.toNat], filp := ⟨true, 0⟩ }, k⟩ (.ioctl false)
          = some ({ Conn.init with
            delivered := [seekPacket x.toNat y.toNat]
            seeks := [⟨x, y⟩]
            filp := ⟨true, seekPos k x.toNat y.toNat⟩ }, k) := by
        simp only [Session.effect, hioctl]
        rfl
      exact ⟨.ioctl false, _, Session.step_of rfl heff, rfl, Session.receives_other rfl⟩
  | answering hans hkern hunwritten hseeks =>
      exact hans.progress (by omega) (hkern ▸ hinv) (hkern ▸ hflat) hunwritten hdone _

/-! ### End to end -/

/-- **The seek command works end to end.**  Whatever the other calls return, a handler whose first
`recv` delivers a seek packet makes exactly the request of the packet, writes nothing to the device
and receives no more.  If no call fails it returns, after a bounded number of steps; and if the byte
that the packet names is stored, it has sent what is stored from that byte on. -/
theorem seek_command {M : ℕ} {sys : Sys} (hs : Reachable M sys)
    (hflat : sys.kern.flat.length < 2 ^ 31) (x y : UInt32) :
    (∀ {t s}, (session M).Trace (Session.Receives (firstChunk (seekPacket x.toNat y.toNat)))
        (Session.init sys.kern) t s → s.SeekOnly sys.kern x y) ∧
    (∀ {t s}, (session M).Trace (Session.Guard M (firstChunk (seekPacket x.toNat y.toNat)))
        (Session.init sys.kern) t s →
      t.length ≤ 3 * sys.kern.flat.length + 11 ∧
      (∃ s', (session M).Reach (Session.Guard M (firstChunk (seekPacket x.toNat y.toNat))) s s' ∧
        s'.pc = .done) ∧
      (s.pc = .done → s.conn.seeks = [⟨x, y⟩] ∧
        ∀ c, sys.kern.commands[x.toNat]? = some c → y.toNat < c.length →
          s.conn.accepted = c.drop y.toNat ++ (sys.kern.commands.drop (x.toNat + 1)).flatten)) := by
  have hinv := hs.inv
  have hstep : ∀ s e s' (o : Unit), s.SeekRun sys.kern x y →
      s.Guard M (firstChunk (seekPacket x.toNat y.toNat)) e →
      (session M).step s e = some (s', o) →
      s'.SeekRun sys.kern x y ∧ s'.seekTodo sys.kern < s.seekTodo sys.kern :=
    fun s e s' o hrun hok hs =>
      hrun.step hinv hflat hok.2 (Session.guard_moves hs hok)
  constructor
  · intro t s ht
    refine ht.invariant (Session.SeekOnly.init _ x y) ?_
    intro s e s' o honly hrecv hs
    obtain ⟨s₁, hs₁, heq⟩ := Option.map_eq_some_iff.1 hs
    obtain ⟨rfl, -⟩ := Prod.mk.inj heq
    exact honly.step hrecv hs₁
  · intro t s ht
    obtain ⟨hrun, hlen⟩ := ht.length_add_le Session.SeekRun.locking hstep
    refine ⟨(Nat.le_add_right _ _).trans hlen, ?_, ?_⟩
    · obtain ⟨s', hreach, -, hdone⟩ := Machine.reach_final (fun s => s.pc = .done) hrun hstep (by
        intro s₁ hrun₁ hdone
        obtain ⟨e, s₂, hs₂, hok⟩ := hrun₁.progress hinv hflat hdone
        exact ⟨e, s₂, (), hok, Session.machine_step hs₂⟩)
      exact ⟨s', hreach, hdone⟩
    · intro hdone
      cases hrun with
      | answering hans hkern _ hseeks =>
          refine ⟨hseeks, ?_⟩
          intro c hc hy
          unfold Session.Answering at hans
          simp only [hdone] at hans
          rw [hans.2, hkern, drop_seekPos hc hy]
      | locking | opening | receiving | seeking => cases hdone

/-- Two lines are stored, and a connection asks for the second one. -/
theorem seek_command_two_lines :
    ∃ sys, Reachable 64 sys ∧ sys.kern.commands = [[97, 98, 10], [99, 10]] ∧
      ∃ s, (session 64).Reach (Session.Guard 64 (firstChunk (seekPacket 1 0)))
          (Session.init sys.kern) s ∧
        s.pc = .done ∧ s.conn.seeks = [⟨1, 0⟩] ∧ s.conn.accepted = [99, 10] := by
  have hcmds : ((charDev 64).run Sys.init
      [.openFile 0, .write (some 0) (some [97, 98, 10]) ⟨false, ⟨some 0, fun _ => 7⟩, 0⟩,
        .write (some 0) (some [99, 10]) ⟨false, ⟨some 1, fun _ => 7⟩, 0⟩]).map
        (fun p => p.1.kern.commands) = some [[97, 98, 10], [99, 10]] := by decide
  obtain ⟨⟨sys, rs⟩, hrun, hcmds⟩ := Option.map_eq_some_iff.1 hcmds
  have hcmds' : sys.kern.commands = [[97, 98, 10], [99, 10]] := hcmds
  have hs := reachable_of_run hrun
  have hflat : sys.kern.flat.length < 2 ^ 31 := by
    rw [Kernel.flat, hcmds']
    decide
  obtain ⟨-, ⟨s, ⟨t, ht⟩, hdone⟩, -⟩ := (seek_command hs hflat 1 0).2 Machine.Trace.nil
  obtain ⟨hseeks, hreply⟩ := ((seek_command hs hflat 1 0).2 ht).2.2 hdone
  refine ⟨sys, hs, hcmds', s, ⟨t, ht⟩, hdone, hseeks, ?_⟩
  rw [hreply [99, 10] (by rw [hcmds']; rfl) (by decide), hcmds']
  rfl

end Aesd
