/-
**What a connection hands to the device, and what it sends back.**

While a handler collects its packet, the bytes of the chunks that are no seek command go through the
stream to the device, and none is lost, doubled or moved on its way: that is `Session.Sound`.  Once
the packet is complete the handler reads the device to its end and sends what it reads.  Here the
bytes go from the device through the buffer of the stream and that of the handler to the socket, and
what is under way at any time continues what was sent before: that is `Replying`.

A handler that answers comes to its end whatever the stream does; the measure is `Session.todo`.

* `Session.Sound.step` — the bytes of the data chunks go to the device, piece by piece, in order;
* `Session.Answering.step` — the reply goes through the stored bytes, from the position of the file;
* `Session.Answering.reach_done` — and the handler returns once it has sent them.
-/

import Aesd.CharDeviceSeek
import Aesd.Session

set_option relaxedAutoImplicit false
set_option autoImplicit false

namespace Aesd

open TermLog

/-! ### From the socket to the device -/

/-- The bytes of the delivered chunks that are no seek command. -/
def Conn.payload (c : Conn) : List UInt8 :=
  (c.delivered.filter fun d => !startsWithKeyword d).flatten

/-- The received bytes that are about to be written to the stream. -/
def Pc.inflight : Pc → List UInt8
  | .writing buffer n => buffer.take n
  | _ => []

/-- The bytes that left the handler: those the device has, and those the stream still holds. -/
def Conn.written (c : Conn) : List UInt8 := c.handed.flatten ++ c.unwritten

/-- **The data of a connection**, over the log `log₀` that the device had when the handler got the
mutex: the device was fed the pieces that stdio handed over, and these pieces, what the stream holds
and what the handler is about to write are the bytes of the data chunks, in order. -/
structure Session.Sound (M : ℕ) (log₀ : TermLog UInt8) (s : Session) : Prop where
  inv : s.kern.Inv M
  intact : s.kern.Intact
  log : s.kern.log = feeds 10 newline log₀ s.conn.handed
  pieces : ∀ d ∈ s.conn.handed, d ≠ []
  bytes : s.conn.written ++ s.pc.inflight = s.conn.payload
  opened : s.pc.fileOpen = true → s.conn.filp.privateData = true

theorem Session.Sound.init {M : ℕ} {k : Kernel} (h : k.Inv M) (hint : k.Intact) :
    (Session.init k).Sound M k.log where
  inv := h
  intact := hint
  log := rfl
  pieces := by simp [Session.init, Conn.init]
  bytes := rfl
  opened := by simp [Session.init, Pc.fileOpen]

@[simp] theorem inflight_afterChunk (charDevice : Bool) (buffer : List UInt8) (n : ℕ) :
    (afterChunk charDevice buffer n).inflight = [] := by
  unfold afterChunk
  split
  · split <;> rfl
  · rfl

/-- A chunk is about to be written unless it starts with the keyword. -/
theorem inflight_afterRecv (bytes : List UInt8) :
    (afterRecv true bytes).inflight = if startsWithKeyword bytes then [] else bytes := by
  unfold afterRecv
  by_cases hkey : startsWithKeyword bytes = true
  · rw [if_pos ⟨rfl, hkey⟩, if_pos hkey]
    split <;> rfl
  · rw [if_neg fun hc => hkey hc.2, if_neg hkey]
    exact take_recvBuffer bytes

theorem Conn.payload_append (c : Conn) (bytes : List UInt8) :
    ({ c with delivered := c.delivered ++ [bytes] } : Conn).payload
      = c.payload ++ if startsWithKeyword bytes then [] else bytes := by
  unfold Conn.payload
  rw [List.filter_append, List.flatten_append]
  cases hkey : startsWithKeyword bytes <;> simp [hkey]

/-- A write to an open file that is not interrupted reaches the device. -/
theorem aesdWrite_open {M : ℕ} {env : WriteEnv} (k : Kernel) {filp : File} (data : List UInt8)
    (hopen : filp.privateData = true) (hwait : env.interrupted = false) :
    aesdWrite M env k (some filp) (some data) = writeLocked M env k data := by
  unfold aesdWrite
  simp [hopen, hwait]

theorem seekLocked_privateData {k : Kernel} {filp filp' : File} {seek : AesdSeekto} {r : ℤ}
    (h : seekLocked k filp seek = .ok (filp', r)) : filp'.privateData = filp.privateData := by
  unfold seekLocked at h
  simp only at h
  split at h
  · rw [← (Prod.mk.inj (Except.ok.inj h)).1]
  · split at h
    · cases h
    · split at h
      · rw [← (Prod.mk.inj (Except.ok.inj h)).1]
      · rw [← (Prod.mk.inj (Except.ok.inj h)).1]

/-- A seek request keeps the file open. -/
theorem aesdIoctl_privateData {k : Kernel} {filp filp' : File} {seek : AesdSeekto} {r : ℤ}
    (hopen : filp.privateData = true)
    (h : aesdIoctl ⟨some seek, false⟩ k filp aesdcharIocseekto = .ok (filp', r)) :
    filp'.privateData = true := by
  rw [aesdIoctl_seekto k hopen] at h
  exact (seekLocked_privateData h).trans hopen

/-- **The data of a connection is neither lost nor doubled nor moved.** -/
theorem Session.Sound.step {M : ℕ} {log₀ : TermLog UInt8} {s s' : Session} {e : Event}
    (h : s.Sound M log₀) (hm : s.Moves M e s') : s'.Sound M log₀ := by
  obtain ⟨hinv, hint, hlog, hpieces, hbytes, hopened⟩ := h
  cases hm with
  | lock hpc =>
      rw [hpc] at hbytes
      exact ⟨hinv, hint, hlog, hpieces, hbytes, fun hopen => Bool.noConfusion hopen⟩
  | fopen hpc =>
      rw [hpc] at hbytes
      exact ⟨hinv, hint, hlog, hpieces, hbytes, fun _ => rfl⟩
  | recv bytes hpc =>
      rw [hpc] at hbytes hopened
      refine ⟨hinv, hint, hlog, hpieces, ?_, fun _ => hopened rfl⟩
      have hsent : s.conn.written = s.conn.payload := by simpa [Pc.inflight] using hbytes
      rw [inflight_afterRecv, Conn.payload_append, ← hsent]
      rfl
  | closed res hpc =>
      rw [hpc] at hbytes hopened
      exact ⟨hinv, hint, hlog, hpieces, hbytes, fun _ => hopened rfl⟩
  | ioctl seek buffer n filp res hpc hioctl =>
      rw [hpc] at hbytes hopened
      refine ⟨hinv, hint, hlog, hpieces, ?_, fun _ => aesdIoctl_privateData (hopened rfl) hioctl⟩
      rw [inflight_afterChunk]
      exact hbytes
  | fwrite buffer n hpc =>
      rw [hpc] at hbytes hopened
      refine ⟨hinv, hint, hlog, hpieces, Eq.trans ?_ hbytes, fun _ => hopened rfl⟩
      rw [inflight_afterChunk]
      simp [Conn.written, Pc.inflight]
  | flush n env kern res hopen hpos hle hok hw =>
      -- the one step that changes the device
      rw [aesdWrite_open _ _ (hopened hopen) hok.1] at hw
      obtain ⟨-, hinv', hint', hlog'⟩ := hinv.writeLocked_log hint hok.2.1 hok.2.2 hw
      refine ⟨hinv', hint', ?_, ?_, Eq.trans ?_ hbytes, hopened⟩
      · rw [hlog', hlog, feeds_append]
        rfl
      · intro d hd
        rcases List.mem_append.1 hd with hd | hd
        · exact hpieces d hd
        · rw [List.mem_singleton.1 hd, ← List.length_pos_iff, List.length_take]
          omega
      · simp [Conn.written]
  | fill count r hpc =>
      exact ⟨hinv, hint, hlog, hpieces, hbytes, hopened⟩
  | fread hpc =>
      rw [hpc] at hbytes hopened
      refine ⟨hinv, hint, hlog, hpieces, Eq.trans ?_ hbytes, fun _ => hopened rfl⟩
      split <;> rfl
  | send data hpc =>
      rw [hpc] at hbytes hopened
      exact ⟨hinv, hint, hlog, hpieces, hbytes, fun _ => hopened rfl⟩
  -- the file is closed
  | fclose hpc | unlock hpc | close hpc | clear hpc | complete hpc =>
      rw [hpc] at hbytes
      exact ⟨hinv, hint, hlog, hpieces, hbytes, fun hopen => Bool.noConfusion hopen⟩

/-! ### From the device to the socket -/

/-- Nothing was read yet, and the position of the file is `p`. -/
structure Conn.Fresh (c : Conn) (p : ℕ) : Prop where
  accepted : c.accepted = []
  ahead : c.ahead = []
  eof : c.eof = false
  filp : c.filp = ⟨true, p⟩

/-- The bytes that were sent, those that are about to be, those read ahead and those that are still
to be read make up `reply`; `flat` is what the device has stored. -/
def Replying (flat reply : List UInt8) (c : Conn) (out : List UInt8) : Prop :=
  ∃ q : ℕ, q < 2 ^ 63 ∧ c.filp = ⟨true, q⟩ ∧
    c.accepted ++ (out ++ (c.ahead ++ flat.drop q)) = reply ∧
    (c.eof = true → flat.drop q = [])

theorem Conn.Fresh.replying {c : Conn} {p : ℕ} (h : c.Fresh p) (hp : p < 2 ^ 63)
    (flat : List UInt8) : Replying flat (flat.drop p) c [] := by
  refine ⟨p, hp, h.filp, ?_, ?_⟩
  · rw [h.accepted, h.ahead]
    rfl
  · intro heof
    rw [h.eof] at heof
    cases heof

/-- What stdio reads ahead obeys the law of reads. -/
theorem Kernel.Inv.read_serves {M : ℕ} {k : Kernel} (h : k.Inv M)
    (hflat : k.flat.length < 2 ^ 31) {q count : ℕ} (hq : q < 2 ^ 63) {filp : File}
    (hfilp : filp = ⟨true, q⟩) {r : ReadResult}
    (hread : aesdRead ⟨false, 0⟩ k (some filp) true count filp.fPos = .ok r) :
    k.Serves q count r := by
  obtain ⟨r', hr', hlaw⟩ := h.readLocked_serves hflat 0 count hq
  have hlocked : aesdRead ⟨false, 0⟩ k (some filp) true count filp.fPos
      = readLocked 0 k count q := by
    rw [hfilp]
    rfl
  obtain rfl : r = r' := Except.ok.inj (hread.symm.trans (hlocked.trans hr'))
  exact hlaw.resolve_left fun hfail => absurd hfail.2.2 (lt_irrefl 0)

/-- **A read ahead moves bytes from the device to the stream.** -/
theorem Replying.fill {M : ℕ} {k : Kernel} {reply : List UInt8} {c : Conn} {count : ℕ}
    {r : ReadResult} (h : Replying k.flat reply c []) (hinv : k.Inv M)
    (hflat : k.flat.length < 2 ^ 31) (hcount : 0 < count)
    (hread : aesdRead ⟨false, 0⟩ k (some c.filp) true count c.filp.fPos = .ok r) :
    Replying k.flat reply { c with
      ahead := c.ahead ++ (if 0 ≤ r.retval then r.data else [])
      eof := r.retval ≤ 0
      filp := { c.filp with fPos := r.fPos } } [] := by
  obtain ⟨q, hq, hfilp, hstream, -⟩ := h
  have hserves := hinv.read_serves hflat hq hfilp hread
  obtain ⟨rest, hrest⟩ := hserves.stream
  have hdrop : k.flat.drop (q + r.data.length) = rest := by
    rw [← List.drop_drop, ← hrest, List.drop_left]
  have hlen : r.data.length ≤ k.flat.length - q := by
    rw [← List.length_drop]
    exact hserves.stream.length_le
  refine ⟨q + r.data.length, by omega, ?_, ?_, ?_⟩
  · rw [hfilp, hserves.fPos]
    rfl
  · rw [if_pos (by rw [hserves.retval]; omega), hdrop, ← hstream, ← hrest]
    simp
  · intro heof
    -- a read that returns zero is at the end
    have hnil : r.data.length = 0 := by
      have := of_decide_eq_true heof
      rw [hserves.retval] at this
      omega
    rw [hnil, Nat.add_zero]
    by_contra hne
    have hlt : q < k.flat.length := by
      rw [List.drop_eq_nil_iff, not_le] at hne
      exact hne
    exact absurd (hserves.progress hcount hlt) (by omega)

/-- `fread` moves bytes from the stream to the buffer of the handler. -/
theorem Replying.fread {flat reply : List UInt8} {c : Conn} (h : Replying flat reply c []) :
    Replying flat reply { c with ahead := c.ahead.drop recvBufferLen }
      (c.ahead.take recvBufferLen) := by
  obtain ⟨q, hq, hfilp, hstream, heof⟩ := h
  refine ⟨q, hq, hfilp, ?_, heof⟩
  rw [← hstream, ← List.append_assoc (c.ahead.take _), List.take_append_drop]
  rfl

/-- `send` moves bytes from the buffer of the handler to the socket. -/
theorem Replying.send {flat reply out : List UInt8} {c : Conn} (h : Replying flat reply c out) :
    Replying flat reply { c with accepted := c.accepted ++ out } [] := by
  obtain ⟨q, hq, hfilp, hstream, heof⟩ := h
  refine ⟨q, hq, hfilp, ?_, heof⟩
  rw [← hstream]
  simp

/-- When `fread` finds nothing, everything was sent. -/
theorem Replying.finish {flat reply : List UInt8} {c : Conn} (h : Replying flat reply c [])
    (hready : recvBufferLen ≤ c.ahead.length ∨ c.eof = true)
    (hnil : c.ahead.take recvBufferLen = []) : c.accepted = reply := by
  obtain ⟨q, -, -, hstream, heof⟩ := h
  have hahead : c.ahead = [] := by
    rcases List.take_eq_nil_iff.1 hnil with hzero | hahead
    · cases hzero
    · exact hahead
  have hend : c.eof = true := hready.resolve_left fun hle => by
    rw [hahead] at hle
    exact absurd hle (by decide)
  rw [← hstream, hahead, heof hend]
  simp

/-- **The handler answers**, from position `p` on: it reads and sends until everything stored was
sent, and then it comes to its end. -/
def Session.Answering (p : ℕ) (s : Session) : Prop :=
  match s.pc with
  | .reading =>
      s.conn.Fresh p ∨
        s.conn.unwritten = [] ∧ Replying s.kern.flat (s.kern.flat.drop p) s.conn []
  | .sending data =>
      s.conn.unwritten = [] ∧ Replying s.kern.flat (s.kern.flat.drop p) s.conn data
  | .closingFile | .unlocking | .closingClient | .clearing | .completing | .done =>
      s.conn.unwritten = [] ∧ s.conn.accepted = s.kern.flat.drop p
  | _ => False

theorem Session.Answering.step {M p : ℕ} {s s' : Session} {e : Event} (h : s.Answering p)
    (hp : p < 2 ^ 63) (hinv : s.kern.Inv M) (hflat : s.kern.flat.length < 2 ^ 31)
    (hm : s.Moves M e s') : s'.Answering p := by
  unfold Session.Answering at h
  cases hm with
  -- the packet is complete
  | lock hpc | fopen hpc | recv _ hpc | closed _ hpc | ioctl _ _ _ _ _ hpc | fwrite _ _ hpc =>
      simp only [hpc] at h
  | flush n env kern res hopen hpos hle =>
      -- bytes are handed over before the first read only
      have hne : s.conn.unwritten ≠ [] := by
        intro hnil
        rw [hnil, List.length_nil] at hle
        omega
      unfold Session.Answering
      cases hpc : s.pc with
      | reading =>
          simp only [hpc] at h ⊢
          obtain ⟨hacc, hahead, heof, hfilp⟩ := h.resolve_right fun hc => hne hc.1
          exact Or.inl ⟨hacc, hahead, heof, hfilp⟩
      | sending data => simp only [hpc] at h; exact absurd h.1 hne
      | closingFile => simp only [hpc] at h; exact absurd h.1 hne
      | _ => simp [hpc, Pc.fileOpen] at h hopen
  | fill count r hpc hflushed hcount heof hread =>
      simp only [hpc] at h
      have hrep : Replying s.kern.flat (s.kern.flat.drop p) s.conn [] := by
        rcases h with hfresh | hrep
        · exact hfresh.replying hp _
        · exact hrep.2
      simp only [Session.Answering, hpc]
      exact Or.inr ⟨hflushed, hrep.fill hinv hflat hcount hread⟩
  | fread hpc hflushed hready =>
      simp only [hpc] at h
      have hrep : Replying s.kern.flat (s.kern.flat.drop p) s.conn [] := by
        rcases h with hfresh | hrep
        · exact hfresh.replying hp _
        · exact hrep.2
      unfold Session.Answering
      by_cases hnil : s.conn.ahead.take recvBufferLen = []
      · simp only [if_pos hnil]
        exact ⟨hflushed, hrep.finish hready hnil⟩
      · simp only [if_neg hnil]
        exact ⟨hflushed, hrep.fread⟩
  | send data hpc =>
      simp only [hpc] at h
      exact Or.inr ⟨h.1, h.2.send⟩
  | fclose hpc | unlock hpc | close hpc | clear hpc | complete hpc =>
      simp only [hpc] at h
      exact h

/-! ### The answer comes to its end -/

/-- The steps that an answer still needs at most, once the stream was flushed: a byte that is to be
read takes three of them, a byte that was read ahead takes two. -/
def Session.todo (s : Session) : ℕ :=
  let buffered := 3 * (s.kern.flat.drop s.conn.filp.fPos.toNat).length + 2 * s.conn.ahead.length
    + (if s.conn.eof then 0 else 1)
  match s.pc with
  | .reading => buffered + 6
  | .sending _ => buffered + 7
  | .closingFile => 5
  | .unlocking => 4
  | .closingClient => 3
  | .clearing => 2
  | .completing => 1
  | _ => 0

/-- What an answer leaves alone. -/
structure Session.SameInput (s s' : Session) : Prop where
  kern : s'.kern = s.kern
  delivered : s'.conn.delivered = s.conn.delivered
  seeks : s'.conn.seeks = s.conn.seeks
  handed : s'.conn.handed = s.conn.handed
  unwritten : s'.conn.unwritten = s.conn.unwritten

theorem Session.SameInput.refl (s : Session) : s.SameInput s := ⟨rfl, rfl, rfl, rfl, rfl⟩

theorem Session.SameInput.trans {s₁ s₂ s₃ : Session} (h : s₁.SameInput s₂) (h' : s₂.SameInput s₃) :
    s₁.SameInput s₃ where
  kern := h'.kern.trans h.kern
  delivered := h'.delivered.trans h.delivered
  seeks := h'.seeks.trans h.seeks
  handed := h'.handed.trans h.handed
  unwritten := h'.unwritten.trans h.unwritten

/-- A step of an answer, once the stream was flushed, changes neither the device nor what was
received, and brings the end nearer. -/
theorem Session.Answering.todo_lt {M p : ℕ} {s s' : Session} {e : Event} (h : s.Answering p)
    (hp : p < 2 ^ 63) (hinv : s.kern.Inv M) (hflat : s.kern.flat.length < 2 ^ 31)
    (hflushed : s.conn.unwritten = []) (hm : s.Moves M e s') :
    s.SameInput s' ∧ s'.todo < s.todo := by
  unfold Session.Answering at h
  cases hm with
  -- the packet is complete
  | lock hpc | fopen hpc | recv _ hpc | closed _ hpc | ioctl _ _ _ _ _ hpc | fwrite _ _ hpc =>
      simp only [hpc] at h
  | flush n env kern res hopen hpos hle =>
      rw [hflushed, List.length_nil] at hle
      omega
  | fill count r hpc _ hcount heof hread =>
      simp only [hpc] at h
      have hrep : Replying s.kern.flat (s.kern.flat.drop p) s.conn [] := by
        rcases h with hfresh | hrep
        · exact hfresh.replying hp _
        · exact hrep.2
      obtain ⟨q, hq, hfilp, -⟩ := hrep
      have hserves := hinv.read_serves hflat hq hfilp hread
      have hret : (0 : ℤ) ≤ r.retval := by rw [hserves.retval]; omega
      have hpos : (q + r.data.length : ℤ).toNat = q + r.data.length := by omega
      have hlen : r.data.length ≤ s.kern.flat.length - q := by
        rw [← List.length_drop]
        exact hserves.stream.length_le
      refine ⟨⟨rfl, rfl, rfl, rfl, rfl⟩, ?_⟩
      simp only [Session.todo, hpc, hfilp, heof, if_pos hret, hserves.fPos, hpos, Int.toNat_natCast,
        List.length_append, List.length_drop]
      rcases Nat.eq_zero_or_pos r.data.length with hzero | hdata
      · -- nothing was read: the flag is set
        rw [if_pos (by simp [hserves.retval, hzero]), if_neg (by simp)]
        omega
      · have hlt : q < s.kern.flat.length := by
          by_contra hge
          rw [hserves.atEnd (not_lt.1 hge)] at hdata
          exact absurd hdata (lt_irrefl 0)
        rw [if_neg (by rw [hserves.retval, decide_eq_true_eq]; omega), if_neg (by simp)]
        omega
  | fread hpc _ hready =>
      refine ⟨⟨rfl, rfl, rfl, rfl, rfl⟩, ?_⟩
      by_cases hnil : s.conn.ahead.take recvBufferLen = []
      · simp only [Session.todo, if_pos hnil, hpc]
        omega
      · have hlen : (s.conn.ahead.drop recvBufferLen).length + 1 ≤ s.conn.ahead.length := by
          rw [List.take_eq_nil_iff, not_or, ← ne_eq, ← ne_eq, ← List.length_pos_iff] at hnil
          have hbuffer : recvBufferLen = 512 := rfl
          rw [List.length_drop]
          omega
        simp only [Session.todo, if_neg hnil, hpc]
        omega
  | send data hpc =>
      refine ⟨⟨rfl, rfl, rfl, rfl, rfl⟩, ?_⟩
      simp only [Session.todo, hpc]
      omega
  | fclose hpc | unlock hpc | close hpc | clear hpc | complete hpc =>
      exact ⟨⟨rfl, rfl, rfl, rfl, rfl⟩, by simp [Session.todo, hpc]⟩

/-- **An answer is never stuck**: unless the handler has returned, some call can succeed. -/
theorem Session.Answering.progress {M p : ℕ} {s : Session} (h : s.Answering p) (hp : p < 2 ^ 63)
    (hinv : s.kern.Inv M) (hflat : s.kern.flat.length < 2 ^ 31) (hflushed : s.conn.unwritten = [])
    (hdone : s.pc ≠ .done) (P : List (List UInt8) → Recv → Prop) :
    ∃ e s', s.step M e = some s' ∧ s.Guard M P e := by
  obtain ⟨pc, conn, kern⟩ := s
  unfold Session.Answering at h
  cases pc with
  | locking | opening | receiving | seeking _ _ _ | writing _ _ | rewinding | crashed => cases h
  | done => exact absurd rfl hdone
  | closingFile =>
      exact ⟨.fclose, _, Session.step_of rfl (if_pos hflushed), trivial, Session.receives_other rfl⟩
  | unlocking => exact ⟨.unlock, _, rfl, trivial, Session.receives_other rfl⟩
  | closingClient => exact ⟨.close, _, rfl, trivial, Session.receives_other rfl⟩
  | clearing => exact ⟨.clear, _, rfl, trivial, Session.receives_other rfl⟩
  | completing => exact ⟨.complete, _, rfl, trivial, Session.receives_other rfl⟩
  | sending data =>
      refine ⟨.send data.length, ⟨.reading, { conn with accepted := conn.accepted ++ data }, kern⟩,
        ?_, ?_, Session.receives_other rfl⟩
      · have hlow : ¬ (data.length : ℤ) < -1 := by omega
        simp [Session.step, Pc.next, Session.effect, hlow]
      · exact rfl
  | reading =>
      have hrep : Replying kern.flat (kern.flat.drop p) conn [] := by
        rcases h with hfresh | hrep
        · exact hfresh.replying hp _
        · exact hrep.2
      by_cases hready : recvBufferLen ≤ conn.ahead.length ∨ conn.eof = true
      · -- enough was read ahead
        exact ⟨.fread (conn.ahead.take recvBufferLen), _,
          Session.step_of (if_neg (not_lt.2 (List.length_take_le _ _)))
            (if_pos ⟨hflushed, hready, rfl⟩), trivial, Session.receives_other rfl⟩
      · obtain ⟨q, hq, hfilp, -⟩ := hrep
        obtain ⟨r, hr, -⟩ := hinv.readLocked_serves hflat 0 1 hq
        have hread : aesdRead ⟨false, 0⟩ kern (some conn.filp) true 1 conn.filp.fPos = .ok r := by
          rw [hfilp]
          exact hr
        rw [not_or, Bool.not_eq_true] at hready
        have heff : Session.effect M ⟨.reading, conn, kern⟩ (.fill 1 ⟨false, 0⟩) = some ({ conn with
            ahead := conn.ahead ++ (if 0 ≤ r.retval then r.data else [])
            eof := r.retval ≤ 0
            filp := { conn.filp with fPos := r.fPos } }, kern) := by
          simp only [Session.effect, hread, hready.2, show conn.unwritten = [] from hflushed,
            one_pos, and_self, if_true]
        exact ⟨.fill 1 ⟨false, 0⟩, _, Session.step_of rfl heff, ⟨rfl, rfl⟩,
          Session.receives_other rfl⟩

/-- **An answer comes to its end** after at most `todo` steps. -/
theorem Session.Answering.reach_done {M p : ℕ} {s : Session} (h : s.Answering p) (hp : p < 2 ^ 63)
    (hinv : s.kern.Inv M) (hflat : s.kern.flat.length < 2 ^ 31) (hflushed : s.conn.unwritten = [])
    (P : List (List UInt8) → Recv → Prop) :
    ∃ s', (session M).Reach (Session.Guard M P) s s' ∧ s'.pc = .done ∧ s.SameInput s' ∧
      s'.conn.accepted = s.kern.flat.drop p := by
  have hstep : ∀ s₁ e s₂ (o : Unit), (s₁.Answering p ∧ s.SameInput s₁) → s₁.Guard M P e →
      (session M).step s₁ e = some (s₂, o) →
      (s₂.Answering p ∧ s.SameInput s₂) ∧ s₂.todo < s₁.todo := by
    intro s₁ e s₂ o ⟨hans, hsame⟩ hok hs
    have hmove := Session.guard_moves hs hok
    have hflat₁ : s₁.kern.flat.length < 2 ^ 31 := hsame.kern ▸ hflat
    have hinv₁ : s₁.kern.Inv M := hsame.kern ▸ hinv
    obtain ⟨hsame₁, hlt⟩ := hans.todo_lt hp hinv₁ hflat₁ (hsame.unwritten.trans hflushed) hmove
    exact ⟨⟨hans.step hp hinv₁ hflat₁ hmove, hsame.trans hsame₁⟩, hlt⟩
  obtain ⟨s', hreach, ⟨hans, hsame⟩, hdone⟩ := Machine.reach_final
    (I := fun s₁ => s₁.Answering p ∧ s.SameInput s₁) (fun s₁ => s₁.pc = .done)
    ⟨h, Session.SameInput.refl s⟩ hstep (by
      intro s₁ ⟨hans, hsame⟩ hdone
      obtain ⟨e, s₂, hs, hok⟩ := hans.progress hp (hsame.kern ▸ hinv) (hsame.kern ▸ hflat)
        (hsame.unwritten.trans hflushed) hdone P
      exact ⟨e, s₂, (), hok, Session.machine_step hs⟩)
  refine ⟨s', hreach, hdone, hsame, ?_⟩
  unfold Session.Answering at hans
  simp only [hdone] at hans
  rw [hans.2, hsame.kern]

end Aesd
