/-
**When the way TCP cuts the stream does not matter.**

What a handler does with a stream may depend on how `recv` cuts it: the keyword is looked for at the
start of each chunk only, and of the chunk with the first newline everything is written, the bytes
after the newline too.  It does not depend on the cut exactly if the stream has no newline before
its last byte and the keyword nowhere in it.

* `Session.Cut.ended`, `independent_of_line` — such a stream has one outcome;
* `reach_newline`, `reach_closed`, `reach_keyword` — the runs on chunks of three kinds;
* `independent_iff` — **the outcome depends on the cut unless the stream is such a stream**.
-/

import Aesd.DataConnection

set_option relaxedAutoImplicit false
set_option autoImplicit false

namespace Aesd

open TermLog

/-! ### Two ways to cut a stream -/

/-- The stream is cut into the chunks `cs`, each of which fits into the receive buffer. -/
def Segmentation (stream : List UInt8) (cs : List (List UInt8)) : Prop :=
  cs.flatten = stream ∧ ∀ c ∈ cs, c ≠ [] ∧ c.length ≤ recvBufferLen

/-- `recv` delivers the chunks `cs` and then the end of the stream. -/
def inChunks (cs delivered : List (List UInt8)) : Recv → Prop
  | .chunk bytes => delivered ++ [bytes] <+: cs
  | .closed => delivered = cs
  | .failed => False

/-- What a connection leaves behind: the seek requests, what the device has stored and what is
pending there, and the reply. -/
structure Outcome where
  seeks : List AesdSeekto
  log : TermLog UInt8
  reply : List UInt8
  deriving DecidableEq

def Session.outcome (s : Session) : Outcome := ⟨s.conn.seeks, s.kern.log, s.conn.accepted⟩

/-- The handler has returned, or ended with a fault. -/
def Session.Ended (s : Session) : Prop := s.pc = .done ∨ s.pc = .crashed

/-- **Any two ways to cut the stream have the same outcome**, whenever no call fails. -/
def Independent (M : ℕ) (k : Kernel) (stream : List UInt8) : Prop :=
  ∀ cs cs', Segmentation stream cs → Segmentation stream cs' →
    ∀ s s', (session M).Reach (Session.Guard M (inChunks cs)) (Session.init k) s →
      (session M).Reach (Session.Guard M (inChunks cs')) (Session.init k) s' →
      s.Ended → s'.Ended → s.outcome = s'.outcome

/-! ### Streams that may be cut anywhere -/

/-- A chunk does not start with the keyword if the stream does not contain it. -/
theorem Segmentation.startsWithKeyword {stream : List UInt8} {cs : List (List UInt8)}
    (h : Segmentation stream cs) (hkey : ¬ aesdSeektoKeyword <:+: stream) {c : List UInt8}
    (hc : c ∈ cs) : startsWithKeyword c = false := by
  rw [← Bool.not_eq_true, startsWithKeyword_iff]
  intro hpre
  obtain ⟨as, bs, rfl⟩ := List.append_of_mem hc
  refine hkey (hpre.isInfix.trans ?_)
  rw [← h.1]
  exact ⟨as.flatten, bs.flatten, by simp⟩

theorem Conn.payload_of_data {c : Conn} (h : ∀ d ∈ c.delivered, startsWithKeyword d = false) :
    c.payload = c.delivered.flatten := by
  rw [Conn.payload, List.filter_eq_self.2 fun d hd => by simp [h d hd]]

/-- Only `recv` changes what was received. -/
theorem Session.Moves.delivered {M : ℕ} {s s' : Session} {e : Event} (hm : s.Moves M e s') :
    s'.conn.delivered = s.conn.delivered ∨
      ∃ bytes, e = .recv (.chunk bytes) ∧ s'.conn.delivered = s.conn.delivered ++ [bytes] := by
  cases hm with
  | recv bytes => exact Or.inr ⟨bytes, rfl, rfl⟩
  | _ => exact Or.inl rfl

/-- A connection that sends data only makes no request. -/
theorem Session.Plain.seeks_eq {M : ℕ} {P : List (List UInt8) → Recv → Prop} {s s' : Session}
    {e : Event} (h : s.Plain P) (hm : s.Moves M e s') : s'.conn.seeks = s.conn.seeks := by
  cases hm with
  | ioctl seek buffer n filp res hpc =>
      have hhere := h.here
      simp only [hpc] at hhere
  | _ => rfl

/-- What holds along the runs on a stream that may be cut anywhere. -/
structure Session.Cut (M : ℕ) (k : Kernel) (cs : List (List UInt8)) (s : Session) : Prop where
  sound : s.Sound M k.log
  plain : s.Plain (inChunks cs)
  delivered : s.conn.delivered <+: cs
  seeks : s.conn.seeks = []

theorem Session.Cut.of_reach {M : ℕ} {k : Kernel} {stream : List UInt8} {cs : List (List UInt8)}
    {s : Session} (hinv : k.Inv M) (hint : k.Intact) (hM : 10 * M < 2 ^ 31)
    (hcs : Segmentation stream cs) (hkey : ¬ aesdSeektoKeyword <:+: stream)
    (h : (session M).Reach (Session.Guard M (inChunks cs)) (Session.init k) s) :
    s.Cut M k cs := by
  refine h.invariant ⟨.init hinv hint, .starting (Or.inl rfl) rfl, List.nil_prefix, rfl⟩ ?_
  intro s e s' o ⟨hsound, hplain, hdelivered, hseeks⟩ hok hstep
  have hm := Session.guard_moves hstep hok
  have hdelivered' : s'.conn.delivered <+: cs := by
    rcases hm.delivered with heq | ⟨bytes, rfl, heq⟩
    · rwa [heq]
    · rw [heq]
      exact hok.2 _ rfl
  refine ⟨hsound.step hm, hplain.step hM hsound ?_ hok.2 hm, hdelivered',
    (hplain.seeks_eq hm).trans hseeks⟩
  rintro bytes rfl
  have hmem : bytes ∈ cs := (hok.2 _ rfl).subset (by simp)
  exact hcs.startsWithKeyword hkey hmem

/-- **The outcome of a run on such a stream**: the whole stream was handed to the device, and if it
has a newline, what is then stored was sent. -/
theorem Session.Cut.ended {M : ℕ} {k : Kernel} {stream : List UInt8} {cs : List (List UInt8)}
    {s : Session} (h : s.Cut M k cs) (hcs : Segmentation stream cs)
    (hkey : ¬ aesdSeektoKeyword <:+: stream) (hnl : newline ∉ stream.dropLast) (hend : s.Ended) :
    s.conn.handed.flatten = stream ∧
      s.conn.accepted = if newline ∈ stream then s.kern.flat else [] := by
  have hdone : s.pc = .done := hend.resolve_right h.plain.not_crashed
  obtain ⟨hhanded, hreply⟩ := h.plain.finished h.sound (by rw [hdone]; rfl)
    (by rw [hdone]; exact nofun)
  have hpayload : s.conn.payload = s.conn.delivered.flatten :=
    Conn.payload_of_data fun d hd => hcs.startsWithKeyword hkey (h.delivered.subset hd)
  rcases hreply with ⟨hmem, hacc⟩ | ⟨hmem, hacc, res, hres, hclosed⟩
  · -- the newline is the last byte of the stream, so all of it was received
    obtain ⟨rest, hrest⟩ := h.delivered
    have hsplit : s.conn.payload ++ rest.flatten = stream := by
      rw [hpayload, ← List.flatten_append, hrest, hcs.1]
    have hnil : rest.flatten = [] := by
      by_contra hne
      refine hnl ?_
      rw [← hsplit, List.dropLast_append_of_ne_nil hne]
      exact List.mem_append_left _ hmem
    rw [hnil, List.append_nil] at hsplit
    rw [hhanded, hsplit, if_pos (hsplit ▸ hmem)]
    exact ⟨rfl, hacc⟩
  · -- the stream has come to its end
    have hdelivered : s.conn.delivered = cs := by
      cases res with
      | chunk bytes => exact absurd rfl (hres bytes)
      | closed => exact hclosed
      | failed => exact hclosed.elim
    have hall : s.conn.payload = stream := by rw [hpayload, hdelivered, hcs.1]
    rw [hhanded, hall, if_neg (hall ▸ hmem)]
    exact ⟨rfl, hacc⟩

/-- **A stream with no newline before its last byte and without the keyword may be cut anywhere.**
-/
theorem independent_of_line {M : ℕ} {k : Kernel} {stream : List UInt8} (hinv : k.Inv M)
    (hint : k.Intact) (hM : 10 * M < 2 ^ 31) (hnl : newline ∉ stream.dropLast)
    (hkey : ¬ aesdSeektoKeyword <:+: stream) : Independent M k stream := by
  intro cs cs' hcs hcs' s s' hs hs' hend hend'
  have hcut := Session.Cut.of_reach hinv hint hM hcs hkey hs
  have hcut' := Session.Cut.of_reach hinv hint hM hcs' hkey hs'
  obtain ⟨hhanded, hreply⟩ := hcut.ended hcs hkey hnl hend
  obtain ⟨hhanded', hreply'⟩ := hcut'.ended hcs' hkey hnl hend'
  have hlog : s.kern.log = s'.kern.log := by
    rw [hcut.sound.log, hcut'.sound.log]
    refine feeds_congr hcut.sound.pieces hcut'.sound.pieces (hhanded.trans hhanded'.symm) ?_ _
    rwa [hhanded]
  have hflat : s.kern.flat = s'.kern.flat :=
    congrArg (fun log : TermLog UInt8 => log.entries.flatten) hlog
  unfold Session.outcome
  rw [hcut.seeks, hcut'.seeks, hlog, hreply, hreply', hflat]

/-! ### Runs on given chunks -/

/-- A chunk that is collected: it is neither a seek command nor the end of the packet. -/
def Plainly (d : List UInt8) : Prop :=
  0 < d.length ∧ d.length ≤ recvBufferLen ∧ startsWithKeyword d = false ∧ newline ∉ d

/-- The connection after the chunks `ds` were received and written to the stream. -/
def Conn.got (c : Conn) (ds : List (List UInt8)) : Conn :=
  { c with delivered := c.delivered ++ ds, unwritten := c.unwritten ++ ds.flatten }

section Runs

variable {M : ℕ} {k : Kernel} {cs : List (List UInt8)}

/-- The connection with the file open and nothing received. -/
def Conn.opened : Conn := { Conn.init with filp := ⟨true, 0⟩ }

theorem reach_receiving : (session M).Reach (Session.Guard M (inChunks cs)) (Session.init k)
    ⟨.receiving, .opened, k⟩ := by
  have hlock : (Session.init k).step M (.lock 0) = some ⟨.opening, .init, k⟩ := rfl
  have hopen : Session.step M ⟨.opening, .init, k⟩ (.fopen true)
      = some ⟨.receiving, .opened, k⟩ := rfl
  exact (Session.reach_step hlock ⟨rfl, Session.receives_other rfl⟩).trans
    (Session.reach_step hopen ⟨rfl, Session.receives_other rfl⟩)

variable (cs) in
/-- One chunk of data is received and written to the stream. -/
theorem reach_chunk {c : Conn} {d : List UInt8} (hpos : 0 < d.length)
    (hlen : d.length ≤ recvBufferLen) (hkey : startsWithKeyword d = false)
    (hcs : c.delivered ++ [d] <+: cs) :
    (session M).Reach (Session.Guard M (inChunks cs)) ⟨.receiving, c, k⟩
      ⟨if newline ∈ d then .reading else .receiving, c.got [d], k⟩ := by
  have hafter : afterRecv true d = .writing (recvBuffer d) d.length := by
    rw [afterRecv, if_neg (by simp [hkey])]
  have hrecv : Session.step M ⟨.receiving, c, k⟩ (.recv (.chunk d))
      = some ⟨.writing (recvBuffer d) d.length, { c with delivered := c.delivered ++ [d] }, k⟩ := by
    rw [← hafter]
    exact Session.step_of (if_pos ⟨hpos, hlen⟩) rfl
  have hwrite : Session.step M ⟨.writing (recvBuffer d) d.length,
      { c with delivered := c.delivered ++ [d] }, k⟩ .fwrite
      = some ⟨if newline ∈ d then .reading else .receiving, c.got [d], k⟩ := by
    refine Session.step_of (congrArg some ?_) (congrArg some ?_)
    · exact afterChunk_recvBuffer true d
    · simp [Conn.got, take_recvBuffer]
  refine (Session.reach_step hrecv ⟨trivial, fun res heq => ?_⟩).trans
    (Session.reach_step hwrite ⟨trivial, Session.receives_other rfl⟩)
  rw [← Event.recv.inj heq]
  exact hcs

theorem Conn.got_got (c : Conn) (ds es : List (List UInt8)) :
    (c.got ds).got es = c.got (ds ++ es) := by
  simp [Conn.got]

variable (cs) in
/-- Chunks that are collected, one after the other. -/
theorem reach_chunks {ds : List (List UInt8)} (hds : ∀ d ∈ ds, Plainly d) {c : Conn}
    (hcs : c.delivered ++ ds <+: cs) :
    (session M).Reach (Session.Guard M (inChunks cs)) ⟨.receiving, c, k⟩
      ⟨.receiving, c.got ds, k⟩ := by
  induction ds generalizing c with
  | nil =>
      have hgot : c.got [] = c := by simp [Conn.got]
      rw [hgot]
      exact .refl
  | cons d ds ih =>
      obtain ⟨hpos, hlen, hkey, hnl⟩ := hds d (by simp)
      have hfirst : c.delivered ++ [d] <+: cs :=
        List.IsPrefix.trans ⟨ds, by simp⟩ hcs
      have hstep := reach_chunk (M := M) (k := k) cs hpos hlen hkey hfirst
      rw [if_neg hnl] at hstep
      have hrest := ih (fun x hx => hds x (List.mem_cons_of_mem _ hx)) (c := c.got [d])
        (by simpa [Conn.got] using hcs)
      rw [Conn.got_got] at hrest
      exact hstep.trans hrest

/-- Everything that was written to the stream can be handed over at once, if the allocator has room
for it. -/
theorem Session.flush_possible {pc : Pc} {c : Conn} (hpc : pc.fileOpen = true)
    (hfilp : c.filp.privateData = true) (hinv : k.Inv M) (hint : k.Intact) (hM : 10 * M < 2 ^ 31)
    (hne : c.unwritten ≠ []) (hroom : k.dev.bufEntry.size + c.unwritten.length ≤ M) :
    ∃ (env : WriteEnv) (k' : Kernel), k'.Inv M ∧ k'.log = feed 10 newline k.log c.unwritten ∧
      Session.step M ⟨pc, c, k⟩ (.flush c.unwritten.length env)
        = some ⟨pc, { c with unwritten := [], handed := c.handed ++ [c.unwritten] }, k'⟩ ∧
      Session.Succeeds M ⟨pc, c, k⟩ (.flush c.unwritten.length env) := by
  -- the allocator proposes a fresh address
  set env : WriteEnv := ⟨false, ⟨some k.heap.top, fun _ => 0⟩, 0⟩ with henv
  have hpos := List.length_pos_iff.2 hne
  have hsize : k.newEntrySize c.unwritten = k.dev.bufEntry.size + c.unwritten.length :=
    newEntrySize_of_lt (by omega)
  have hgranted : k.WriteGranted M env c.unwritten := by
    refine Or.inr ⟨k.heap.top, rfl, by omega, ?_⟩
    cases hblock : (k.heap.release k.dev.bufEntry.buffptr).block k.heap.top with
    | none => rfl
    | some bs =>
        have hold := (Heap.release_block_eq_some hblock).1
        rw [Heap.exists_fresh] at hold
        cases hold
  have hcopy : uncopied env.left c.unwritten.length = 0 := by
    rw [uncopied, if_neg (by rw [INT_MAX]; omega)]
    exact Nat.zero_min _
  obtain ⟨k', r, hw⟩ := hinv.writeLocked_ok env c.unwritten (by omega) (by omega)
  obtain ⟨-, hinv', -, hlog⟩ := hinv.writeLocked_log hint hgranted hcopy hw
  have hwrite : aesdWrite M env k (some c.filp) (some c.unwritten) = .ok (k', r) :=
    (aesdWrite_open k c.unwritten hfilp rfl).trans hw
  have htake : c.unwritten.take c.unwritten.length = c.unwritten := List.take_length
  have heff : Session.effect M ⟨pc, c, k⟩ (.flush c.unwritten.length env)
      = some ({ c with unwritten := [], handed := c.handed ++ [c.unwritten] }, k') := by
    simp only [Session.effect, htake, hwrite, hpos, le_refl, and_self, if_true, List.drop_length]
  refine ⟨env, k', hinv', hlog, Session.step_of (Pc.next_flush hpc _ _) heff, rfl, ?_, ?_⟩
  · rwa [htake]
  · rwa [htake]

variable (cs) in
/-- Everything that was written to the stream is handed over at once. -/
theorem reach_flushed (pc : Pc) {c : Conn} (hpc : pc.fileOpen = true)
    (hfilp : c.filp.privateData = true) (hinv : k.Inv M) (hint : k.Intact) (hM : 10 * M < 2 ^ 31)
    (hne : c.unwritten ≠ []) (hroom : k.dev.bufEntry.size + c.unwritten.length ≤ M) :
    ∃ k' : Kernel, k'.Inv M ∧ k'.log = feed 10 newline k.log c.unwritten ∧
      (session M).Reach (Session.Guard M (inChunks cs)) ⟨pc, c, k⟩
        ⟨pc, { c with unwritten := [], handed := c.handed ++ [c.unwritten] }, k'⟩ := by
  obtain ⟨env, k', hinv', hlog, hstep, hok⟩ :=
    Session.flush_possible hpc hfilp hinv hint hM hne hroom
  exact ⟨k', hinv', hlog, Session.reach_step hstep ⟨hok, Session.receives_other rfl⟩⟩

/-- **The run on chunks of which the last one received has a newline.** -/
theorem reach_newline {us : List (List UInt8)} (rest : List (List UInt8)) {d : List UInt8}
    (hinv : k.Inv M)
    (hint : k.Intact) (hM : 10 * M < 2 ^ 31) (hcs : cs = us ++ d :: rest)
    (hus : ∀ u ∈ us, Plainly u) (hlen : d.length ≤ recvBufferLen)
    (hkey : startsWithKeyword d = false) (hnl : newline ∈ d)
    (hroom : k.dev.bufEntry.size + (us.flatten ++ d).length ≤ M) :
    ∃ s, (session M).Reach (Session.Guard M (inChunks cs)) (Session.init k) s ∧ s.Ended ∧
      s.outcome = ⟨[], feed 10 newline k.log (us.flatten ++ d),
        (feed 10 newline k.log (us.flatten ++ d)).entries.flatten⟩ := by
  have hpos : 0 < d.length := List.length_pos_of_mem hnl
  have hcollect := reach_chunks (M := M) (k := k) cs hus (c := .opened)
    ⟨d :: rest, by rw [hcs]; rfl⟩
  have hlast := reach_chunk (M := M) (k := k) cs (c := Conn.opened.got us) hpos hlen hkey
    ⟨rest, by simp [hcs, Conn.got, Conn.opened, Conn.init]⟩
  rw [if_pos hnl, Conn.got_got] at hlast
  have hunwritten : (Conn.opened.got (us ++ [d])).unwritten = us.flatten ++ d := by
    simp [Conn.got, Conn.opened, Conn.init]
  obtain ⟨k', hinv', hlog, hflush⟩ := reach_flushed (k := k) cs .reading
    (c := Conn.opened.got (us ++ [d])) rfl rfl hinv hint hM (by rw [hunwritten]; simp; grind)
    (by rwa [hunwritten])
  rw [hunwritten] at hlog
  -- nothing was read before
  have hans : Session.Answering 0 ⟨.reading, { Conn.opened.got (us ++ [d]) with
      unwritten := [], handed := [(Conn.opened.got (us ++ [d])).unwritten] }, k'⟩ :=
    Or.inl ⟨rfl, rfl, rfl, rfl⟩
  obtain ⟨s, hreply, hdone, hsame, hacc⟩ := hans.reach_done (by decide) hinv'
    (hinv'.flat_le.trans_lt hM) rfl (inChunks cs)
  refine ⟨s, (((reach_receiving.trans hcollect).trans hlast).trans hflush).trans hreply,
    Or.inl hdone, ?_⟩
  have hseeks : s.conn.seeks = [] := hsame.seeks
  have hkern : s.kern = k' := hsame.kern
  unfold Session.outcome
  rw [hseeks, hkern, hacc, ← hlog]
  rfl

variable (cs) in
/-- A handler that has left its loop without an answer, and flushed its stream, returns. -/
theorem reach_left {c : Conn} (hflushed : c.unwritten = []) :
    ∃ s, (session M).Reach (Session.Guard M (inChunks cs)) ⟨.closingFile, c, k⟩ s ∧
      s.pc = .done ∧ s.kern = k ∧ s.conn.seeks = c.seeks ∧ s.conn.accepted = c.accepted := by
  have hclose : Session.step M ⟨.closingFile, c, k⟩ .fclose
      = some ⟨.unlocking, { c with filp := (aesdRelease c.filp).1 }, k⟩ :=
    Session.step_of rfl (if_pos hflushed)
  -- from here on nothing can go wrong
  have hrest : ∀ c' : Conn, (session M).Reach (Session.Guard M (inChunks cs))
      ⟨.unlocking, c', k⟩ ⟨.done, c', k⟩ := by
    intro c'
    have h₁ := Session.reach_step (P := inChunks cs) (s := ⟨.unlocking, c', k⟩) (e := .unlock)
      (M := M) rfl ⟨trivial, Session.receives_other rfl⟩
    have h₂ := Session.reach_step (P := inChunks cs) (s := ⟨.closingClient, c', k⟩) (e := .close)
      (M := M) rfl ⟨trivial, Session.receives_other rfl⟩
    have h₃ := Session.reach_step (P := inChunks cs) (s := ⟨.clearing, c', k⟩) (e := .clear)
      (M := M) rfl ⟨trivial, Session.receives_other rfl⟩
    have h₄ := Session.reach_step (P := inChunks cs) (s := ⟨.completing, c', k⟩) (e := .complete)
      (M := M) rfl ⟨trivial, Session.receives_other rfl⟩
    exact ((h₁.trans h₂).trans h₃).trans h₄
  have hfirst := Session.reach_step (P := inChunks cs) hclose ⟨trivial, Session.receives_other rfl⟩
  exact ⟨_, hfirst.trans (hrest _), rfl, rfl, rfl, rfl⟩

/-- **The run on chunks without a newline**, up to the end of the stream. -/
theorem reach_closed (hinv : k.Inv M) (hint : k.Intact) (hM : 10 * M < 2 ^ 31)
    (hcs : ∀ c ∈ cs, Plainly c) (hne : cs.flatten ≠ [])
    (hroom : k.dev.bufEntry.size + cs.flatten.length ≤ M) :
    ∃ s, (session M).Reach (Session.Guard M (inChunks cs)) (Session.init k) s ∧ s.Ended ∧
      s.outcome = ⟨[], feed 10 newline k.log cs.flatten, []⟩ := by
  have hcollect := reach_chunks (M := M) (k := k) cs hcs (c := .opened)
    (List.prefix_refl cs)
  have hend : Session.step M ⟨.receiving, Conn.opened.got cs, k⟩ (.recv .closed)
      = some ⟨.closingFile, Conn.opened.got cs, k⟩ := rfl
  have hclosed := hcollect.trans (Session.reach_step hend
    ⟨trivial, fun res heq => by rw [← Event.recv.inj heq]; rfl⟩)
  obtain ⟨k', -, hlog, hflush⟩ := reach_flushed (k := k) cs .closingFile
    (c := Conn.opened.got cs) rfl rfl hinv hint hM hne hroom
  obtain ⟨s, hleft, hdone, hkern, hseeks, hacc⟩ := reach_left (M := M) (k := k') cs
    (c := { Conn.opened.got cs with
      unwritten := [], handed := [(Conn.opened.got cs).unwritten] }) rfl
  refine ⟨s, ((reach_receiving.trans hclosed).trans hflush).trans hleft, Or.inl hdone, ?_⟩
  unfold Session.outcome
  rw [hseeks, hkern, hacc, hlog]
  rfl

/-- **The run on chunks of which one is the bare keyword** ends with a fault. -/
theorem reach_keyword {us : List (List UInt8)} (rest : List (List UInt8))
    (hcs : cs = us ++ aesdSeektoKeyword :: rest) (hus : ∀ u ∈ us, Plainly u) :
    ∃ s, (session M).Reach (Session.Guard M (inChunks cs)) (Session.init k) s ∧ s.Ended ∧
      s.outcome = ⟨[], k.log, []⟩ := by
  have hcollect := reach_chunks (M := M) (k := k) cs hus (c := .opened)
    ⟨aesdSeektoKeyword :: rest, by rw [hcs]; rfl⟩
  -- there is no second token
  have hparse : parseSeekto (recvBuffer aesdSeektoKeyword) = none := by decide +kernel
  have hkey : startsWithKeyword aesdSeektoKeyword = true :=
    startsWithKeyword_iff.2 (List.prefix_refl _)
  have hafter : afterRecv true aesdSeektoKeyword = .crashed := by
    rw [afterRecv, if_pos ⟨rfl, hkey⟩, hparse]
  have hnext : Pc.next true .receiving (.recv (.chunk aesdSeektoKeyword)) = some .crashed := by
    simp only [Pc.next]
    rw [if_pos (by decide), hafter]
  have hcrash : Session.step M ⟨.receiving, Conn.opened.got us, k⟩
      (.recv (.chunk aesdSeektoKeyword)) = some ⟨.crashed, { Conn.opened.got us with
        delivered := (Conn.opened.got us).delivered ++ [aesdSeektoKeyword] }, k⟩ :=
    Session.step_of hnext rfl
  refine ⟨_, (reach_receiving.trans hcollect).trans (Session.reach_step hcrash
    ⟨trivial, fun res heq => ?_⟩), Or.inr rfl, rfl⟩
  rw [← Event.recv.inj heq]
  exact ⟨rest, by simp [hcs, Conn.got, Conn.opened, Conn.init]⟩

end Runs

/-! ### Streams that may not be cut anywhere -/

/-- Byte by byte. -/
def bytewise (u : List UInt8) : List (List UInt8) := u.map fun b => [b]

@[simp] theorem bytewise_flatten (u : List UInt8) : (bytewise u).flatten = u := by
  induction u with
  | nil => rfl
  | cons b u ih => simpa [bytewise] using ih

theorem startsWithKeyword_of_lt {d : List UInt8} (h : d.length < 18) :
    startsWithKeyword d = false := by
  rw [← Bool.not_eq_true, startsWithKeyword_iff]
  intro hpre
  exact absurd (hpre.length_le) (not_le.2 h)

theorem length_byte_le (b : UInt8) : [b].length ≤ recvBufferLen := (by decide : 1 ≤ 512)

theorem mem_bytewise {u d : List UInt8} (h : d ∈ bytewise u) : ∃ b ∈ u, d = [b] := by
  obtain ⟨b, hb, rfl⟩ := List.mem_map.1 h
  exact ⟨b, hb, rfl⟩

theorem plainly_bytewise {u : List UInt8} (hnl : newline ∉ u) : ∀ d ∈ bytewise u, Plainly d := by
  intro d hd
  obtain ⟨b, hb, rfl⟩ := mem_bytewise hd
  refine ⟨one_pos, length_byte_le b, startsWithKeyword_of_lt (by simp), fun hmem => hnl ?_⟩
  rwa [List.mem_singleton.1 hmem]

/-- Byte by byte, except for one chunk. -/
theorem segmentation_bytewise (u : List UInt8) {d : List UInt8} (w : List UInt8) (hd : d ≠ [])
    (hlen : d.length ≤ recvBufferLen) :
    Segmentation (u ++ d ++ w) (bytewise u ++ d :: bytewise w) := by
  refine ⟨by simp, ?_⟩
  intro c hc
  have hbyte : ∀ v, c ∈ bytewise v → c ≠ [] ∧ c.length ≤ recvBufferLen := by
    intro v hv
    obtain ⟨b, -, rfl⟩ := mem_bytewise hv
    exact ⟨by simp, length_byte_le b⟩
  rcases List.mem_append.1 hc with hc | hc
  · exact hbyte u hc
  · rcases List.mem_cons.1 hc with rfl | hc
    · exact ⟨hd, hlen⟩
    · exact hbyte w hc

section Cuts

variable {M : ℕ} {k : Kernel} {stream : List UInt8}

/-- **Bytes behind a newline** are written or left unread, as the stream is cut. -/
theorem not_independent_of_newline (hinv : k.Inv M) (hint : k.Intact) (hM : 10 * M < 2 ^ 31)
    (hroom : k.dev.bufEntry.size + stream.length ≤ M) (hnl : newline ∈ stream.dropLast) :
    ¬ Independent M k stream := by
  intro hind
  obtain ⟨u, v, rfl, hu⟩ := List.eq_append_cons_of_mem (List.mem_of_mem_dropLast hnl)
  obtain ⟨b, w, rfl⟩ : ∃ b w, v = b :: w := by
    refine List.exists_cons_of_ne_nil fun hv => hu ?_
    rwa [hv, List.dropLast_concat] at hnl
  have hplain := plainly_bytewise hu
  -- a cut behind the newline, and one behind the next byte
  have hcs := segmentation_bytewise u (d := [newline]) (b :: w) (by simp) (length_byte_le _)
  have hcs' := segmentation_bytewise u (d := [newline, b]) w (by simp)
    (show 2 ≤ recvBufferLen by decide)
  rw [List.append_assoc] at hcs hcs'
  simp only [List.length_append, List.length_cons] at hroom
  obtain ⟨s, hs, hend, hout⟩ := reach_newline (bytewise (b :: w)) hinv hint hM rfl
    hplain (length_byte_le newline) (startsWithKeyword_of_lt (by decide))
    (List.mem_singleton_self _) (by simp; omega)
  obtain ⟨s', hs', hend', hout'⟩ := reach_newline (bytewise w) hinv hint hM rfl hplain
    (show [newline, b].length ≤ recvBufferLen from hcs'.2 _ (by simp) |>.2)
    (startsWithKeyword_of_lt (by simp)) (List.mem_cons_self ..)
    (by simp; omega)
  have heq := hind _ _ hcs hcs' s s' hs hs' hend hend'
  rw [hout, hout', bytewise_flatten] at heq
  exact feed_terminator_ne (by decide) newline k.log u b (Outcome.mk.inj heq).2.1

/-- **A keyword** is data or a seek command, as the stream is cut. -/
theorem not_independent_of_keyword (hinv : k.Inv M) (hint : k.Intact) (hM : 10 * M < 2 ^ 31)
    (hroom : k.dev.bufEntry.size + stream.length ≤ M) (hnl : newline ∉ stream.dropLast)
    (hkey : aesdSeektoKeyword <:+: stream) : ¬ Independent M k stream := by
  intro hind
  obtain ⟨a, b, hab⟩ := hkey
  have hkw : aesdSeektoKeyword ≠ [] := by decide
  have ha : newline ∉ a := by
    intro hmem
    refine hnl ?_
    rw [← hab, List.append_assoc, List.dropLast_append_of_ne_nil (by simp [hkw])]
    exact List.mem_append_left _ hmem
  -- cut out as a chunk, the keyword ends the handler
  have hcs := segmentation_bytewise a b hkw (by decide)
  rw [hab] at hcs
  obtain ⟨s, hs, hend, hout⟩ := reach_keyword (M := M) (k := k) (bytewise b) rfl
    (plainly_bytewise ha)
  have hne : stream ≠ [] := by
    rw [← hab]
    simp [hkw]
  obtain ⟨u, c, rfl⟩ : ∃ u c, stream = u ++ [c] :=
    ⟨stream.dropLast, stream.getLast hne, (List.dropLast_append_getLast hne).symm⟩
  rw [List.dropLast_concat] at hnl
  have hcs' := segmentation_bytewise u (d := [c]) [] (by simp) (length_byte_le c)
  rw [List.append_nil] at hcs'
  by_cases hc : c = newline
  · -- byte by byte it is part of a line, and there is a reply
    subst hc
    obtain ⟨s', hs', hend', hout'⟩ := reach_newline (bytewise []) hinv hint hM rfl
      (plainly_bytewise hnl) (length_byte_le newline) (startsWithKeyword_of_lt (by decide))
      (List.mem_singleton_self _) (by simpa using hroom)
    have heq := hind _ _ hcs hcs' s s' hs hs' hend hend'
    rw [hout, hout', bytewise_flatten] at heq
    obtain ⟨K, hK⟩ := feed_concat_entries (n := 10) (by decide) newline k.log u
    have hreply := (Outcome.mk.inj heq).2.2
    rw [hK] at hreply
    simp at hreply
  · -- or of what is pending
    have hall : newline ∉ u ++ [c] := by
      rw [List.mem_append, not_or, List.mem_singleton]
      exact ⟨hnl, Ne.symm hc⟩
    have hsplit : bytewise u ++ [c] :: bytewise [] = bytewise (u ++ [c]) := by simp [bytewise]
    rw [hsplit] at hcs'
    obtain ⟨s', hs', hend', hout'⟩ := reach_closed hinv hint hM (plainly_bytewise hall)
      (by rw [bytewise_flatten]; exact hne) (by rwa [bytewise_flatten])
    have heq := hind _ _ hcs hcs' s s' hs hs' hend hend'
    rw [hout, hout', bytewise_flatten, feed_of_notMem hne hall] at heq
    have hpending := congrArg TermLog.pending (Outcome.mk.inj heq).2.1
    simp at hpending

end Cuts

/-- A line and the first byte of the next one, in one chunk or in two. -/
theorem cut_behind_newline_matters : ¬ Independent 64 Sys.init.kern [97, 10, 98] :=
  not_independent_of_newline (Kernel.Inv.init 64) Kernel.Intact.init (by decide) (by decide)
    (by decide)

/-- **What the server does with a stream does not depend on how it is cut** if the stream has no
newline before its last byte and the keyword nowhere in it; and, where the allocator has room for
the stream, only then.  The pending bytes of the device are those that were written: no reallocation
has failed before. -/
theorem independent_iff {M : ℕ} {sys : Sys} (hs : Reachable M sys) (hint : sys.kern.Intact)
    (hM : 10 * M < 2 ^ 31) (stream : List UInt8) :
    (newline ∉ stream.dropLast ∧ ¬ aesdSeektoKeyword <:+: stream →
      Independent M sys.kern stream) ∧
    (sys.kern.dev.bufEntry.size + stream.length ≤ M → Independent M sys.kern stream →
      newline ∉ stream.dropLast ∧ ¬ aesdSeektoKeyword <:+: stream) := by
  have hinv := hs.inv
  constructor
  · rintro ⟨hnl, hkey⟩
    exact independent_of_line hinv hint hM hnl hkey
  · intro hroom hind
    have hnl : newline ∉ stream.dropLast := fun hnl =>
      not_independent_of_newline hinv hint hM hroom hnl hind
    exact ⟨hnl, fun hkey => not_independent_of_keyword hinv hint hM hroom hnl hkey hind⟩

/-- A line may be cut anywhere. -/
theorem independent_iff_line : Independent 64 Sys.init.kern [97, 98, 10] :=
  (independent_iff .refl Kernel.Intact.init (by decide) [97, 98, 10]).1 (by decide)

end Aesd
