/-
**The connection handler: `connection_handler` of `server/aesdsocket.c`, call by call.**

A handler thread does its work in calls to the C library and the kernel, and what it does next
depends on their results only.  So it is an automaton here: a control point is a place of the source
at which the thread is about to make a call, with the local variables that are still needed, and an
event is that call with its result.  `Pc.next` follows the source from one call to the next, through
both of its loops and all of its `goto`s.  The build is a parameter: the seek command exists in the
char-device build only, and the data file is rewound before it is read in the other one only.

Two events belong to stdio: `flush` is a `write` that hands over bytes written before, `fill` is a
`read` ahead.  They leave the control point where it is.

What the calls do to the device is in `Session`, what they do to the mutex in `FileMutex`.

* `parseSeekto` — the tokenisation of a seek command; `parseSeekto_packet` is its result on a
  well-formed one;
* `Pc`, `Event`, `Pc.next` — the automaton; `Pc.next_moves` is everything a call can do to it.
-/

import Aesd.CharDevice
import Aesd.CString

set_option relaxedAutoImplicit false
set_option autoImplicit false

namespace Aesd

open CString

/-! ### The receive buffer -/

/-- `RECV_BUFFER_LEN`. -/
abbrev recvBufferLen : ℕ := 512

/-- `AESD_SEEKTO_KEYWORD`, the bytes of `"AESDCHAR_IOCSEEKTO"`. -/
def aesdSeektoKeyword : List UInt8 :=
  [65, 69, 83, 68, 67, 72, 65, 82, 95, 73, 79, 67, 83, 69, 69, 75, 84, 79]

example : aesdSeektoKeyword = "AESDCHAR_IOCSEEKTO".toList.map fun c => c.toNat.toUInt8 := by decide

/-- `delimiter`, the bytes of `":,"`. -/
def delimiter : List UInt8 := [58, 44]

/-- `recv_buffer` after a call that received `bytes`: it was zero before. -/
def recvBuffer (bytes : List UInt8) : List UInt8 :=
  bytes ++ List.replicate (recvBufferLen - bytes.length) 0

/-- `res >= AESD_SEEKTO_KEYWORD_LEN && strncmp(recv_buffer, AESD_SEEKTO_KEYWORD, ..) == 0`. -/
def startsWithKeyword (bytes : List UInt8) : Bool :=
  aesdSeektoKeyword.length ≤ bytes.length ∧
    strncmpEq aesdSeektoKeyword.length (recvBuffer bytes) aesdSeektoKeyword = true

/-- The tokens of a seek command: the seek request, and the buffer as `strtok_r` leaves it.  There
is none where the code has no behaviour: a token is missing and `atoi` is called on `NULL`, or a
walk leaves the buffer. -/
def parseSeekto (buffer : List UInt8) : Option (AesdSeekto × List UInt8) := do
  let (_, buffer, save) ← strtokR delimiter buffer 0
  let (token, buffer, save) ← strtokR delimiter buffer save
  let cmdOffset ← token.bind fun i => atoi (buffer.drop i)
  let (token, buffer, _) ← strtokR delimiter buffer save
  let cmdCharOffset ← token.bind fun i => atoi (buffer.drop i)
  some (⟨UInt32.ofNat (CInt.unsigned 32 cmdOffset), UInt32.ofNat (CInt.unsigned 32 cmdCharOffset)⟩,
    buffer)

/-! ### The automaton -/

/-- The result of `recv`. -/
inductive Recv where
  | chunk (bytes : List UInt8)
  | closed
  | failed
  deriving DecidableEq

/-- A control point of the handler: the call it is about to make. -/
inductive Pc where
  /-- `pthread_mutex_lock` -/
  | locking
  /-- `fopen` -/
  | opening
  /-- `recv`, with a zeroed buffer -/
  | receiving
  /-- `ioctl`, after the tokens of a seek command of `n` received bytes were read -/
  | seeking (seek : AesdSeekto) (buffer : List UInt8) (n : ℕ)
  /-- `fwrite` of the `n` received bytes -/
  | writing (buffer : List UInt8) (n : ℕ)
  /-- `fseek` to the start of the data file -/
  | rewinding
  /-- `fread` -/
  | reading
  /-- `send` of the bytes just read -/
  | sending (data : List UInt8)
  /-- `fclose` -/
  | closingFile
  /-- `pthread_mutex_unlock` -/
  | unlocking
  /-- `close` of the client's descriptor -/
  | closingClient
  /-- the store of `-1` to `client_fd` -/
  | clearing
  /-- the store of `true` to `thread_completed` -/
  | completing
  /-- returned -/
  | done
  /-- ended by a fault -/
  | crashed
  deriving DecidableEq

/-- A call of the handler, or of stdio on its behalf, with its result. -/
inductive Event where
  | lock (res : ℤ)
  | fopen (ok : Bool)
  | recv (res : Recv)
  | ioctl (interrupted : Bool)
  | fwrite
  | flush (n : ℕ) (env : WriteEnv)
  | fseek (res : ℤ)
  | fill (count : ℕ) (env : ReadEnv)
  | fread (data : List UInt8)
  | send (res : ℤ)
  | fclose
  | unlock
  | close
  | clear
  | complete

/-- What follows when a chunk was dealt with: a newline among the received bytes ends the packet. -/
def afterChunk (charDevice : Bool) (buffer : List UInt8) (n : ℕ) : Pc :=
  if (memchr buffer newline n).isSome then (if charDevice then .reading else .rewinding)
  else .receiving

/-- What follows when a chunk was received. -/
def afterRecv (charDevice : Bool) (bytes : List UInt8) : Pc :=
  if charDevice ∧ startsWithKeyword bytes then
    match parseSeekto (recvBuffer bytes) with
    | none => .crashed
    | some (seek, buffer) => .seeking seek buffer bytes.length
  else .writing (recvBuffer bytes) bytes.length

/-- The data file is open. -/
def Pc.fileOpen : Pc → Bool
  | .receiving | .seeking .. | .writing .. | .rewinding | .reading | .sending _
  | .closingFile => true
  | _ => false

/-- **`connection_handler`**, from one call to the next. -/
def Pc.next (charDevice : Bool) : Pc → Event → Option Pc
  | .locking, .lock res => some (if res ≠ 0 then .unlocking else .opening)
  | .opening, .fopen ok => some (if ok then .receiving else .unlocking)
  | .receiving, .recv (.chunk bytes) =>
      if 0 < bytes.length ∧ bytes.length ≤ recvBufferLen then some (afterRecv charDevice bytes)
      else none
  | .receiving, .recv .closed => some .closingFile
  | .receiving, .recv .failed => some .closingFile
  | .seeking _ buffer n, .ioctl _ => some (afterChunk charDevice buffer n)
  | .writing buffer n, .fwrite => some (afterChunk charDevice buffer n)
  | .rewinding, .fseek res => some (if res = -1 then .closingFile else .reading)
  | .reading, .fread data =>
      if recvBufferLen < data.length then none
      else some (if data = [] then .closingFile else .sending data)
  | .sending data, .send res =>
      if res < -1 ∨ (data.length : ℤ) < res then none
      else some (if res = -1 then .closingFile else .reading)
  | .closingFile, .fclose => some .unlocking
  | .unlocking, .unlock => some .closingClient
  | .closingClient, .close => some .clearing
  | .clearing, .clear => some .completing
  | .completing, .complete => some .done
  | pc, .flush _ _ => if pc.fileOpen then some pc else none
  | .reading, .fill _ _ => some .reading
  | _, _ => none

/-! ### Where a call is made -/

/-- **Everything a call can do** to the control point. -/
inductive Pc.Moves (charDevice : Bool) : Pc → Event → Pc → Prop
  | lock (res : ℤ) :
      Moves charDevice .locking (.lock res) (if res ≠ 0 then .unlocking else .opening)
  | fopen (ok : Bool) :
      Moves charDevice .opening (.fopen ok) (if ok then .receiving else .unlocking)
  | chunk (bytes : List UInt8) : 0 < bytes.length → bytes.length ≤ recvBufferLen →
      Moves charDevice .receiving (.recv (.chunk bytes)) (afterRecv charDevice bytes)
  | closed (res : Recv) : (∀ bytes, res ≠ .chunk bytes) →
      Moves charDevice .receiving (.recv res) .closingFile
  | ioctl (seek : AesdSeekto) (buffer : List UInt8) (n : ℕ) (interrupted : Bool) :
      Moves charDevice (.seeking seek buffer n) (.ioctl interrupted)
        (afterChunk charDevice buffer n)
  | fwrite (buffer : List UInt8) (n : ℕ) :
      Moves charDevice (.writing buffer n) .fwrite (afterChunk charDevice buffer n)
  | fseek (res : ℤ) :
      Moves charDevice .rewinding (.fseek res) (if res = -1 then .closingFile else .reading)
  | fread (data : List UInt8) : data.length ≤ recvBufferLen →
      Moves charDevice .reading (.fread data) (if data = [] then .closingFile else .sending data)
  | send (data : List UInt8) (res : ℤ) : -1 ≤ res → res ≤ data.length →
      Moves charDevice (.sending data) (.send res) (if res = -1 then .closingFile else .reading)
  | fclose : Moves charDevice .closingFile .fclose .unlocking
  | unlock : Moves charDevice .unlocking .unlock .closingClient
  | close : Moves charDevice .closingClient .close .clearing
  | clear : Moves charDevice .clearing .clear .completing
  | complete : Moves charDevice .completing .complete .done
  | flush (pc : Pc) (n : ℕ) (env : WriteEnv) : pc.fileOpen = true →
      Moves charDevice pc (.flush n env) pc
  | fill (count : ℕ) (env : ReadEnv) : Moves charDevice .reading (.fill count env) .reading

theorem Pc.next_moves {charDevice : Bool} {pc pc' : Pc} {e : Event}
    (h : pc.next charDevice e = some pc') : Pc.Moves charDevice pc e pc' := by
  unfold Pc.next at h
  split at h
  · cases h
    exact .lock _
  · cases h
    exact .fopen _
  · split at h
    · next hlen =>
        cases h
        exact .chunk _ hlen.1 hlen.2
    · cases h
  · cases h
    exact .closed _ fun _ => nofun
  · cases h
    exact .closed _ fun _ => nofun
  · cases h
    exact .ioctl ..
  · cases h
    exact .fwrite ..
  · cases h
    exact .fseek _
  · split at h
    · cases h
    · next hlen =>
        cases h
        exact .fread _ (not_lt.1 hlen)
  · split at h
    · cases h
    · next hres =>
        cases h
        exact .send _ _ (by omega) (by omega)
  · cases h
    exact .fclose
  · cases h
    exact .unlock
  · cases h
    exact .close
  · cases h
    exact .clear
  · cases h
    exact .complete
  · split at h
    · next hopen =>
        cases h
        exact .flush _ _ _ hopen
    · cases h
  · cases h
    exact .fill ..
  · cases h

/-- Bytes can be handed over as long as the file is open. -/
theorem Pc.next_flush {charDevice : Bool} {pc : Pc} (hopen : pc.fileOpen = true) (n : ℕ)
    (env : WriteEnv) : pc.next charDevice (.flush n env) = some pc := by
  cases pc <;> first | rfl | cases hopen

/-! ### What decides about a chunk -/

/-- The test for the keyword is one of the received bytes alone. -/
theorem startsWithKeyword_iff {bytes : List UInt8} :
    startsWithKeyword bytes = true ↔ aesdSeektoKeyword <+: bytes := by
  rw [startsWithKeyword, decide_eq_true_eq, strncmpEq_iff (by decide)]
  constructor
  · rintro ⟨hlen, hpre⟩
    exact List.prefix_of_prefix_length_le hpre (List.prefix_append _ _) hlen
  · intro hpre
    exact ⟨hpre.length_le, hpre.trans (List.prefix_append _ _)⟩

theorem take_recvBuffer (bytes : List UInt8) : (recvBuffer bytes).take bytes.length = bytes :=
  List.take_left

/-- A chunk that was written ends the packet if and only if it has a newline, anywhere. -/
theorem afterChunk_recvBuffer (charDevice : Bool) (bytes : List UInt8) :
    afterChunk charDevice (recvBuffer bytes) bytes.length
      = if newline ∈ bytes then (if charDevice then .reading else .rewinding) else .receiving := by
  simp only [afterChunk, memchr_isSome, take_recvBuffer]

/-! ### Well-formed seek commands -/

/-- The packet that seeks to byte `y` of command `x`. -/
def seekPacket (x y : ℕ) : List UInt8 :=
  aesdSeektoKeyword ++ 58 :: (decimal x ++ 44 :: (decimal y ++ [newline]))

theorem token_keyword : Token delimiter aesdSeektoKeyword := by decide +kernel

theorem token_decimal (n : ℕ) : Token delimiter (decimal n) := by
  refine ⟨decimal_ne_nil n, ?_⟩
  intro b hb
  have hdigit := isDigit_of_mem_decimal hb
  refine ⟨(isDigit_ne hdigit).2.2.2, ?_⟩
  intro hmem
  simp only [delimiter, List.mem_cons, List.not_mem_nil, or_false] at hmem
  rcases hmem with rfl | rfl
  · exact absurd hdigit (by decide)
  · exact absurd hdigit (by decide)

/-- The number that a token stands for survives the detour through `int`. -/
theorem uint32_signed (n : UInt32) :
    UInt32.ofNat (CInt.unsigned 32 (CInt.signed 32 n.toNat)) = n := by
  rw [CInt.unsigned_signed, CInt.unsigned_of_lt n.toNat_lt, UInt32.ofNat_toNat]

theorem length_seekPacket_lt (x y : UInt32) :
    (seekPacket x.toNat y.toNat).length < recvBufferLen := by
  have hx := length_decimal_le (n := x.toNat) (k := 10) (by decide) (x.toNat_lt.trans (by decide))
  have hy := length_decimal_le (n := y.toNat) (k := 10) (by decide) (y.toNat_lt.trans (by decide))
  simp only [seekPacket, List.length_append, List.length_cons, List.length_nil]
  have hkey : aesdSeektoKeyword.length = 18 := rfl
  have hbuffer : recvBufferLen = 512 := rfl
  omega

/-- The buffer as the tokenisation of a seek packet leaves it: zeros in place of the delimiters. -/
def tokenized (x y : ℕ) (zeros : List UInt8) : List UInt8 :=
  aesdSeektoKeyword ++ 0 :: (decimal x ++ 0 :: (decimal y ++ newline :: zeros))

/-- **A seek packet is read as the two numbers in it.** -/
theorem parseSeekto_packet (x y : UInt32) :
    ∃ zeros, parseSeekto (recvBuffer (seekPacket x.toNat y.toNat))
      = some (⟨x, y⟩, tokenized x.toNat y.toNat zeros) := by
  have hlt := length_seekPacket_lt x y
  obtain ⟨m, hm⟩ : ∃ m, recvBufferLen - (seekPacket x.toNat y.toNat).length = m + 1 :=
    ⟨_, (Nat.succ_pred_eq_of_pos (Nat.sub_pos_of_lt hlt)).symm⟩
  refine ⟨0 :: List.replicate m 0, ?_⟩
  have hx := x.toNat_lt
  have hy := y.toNat_lt
  have hbuffer : recvBuffer (seekPacket x.toNat y.toNat) = [] ++ aesdSeektoKeyword ++
      58 :: (decimal x.toNat ++ 44 :: (decimal y.toNat ++ newline :: 0 :: List.replicate m 0)) := by
    rw [recvBuffer, hm, seekPacket, List.replicate_succ]
    simp
  -- the keyword, up to the colon
  have hfirst := strtokR_token []
    (decimal x.toNat ++ 44 :: (decimal y.toNat ++ newline :: 0 :: List.replicate m 0))
    (d := 58) (by decide) token_keyword (by decide)
  -- the first number, up to the comma
  have hsecond := strtokR_token (aesdSeektoKeyword ++ [0])
    (decimal y.toNat ++ newline :: 0 :: List.replicate m 0)
    (d := 44) (by decide) (token_decimal x.toNat) (by decide)
  -- the second number with the newline, up to the end of the string
  have hlast : Token delimiter (decimal y.toNat ++ [newline]) := by
    refine ⟨by simp, ?_⟩
    intro b hb
    rcases List.mem_append.1 hb with hb | hb
    · exact (token_decimal y.toNat).2 b hb
    · rw [List.mem_singleton.1 hb]
      decide
  have hthird := strtokR_last (aesdSeektoKeyword ++ [0] ++ decimal x.toNat ++ [0])
    (List.replicate m 0) (by decide) hlast
  have hatoi₁ := atoi_decimal (n := x.toNat) (d := 0)
    (decimal y.toNat ++ newline :: 0 :: List.replicate m 0) (by omega) (by decide)
  have hatoi₂ := atoi_decimal (n := y.toNat) (d := newline) (0 :: List.replicate m 0) (by omega)
    (by decide)
  simp only [List.append_assoc, List.cons_append, List.nil_append, List.length_append,
    List.length_cons, List.length_nil, Nat.zero_add] at hfirst hsecond hthird hbuffer
  have hindex : aesdSeektoKeyword.length + 1 + (decimal x.toNat).length + 1
      = aesdSeektoKeyword.length + ((decimal x.toNat).length + 1 + 1) := by omega
  have hdrop : ∀ rest, (aesdSeektoKeyword ++ 0 :: rest).drop (aesdSeektoKeyword.length + 1)
      = rest := fun rest => by simp
  have hdrop' : ∀ rest, (aesdSeektoKeyword ++ 0 :: (decimal x.toNat ++ 0 :: rest)).drop
      (aesdSeektoKeyword.length + ((decimal x.toNat).length + 1 + 1)) = rest := fun rest => by
    rw [List.drop_length_add_append, Nat.add_right_comm, List.drop_succ_cons]
    simp
  rw [hindex] at hsecond
  simp only [parseSeekto, hbuffer, hfirst, hsecond, hthird, Option.bind_eq_bind, Option.bind_some,
    hdrop, hdrop', hatoi₁, hatoi₂, uint32_signed]
  rfl

/-- **The handler issues the seek request of a seek packet and leaves the loop.** -/
theorem afterRecv_seekPacket (x y : UInt32) :
    ∃ buffer, afterRecv true (seekPacket x.toNat y.toNat)
        = .seeking ⟨x, y⟩ buffer (seekPacket x.toNat y.toNat).length ∧
      afterChunk true buffer (seekPacket x.toNat y.toNat).length = .reading := by
  obtain ⟨zeros, hparse⟩ := parseSeekto_packet x y
  have hkey : startsWithKeyword (seekPacket x.toNat y.toNat) = true :=
    startsWithKeyword_iff.2 (List.prefix_append _ _)
  refine ⟨tokenized x.toNat y.toNat zeros, ?_, ?_⟩
  · rw [afterRecv, if_pos ⟨rfl, hkey⟩, hparse]
  · have hmem : newline ∈ (tokenized x.toNat y.toNat zeros).take
        (seekPacket x.toNat y.toNat).length := by
      have hsplit : tokenized x.toNat y.toNat zeros = (aesdSeektoKeyword ++
          0 :: (decimal x.toNat ++ 0 :: (decimal y.toNat ++ [newline]))) ++ zeros := by
        simp [tokenized]
      rw [hsplit, List.take_left' (by simp [seekPacket])]
      simp
    rw [afterChunk, if_pos (memchr_isSome.2 hmem), if_pos rfl]

end Aesd
