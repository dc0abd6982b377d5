/-
**Which chunks the seek-command parser survives.**

A chunk that starts with the keyword is a seek command to the handler, whatever follows.  It calls
`strtok_r` three times and hands the second and the third token to `atoi`, without a look at whether
there are such tokens; and nothing ends the buffer behind a chunk that fills it, so that the walk
along the third token leaves the buffer unless a delimiter or a zero is in its way.  Then it issues
the `ioctl`, with whatever `atoi` made of the tokens.

So the handler has a well-defined behaviour on such a chunk exactly if it has three tokens and the
third one ends inside the buffer, and it rejects no chunk.

* `parseSeekto_isSome_iff` — **when the tokens are read without a fault**;
* `CarriesNumbers` — the second and the third token start with a number;
* `seek_parser_iff` — when a chunk is survived, and rejected if it does not carry both numbers;
* `keyword_crashes` — the bare keyword.
-/

import Aesd.ConnectionHandler

set_option relaxedAutoImplicit false
set_option autoImplicit false

namespace Aesd

open CString

/-! ### The three tokens -/

/-- **When the tokens of a seek command are read without a fault**: there is a second and a third
one, and something in the buffer ends the third. -/
theorem parseSeekto_isSome_iff {buffer : List UInt8} (hfirst : token delimiter buffer ≠ []) :
    (parseSeekto buffer).isSome = true ↔
      token delimiter (behind delimiter buffer) ≠ [] ∧
      token delimiter (behind delimiter (behind delimiter buffer)) ≠ [] ∧
      behind delimiter (behind delimiter (behind delimiter buffer)) ≠ [] := by
  have h₀ : (0 : UInt8) ∉ delimiter := by decide
  have hend : behind delimiter [] = [] := rfl
  rw [parseSeekto]
  rcases strtokR_cases [] buffer h₀ with
    ⟨-, -, i₁, pre₁, mem₁, rest₁, hres₁, -, htok₁, hbeh₁⟩ | ⟨htok, -⟩ | ⟨hbeh, hres₁⟩
  · rw [List.nil_append, List.length_nil] at hres₁
    simp only [hres₁, Option.bind_eq_bind, Option.bind_some]
    rw [← htok₁, ← hbeh₁]
    -- the second token
    rcases strtokR_cases pre₁ mem₁ h₀ with
      ⟨hne₂, -, i₂, pre₂, mem₂, rest₂, hres₂, hdrop₂, htok₂, hbeh₂⟩ | ⟨hnil, hnone⟩ | ⟨hbeh, hres₂⟩
    · obtain ⟨x, hx⟩ := atoi_terminated ((pre₂ ++ mem₂).drop i₂) (by rw [hdrop₂]; simp)
      simp only [hres₂, Option.bind_some, hx]
      rw [← htok₂, ← hbeh₂]
      -- the third token
      rcases strtokR_cases pre₂ mem₂ h₀ with
        ⟨hne₃, hbeh, i₃, pre₃, mem₃, rest₃, hres₃, hdrop₃, -⟩ | ⟨hnil, hnone⟩ | ⟨hbeh, hres₃⟩
      · obtain ⟨y, hy⟩ := atoi_terminated ((pre₃ ++ mem₃).drop i₃) (by rw [hdrop₃]; simp)
        simp only [hres₃, Option.bind_some, hy]
        exact ⟨fun _ => ⟨hne₂, hne₃, hbeh⟩, fun _ => rfl⟩
      · refine ⟨?_, fun h => absurd hnil h.2.1⟩
        intro hsome
        cases hres : strtokR delimiter (pre₂ ++ mem₂) pre₂.length with
        | none => simp [hres] at hsome
        | some r =>
            obtain ⟨_ | i, mem', save⟩ := r
            · simp [hres] at hsome
            · exact absurd hres (hnone i mem' save)
      · rw [hres₃, hbeh]
        simp
    · refine ⟨?_, fun h => absurd hnil h.1⟩
      intro hsome
      cases hres : strtokR delimiter (pre₁ ++ mem₁) pre₁.length with
      | none => simp [hres] at hsome
      | some r =>
          obtain ⟨_ | i, mem', save⟩ := r
          · simp [hres] at hsome
          · exact absurd hres (hnone i mem' save)
    · rw [hres₂, hbeh, hend]
      simp
  · exact absurd htok hfirst
  · rw [List.nil_append, List.length_nil] at hres₁
    rw [hres₁, hbeh, hend, hend]
    simp

/-- A buffer that starts with the keyword has a first token. -/
theorem token_of_keyword {buffer : List UInt8} (h : aesdSeektoKeyword <+: buffer) :
    token delimiter buffer ≠ [] := by
  obtain ⟨rest, rfl⟩ := h
  rw [token, show aesdSeektoKeyword ++ rest = 65 :: (aesdSeektoKeyword.tail ++ rest) from rfl,
    List.dropWhile_cons_of_neg (by decide), List.takeWhile_cons_of_pos (by decide)]
  exact List.cons_ne_nil _ _

/-! ### Numbers -/

/-- `strtol` finds a number: behind blanks and a sign there is a digit. -/
def startsNumber (tok : List UInt8) : Bool :=
  match tok.dropWhile isSpace with
  | [] => false
  | b :: rest => if b = 43 ∨ b = 45 then (rest.head?.map isDigit).getD false else isDigit b

/-- The second and the third token of the chunk start with a number. -/
def CarriesNumbers (bytes : List UInt8) : Prop :=
  startsNumber (token delimiter (behind delimiter (recvBuffer bytes))) = true ∧
  startsNumber (token delimiter (behind delimiter (behind delimiter (recvBuffer bytes)))) = true

instance (bytes : List UInt8) : Decidable (CarriesNumbers bytes) :=
  inferInstanceAs (Decidable (_ ∧ _))

/-- The third token of the chunk ends inside the buffer. -/
def EndsInside (bytes : List UInt8) : Prop :=
  behind delimiter (behind delimiter (behind delimiter (recvBuffer bytes))) ≠ []

instance (bytes : List UInt8) : Decidable (EndsInside bytes) := inferInstanceAs (Decidable (_ ≠ _))

/-- The third token of a chunk that does not fill the buffer ends inside it. -/
theorem endsInside_of_lt {bytes : List UInt8} (h : bytes.length < recvBufferLen) :
    EndsInside bytes := by
  have hzero : (0 : UInt8) ∈ recvBuffer bytes :=
    List.mem_append_right _ (List.mem_replicate.2 ⟨by omega, rfl⟩)
  have h₀ : (0 : UInt8) ∉ delimiter := by decide
  exact List.ne_nil_of_mem (zero_mem_behind h₀ (zero_mem_behind h₀ (zero_mem_behind h₀ hzero)))

theorem startsNumber_ne_nil {tok : List UInt8} (h : startsNumber tok = true) : tok ≠ [] := by
  rintro rfl
  cases h

/-! ### Chunks -/

/-- **The chunk is survived, and rejected if it does not carry both numbers**: its tokens are read
without a fault, and the `ioctl` is issued only if there are two numbers. -/
def Survived (bytes : List UInt8) : Prop :=
  afterRecv true bytes ≠ .crashed ∧
  (¬ CarriesNumbers bytes → ∀ seek buffer n, afterRecv true bytes ≠ .seeking seek buffer n)

/-- **Which seek commands are survived, and rejected if they do not carry both numbers**: those that
carry them, and whose third token ends inside the buffer.  None is rejected. -/
theorem seek_parser_iff {bytes : List UInt8} (hkey : startsWithKeyword bytes = true) :
    Survived bytes ↔ CarriesNumbers bytes ∧ EndsInside bytes := by
  have hfirst : token delimiter (recvBuffer bytes) ≠ [] :=
    token_of_keyword ((startsWithKeyword_iff.1 hkey).trans (List.prefix_append bytes _))
  have hsome := parseSeekto_isSome_iff hfirst
  rw [Survived, afterRecv, if_pos ⟨rfl, hkey⟩]
  cases hparse : parseSeekto (recvBuffer bytes) with
  | none =>
      -- a token is missing, or the walk leaves the buffer
      rw [hparse] at hsome
      refine ⟨fun h => absurd rfl h.1, ?_⟩
      intro h
      have := hsome.2 ⟨startsNumber_ne_nil h.1.1, startsNumber_ne_nil h.1.2, h.2⟩
      cases this
  | some r =>
      obtain ⟨seek, buffer⟩ := r
      rw [hparse] at hsome
      constructor
      · intro h
        refine ⟨?_, (hsome.1 rfl).2.2⟩
        -- the `ioctl` is issued
        by_contra hno
        exact h.2 hno seek buffer bytes.length rfl
      · intro h
        refine ⟨?_, fun hno => absurd h.1 hno⟩
        intro hcrash
        cases hcrash

/-- The packet `"AESDCHAR_IOCSEEKTO:0,2\n"`. -/
theorem seek_parser_iff_packet : Survived (seekPacket 0 2) :=
  (seek_parser_iff (by decide +kernel)).2
    ⟨by decide +kernel, endsInside_of_lt (by decide +kernel)⟩

/-- **The bare keyword ends the handler**: there is no second token, and `atoi` is called on
`NULL`. -/
theorem keyword_crashes :
    ¬ ∀ bytes : List UInt8, 0 < bytes.length → bytes.length ≤ recvBufferLen →
      startsWithKeyword bytes = true → Survived bytes := by
  intro h
  refine (h aesdSeektoKeyword (by decide) (by decide) (by decide +kernel)).1 ?_
  decide +kernel

end Aesd
