/-
**The line that the timer writes.**

Every ten seconds, in the temp-file build, `timer_expired_handler` formats the time with `strftime`
into a buffer of 1024 bytes, and appends what `strftime` has put there to the data file.  The format
has a colon and commas between numbers of fixed width, except for the year, and a newline at its
end.

So the line fits into the buffer whatever the time is, it is one line, and the six numbers that are
printed are determined by it.  They are not the whole of the broken-down time: whether it is summer
time is not printed, and in the hour in which summer time ends the clock shows the same twice.

* `Tm`, `strftime` — a broken-down time, and its formatting;
* `Tm.printed` — the six numbers;
* `Tm.length_line`, `Tm.newline_notMem_text`, `Tm.line_eq_iff` — the line is not long, is one line,
  and tells the six numbers and nothing else;
* `timestamp_line` — **what the callback writes is one line, and the numbers in it.**
-/

import Aesd.CharDevice
import Aesd.CString

set_option relaxedAutoImplicit false
set_option autoImplicit false

namespace Aesd

open CString

/-! ### Formatting -/

/-- `struct tm`, as `localtime_r` fills it in for a time from 1900 on, as long as the number of the
year is an `int`. -/
structure Tm where
  tmYear : ℕ
  tmMon : ℕ
  tmMday : ℕ
  tmHour : ℕ
  tmMin : ℕ
  tmSec : ℕ
  tmWday : ℕ
  tmYday : ℕ
  tmIsdst : ℤ
  year_le : tmYear + 1900 ≤ 2 ^ 31 - 1
  mon_lt : tmMon < 12
  mday_le : 1 ≤ tmMday ∧ tmMday ≤ 31
  hour_lt : tmHour < 24
  min_lt : tmMin < 60
  /-- There may be a leap second. -/
  sec_le : tmSec ≤ 60
  wday_lt : tmWday < 7
  yday_lt : tmYday < 366
  deriving DecidableEq

/-- The year, the month, the day, the hour, the minute and the second. -/
def Tm.printed (tm : Tm) : ℕ × ℕ × ℕ × ℕ × ℕ × ℕ :=
  (tm.tmYear, tm.tmMon, tm.tmMday, tm.tmHour, tm.tmMin, tm.tmSec)

/-- A number below 100 in two digits. -/
def twoDigits (n : ℕ) : List UInt8 := [(48 + n / 10).toUInt8, (48 + n % 10).toUInt8]

/-- `"timestamp: "` -/
def timestampPrefix : List UInt8 := [116, 105, 109, 101, 115, 116, 97, 109, 112, 58, 32]

/-- `", "` -/
def comma : List UInt8 := [44, 32]

/-- The text of `"timestamp: %Y, %m, %d, %H, %M, %S"`. -/
def Tm.text (tm : Tm) : List UInt8 :=
  timestampPrefix ++ (decimal (tm.tmYear + 1900) ++ (comma ++ (twoDigits (tm.tmMon + 1) ++
    (comma ++ (twoDigits tm.tmMday ++ (comma ++ (twoDigits tm.tmHour ++ (comma ++
      (twoDigits tm.tmMin ++ (comma ++ twoDigits tm.tmSec))))))))))

/-- The text with the newline. -/
def Tm.line (tm : Tm) : List UInt8 := tm.text ++ [newline]

/-- `strftime` with this format: the bytes it puts into a buffer of `max` bytes, in front of a zero
byte, if there is room for them. -/
def strftime (max : ℕ) (tm : Tm) : Option (List UInt8) :=
  if tm.line.length + 1 ≤ max then some tm.line else none

/-! ### Digits -/

theorem toNat_twoDigits {n : ℕ} (hn : n < 100) :
    (48 + n / 10).toUInt8.toNat = 48 + n / 10 ∧ (48 + n % 10).toUInt8.toNat = 48 + n % 10 := by
  simp only [Nat.toUInt8_eq, UInt8.toNat_ofNat']
  omega

theorem isDigit_of_mem_twoDigits {n : ℕ} (hn : n < 100) {b : UInt8} (hb : b ∈ twoDigits n) :
    isDigit b = true := by
  obtain ⟨htens, hunits⟩ := toNat_twoDigits hn
  have hcases : b = (48 + n / 10).toUInt8 ∨ b = (48 + n % 10).toUInt8 := by
    simpa [twoDigits] using hb
  have h48 : (48 : UInt8).toNat = 48 := rfl
  have h57 : (57 : UInt8).toNat = 57 := rfl
  simp only [isDigit, decide_eq_true_eq, UInt8.le_iff_toNat_le, h48, h57]
  rcases hcases with rfl | rfl
  · rw [htens]
    omega
  · rw [hunits]
    omega

theorem twoDigits_injective {m n : ℕ} (hm : m < 100) (hn : n < 100)
    (h : twoDigits m = twoDigits n) : m = n := by
  obtain ⟨hm₁, hm₀⟩ := toNat_twoDigits hm
  obtain ⟨hn₁, hn₀⟩ := toNat_twoDigits hn
  simp only [twoDigits, List.cons.injEq, and_true] at h
  have htens := congrArg UInt8.toNat h.1
  have hunits := congrArg UInt8.toNat h.2
  rw [hm₁, hn₁] at htens
  rw [hm₀, hn₀] at hunits
  omega

theorem twoDigits_append_injective {m n : ℕ} (hm : m < 100) (hn : n < 100) {r r' : List UInt8}
    (h : twoDigits m ++ r = twoDigits n ++ r') : m = n ∧ r = r' := by
  obtain ⟨hdigits, hrest⟩ := List.append_inj h rfl
  exact ⟨twoDigits_injective hm hn hdigits, hrest⟩

/-- What follows a numeral up to a byte that is no digit tells where the numeral ends. -/
theorem decimal_append_injective {m n : ℕ} {d : UInt8} (hd : isDigit d = false)
    {r r' : List UInt8} (h : decimal m ++ d :: r = decimal n ++ d :: r') : m = n ∧ r = r' := by
  have hwhile : ∀ (k : ℕ) (r : List UInt8),
      (decimal k ++ d :: r).takeWhile isDigit = decimal k := by
    intro k r
    rw [List.takeWhile_append_of_pos fun b hb => isDigit_of_mem_decimal hb,
      List.takeWhile_cons_of_neg (by simp [hd]), List.append_nil]
  have heq : decimal m = decimal n := by rw [← hwhile m r, h, hwhile]
  refine ⟨by rw [← numeral_decimal m, heq, numeral_decimal], ?_⟩
  rw [heq] at h
  exact (List.cons.inj (List.append_cancel_left h)).2

/-! ### The line -/

/-- The numbers of the text that have two digits. -/
theorem Tm.fields_lt (tm : Tm) : tm.tmMon + 1 < 100 ∧ tm.tmMday < 100 ∧ tm.tmHour < 100 ∧
    tm.tmMin < 100 ∧ tm.tmSec < 100 := by
  have hmon := tm.mon_lt
  have hmday := tm.mday_le
  have hhour := tm.hour_lt
  have hmin := tm.min_lt
  have hsec := tm.sec_le
  omega

theorem Tm.length_line (tm : Tm) : tm.line.length ≤ 42 := by
  have hyear : (decimal (tm.tmYear + 1900)).length ≤ 10 :=
    length_decimal_le (by decide) (by have := tm.year_le; omega)
  simp only [Tm.line, Tm.text, timestampPrefix, comma, twoDigits, List.length_append,
    List.length_cons, List.length_nil]
  omega

theorem Tm.newline_notMem_text (tm : Tm) : newline ∉ tm.text := by
  obtain ⟨hmon, hmday, hhour, hmin, hsec⟩ := tm.fields_lt
  have hdigit : isDigit newline = false := by decide
  have hfield : ∀ {n}, n < 100 → newline ∉ twoDigits n := by
    intro n hn hmem
    rw [isDigit_of_mem_twoDigits hn hmem] at hdigit
    cases hdigit
  have hyear : newline ∉ decimal (tm.tmYear + 1900) := by
    intro hmem
    rw [isDigit_of_mem_decimal hmem] at hdigit
    cases hdigit
  have hhead : newline ∉ timestampPrefix := by decide
  have hcomma : newline ∉ comma := by decide
  simp only [Tm.text, List.mem_append, not_or]
  exact ⟨hhead, hyear, hcomma, hfield hmon, hcomma, hfield hmday, hcomma, hfield hhour, hcomma,
    hfield hmin, hcomma, hfield hsec⟩

/-- **The line tells the numbers that are printed**, and nothing else. -/
theorem Tm.line_eq_iff {tm tm' : Tm} : tm.line = tm'.line ↔ tm.printed = tm'.printed := by
  constructor
  · intro h
    obtain ⟨hmon, hmday, hhour, hmin, hsec⟩ := tm.fields_lt
    obtain ⟨hmon', hmday', hhour', hmin', hsec'⟩ := tm'.fields_lt
    have htext := List.append_cancel_left (List.append_cancel_right h)
    obtain ⟨hy, htext⟩ := decimal_append_injective (d := 44) (by decide) htext
    obtain ⟨hmon, htext⟩ := twoDigits_append_injective hmon hmon' (List.cons.inj htext).2
    obtain ⟨hmday, htext⟩ :=
      twoDigits_append_injective hmday hmday' (List.append_cancel_left htext)
    obtain ⟨hhour, htext⟩ :=
      twoDigits_append_injective hhour hhour' (List.append_cancel_left htext)
    obtain ⟨hmin, htext⟩ := twoDigits_append_injective hmin hmin' (List.append_cancel_left htext)
    have hsec := twoDigits_injective hsec hsec' (List.append_cancel_left htext)
    simp only [Tm.printed, Prod.mk.injEq]
    omega
  · intro h
    simp only [Tm.printed, Prod.mk.injEq] at h
    obtain ⟨hyear, hmon, hmday, hhour, hmin, hsec⟩ := h
    rw [Tm.line, Tm.line, Tm.text, Tm.text, hyear, hmon, hmday, hhour, hmin, hsec]

/-- **What the callback writes is one line, and the numbers in it**: `strftime` never fails for want
of room in the buffer, the newline is the last byte of what it puts there and the only one, and it
puts the same bytes there for another time exactly if the six numbers that are printed are the same.
-/
theorem timestamp_line (tm : Tm) :
    strftime 1024 tm = some tm.line ∧ newline ∉ tm.line.dropLast ∧
      tm.line.getLast? = some newline ∧
      ∀ tm', strftime 1024 tm' = some tm.line ↔ tm'.printed = tm.printed := by
  have hfits : ∀ tm, strftime 1024 tm = some tm.line := by
    intro tm
    have hle := tm.length_line
    rw [strftime, if_pos (by omega)]
  refine ⟨hfits tm, ?_, List.getLast?_concat .., ?_⟩
  · rw [Tm.line, List.dropLast_concat]
    exact tm.newline_notMem_text
  · intro tm'
    rw [hfits tm', Option.some.injEq, Tm.line_eq_iff]

end Aesd
