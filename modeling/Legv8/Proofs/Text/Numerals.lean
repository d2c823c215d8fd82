import Legv8.Text.Numeral
import Mathlib.Data.List.Basic

/-! # Numerals read back

A numeral spells one number: reading the digits of a number gives it back, and zeros in front of them
change nothing. No digit is a sign or a separator, so a numeral also ends where the next separator stands,
and a text that is cut at its separators falls into the same pieces however it was put together. -/
namespace Legv8.Text

/-! ## Digits -/

section Reading

variable {digit? : Char → Option Nat} {base bound : Nat}

theorem numberBelow?_append (value : Nat) (cs ds : List Char) :
    numberBelow? digit? base bound value (cs ++ ds) =
      (numberBelow? digit? base bound value cs).bind (numberBelow? digit? base bound · ds) := by
  induction cs generalizing value with
  | nil => rfl
  | cons c rest ih =>
    simp only [List.cons_append, numberBelow?]
    split
    · split
      · exact ih _
      · rfl
    · rfl

/-- Whatever is read as a number is made of digits. -/
theorem digit?_ne_none {value n : Nat} {cs : List Char}
    (h : numberBelow? digit? base bound value cs = some n) : ∀ c ∈ cs, digit? c ≠ none := by
  induction cs generalizing value with
  | nil => simp
  | cons c rest ih =>
    rw [numberBelow?] at h
    intro d hd
    split at h
    · next digit hc =>
      split at h
      · rcases List.mem_cons.mp hd with rfl | later
        · simp [hc]
        · exact ih h d later
      · cases h
    · cases h

variable (spelled : ∀ d < base, digit? (Nat.digitChar d) = some d)
include spelled

/-- The digits of a number in a base are read as that number. -/
theorem numberBelow?_toDigits (proper : 1 < base) {n : Nat} (h : n < bound) :
    numberBelow? digit? base bound 0 (Nat.toDigits base n) = some n := by
  induction n using Nat.strongRecOn with
  | ind n ih =>
    rw [Nat.toDigits_eq_if proper]
    by_cases small : n < base
    · rw [if_pos small]
      simp [numberBelow?, spelled n small, h]
    · have positive : 0 < n := by omega
      have quotient : n / base < n := Nat.div_lt_self positive proper
      have last := spelled (n % base) (Nat.mod_lt n (by omega))
      rw [if_neg small, numberBelow?_append, ih (n / base) quotient (by omega)]
      simp [numberBelow?, last, Nat.div_add_mod, h]

/-- Zeros in front change nothing. -/
theorem numberBelow?_zeros (proper : 1 < base) (positive : 0 < bound) (count : Nat) (cs : List Char) :
    numberBelow? digit? base bound 0 (List.replicate count '0' ++ cs) =
      numberBelow? digit? base bound 0 cs := by
  have zero : digit? '0' = some 0 := spelled 0 (by omega)
  induction count with
  | zero => rfl
  | succ count ih =>
    rw [List.replicate_succ, List.cons_append, numberBelow?, zero]
    simpa [positive] using ih

end Reading

theorem decimalDigit?_digitChar : ∀ d < 10, decimalDigit? (Nat.digitChar d) = some d := by decide

theorem hexDigit?_digitChar : ∀ d < 16, hexDigit? (Nat.digitChar d) = some d := by decide

theorem numberBelow?_decimal {n bound : Nat} (h : n < bound) :
    numberBelow? decimalDigit? 10 bound 0 (decimal n).toList = some n := by
  rw [decimal, String.toList_ofList]
  exact numberBelow?_toDigits decimalDigit?_digitChar (by decide) h

theorem numberBelow?_hexDigits {n bound : Nat} (width : Nat) (h : n < bound) :
    numberBelow? hexDigit? 16 bound 0 (hexDigits width n).toList = some n := by
  rw [hexDigits, String.toList_ofList, List.leftpad,
    numberBelow?_zeros hexDigit?_digitChar (by decide) (by omega)]
  exact numberBelow?_toDigits hexDigit?_digitChar (by decide) h

/-! ## Numerals spell one number -/

theorem decimal_injective {m n : Nat} (h : decimal m = decimal n) : m = n := by
  have first : numberBelow? decimalDigit? 10 (m + n + 1) 0 (decimal m).toList = some m :=
    numberBelow?_decimal (by omega)
  rw [h, numberBelow?_decimal (by omega)] at first
  exact (Option.some.inj first).symm

theorem hexPadded_injective {width m n : Nat} (h : hexPadded width m = hexPadded width n) : m = n := by
  have digits : hexDigits width m = hexDigits width n := (String.append_right_inj _).mp h
  have first : numberBelow? hexDigit? 16 (m + n + 1) 0 (hexDigits width m).toList = some m :=
    numberBelow?_hexDigits width (by omega)
  rw [digits, numberBelow?_hexDigits width (by omega)] at first
  exact (Option.some.inj first).symm

theorem notMem_decimal {c : Char} (h : decimalDigit? c = none) (n : Nat) : c ∉ (decimal n).toList := by
  intro mem
  exact digit?_ne_none (numberBelow?_decimal (Nat.lt_succ_self n)) c mem h

theorem notMem_hexDigits {c : Char} (h : hexDigit? c = none) (width n : Nat) :
    c ∉ (hexDigits width n).toList := by
  intro mem
  exact digit?_ne_none (numberBelow?_hexDigits width (Nat.lt_succ_self n)) c mem h

theorem signedDecimal_injective {y z : Int} (h : signedDecimal y = signedDecimal z) : y = z := by
  have unsigned : ∀ m n, decimal m ≠ "-" ++ decimal n := by
    intro m n equal
    have sign : '-' ∈ (decimal m).toList := by simp [equal]
    exact notMem_decimal (by decide) m sign
  cases y with
  | ofNat m =>
    cases z with
    | ofNat n => exact congrArg Int.ofNat (decimal_injective h)
    | negSucc n => exact absurd h (unsigned m (n + 1))
  | negSucc m =>
    cases z with
    | ofNat n => exact absurd h.symm (unsigned n (m + 1))
    | negSucc n =>
      have magnitude := decimal_injective ((String.append_right_inj _).mp h)
      rw [Nat.succ.inj magnitude]

/-! ## Separators -/

/-- A text that goes on with `c`, or is at its end. -/
def ContinuesWith (c : Char) (text : String) : Prop := ∀ d ∈ text.toList.head?, d = c

theorem takeWhile_append {c : Char} {a x : String} (absent : c ∉ a.toList) (next : ContinuesWith c x) :
    (a ++ x).toList.takeWhile (· != c) = a.toList := by
  have free : ∀ d ∈ a.toList, (d != c) = true := by
    intro d hd
    simpa using fun equal : d = c => absent (equal ▸ hd)
  rw [String.toList_append, List.takeWhile_append_of_pos free]
  unfold ContinuesWith at next
  cases hx : x.toList with
  | nil => simp
  | cons d rest =>
    have first : d = c := next d (by rw [hx]; rfl)
    simp [first]

/-- Equal texts agree on what stands before their first `c`, and on what follows. -/
theorem append_inj_before {c : Char} {a b x y : String} (ha : c ∉ a.toList) (hb : c ∉ b.toList)
    (hx : ContinuesWith c x) (hy : ContinuesWith c y) (h : a ++ x = b ++ y) : a = b ∧ x = y := by
  have equal : a = b := by
    refine String.toList_injective ?_
    rw [← takeWhile_append ha hx, h, takeWhile_append hb hy]
  subst equal
  exact ⟨rfl, (String.append_right_inj _).mp h⟩

/-- Texts can be cut at a separator whose first character does not occur in front of it. -/
theorem append_inj_of_separator {c : Char} {a b separator x y : String} (ha : c ∉ a.toList)
    (hb : c ∉ b.toList) (first : separator.toList.head? = some c)
    (h : a ++ (separator ++ x) = b ++ (separator ++ y)) : a = b ∧ x = y := by
  have next : ∀ z, ContinuesWith c (separator ++ z) := by
    intro z d hd
    rw [String.toList_append, List.head?_append, first] at hd
    exact (Option.some.inj hd).symm
  obtain ⟨front, rest⟩ := append_inj_before ha hb (next x) (next y) h
  exact ⟨front, (String.append_right_inj _).mp rest⟩

end Legv8.Text
