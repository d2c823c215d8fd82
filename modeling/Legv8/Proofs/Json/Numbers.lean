import Legv8.Json.Lexer
import Legv8.Proofs.Json.Grammar

/-! # Numbers read by state

From every state of the number reader there are the texts that complete a number. A character leads to the
state whose texts may follow it, and a state accepts exactly if nothing has to follow, so the reader accepts
the numbers of the grammar. -/
namespace Legv8.Json

/-! ## Digits -/

theorem allDigits_cons {c : Char} {cs : List Char} :
    AllDigits (c :: cs) ↔ c.isDigit = true ∧ AllDigits cs := List.forall_mem_cons

theorem isDigits_cons {c : Char} {cs : List Char} :
    IsDigits (c :: cs) ↔ c.isDigit = true ∧ AllDigits cs := by
  rw [IsDigits, allDigits_cons]
  exact and_iff_right nofun

/-- Digits, and then what `P` allows. -/
def DigitsThen (P : List Char → Prop) (cs : List Char) : Prop :=
  ∃ digits rest, cs = digits ++ rest ∧ AllDigits digits ∧ P rest

theorem digitsThen_cons {P : List Char → Prop} {c : Char} {cs : List Char} :
    DigitsThen P (c :: cs) ↔ c.isDigit = true ∧ DigitsThen P cs ∨ P (c :: cs) := by
  constructor
  · rintro ⟨digits, rest, equal, all, hP⟩
    cases digits with
    | nil => exact .inr (equal ▸ hP)
    | cons d digits =>
      obtain ⟨rfl, rfl⟩ := List.cons.inj equal
      exact .inl ⟨(allDigits_cons.mp all).1, digits, rest, rfl, (allDigits_cons.mp all).2, hP⟩
  · rintro (⟨hc, digits, rest, rfl, all, hP⟩ | hP)
    · exact ⟨c :: digits, rest, rfl, allDigits_cons.mpr ⟨hc, all⟩, hP⟩
    · exact ⟨[], c :: cs, rfl, nofun, hP⟩

theorem digitsThen_nil {P : List Char → Prop} : DigitsThen P [] ↔ P [] := by
  constructor
  · rintro ⟨digits, rest, equal, -, hP⟩
    obtain ⟨rfl, rfl⟩ := List.nil_eq_append_iff.mp equal
    exact hP
  · exact fun hP => ⟨[], [], rfl, nofun, hP⟩

/-! ## What completes a number -/

/-- What may follow the digits before the point. -/
def IsFractionExponent (cs : List Char) : Prop :=
  ∃ fraction exponent, cs = fraction ++ exponent ∧ IsFraction fraction ∧ IsExponent exponent

namespace Lexer.NumberState

/-- The texts that complete a number from a state. -/
def Completes : NumberState → List Char → Prop
  | sign, cs => ∃ whole rest, cs = whole ++ rest ∧ IsWhole whole ∧ IsFractionExponent rest
  | zero, cs => IsFractionExponent cs
  | whole, cs => DigitsThen IsFractionExponent cs
  | point, cs => ∃ digits rest, cs = digits ++ rest ∧ IsDigits digits ∧ IsExponent rest
  | fraction, cs => DigitsThen IsExponent cs
  | mark, cs =>
    ∃ sign digits, cs = sign ++ digits ∧ (sign = [] ∨ sign = ['+'] ∨ sign = ['-']) ∧ IsDigits digits
  | markSign, cs => IsDigits cs
  | exponent, cs => AllDigits cs

theorem isExponent_cons {c : Char} {cs : List Char} :
    IsExponent (c :: cs) ↔ (c = 'e' ∨ c = 'E') ∧ mark.Completes cs := by
  constructor
  · rintro (empty | ⟨m, sign, digits, equal, hm, hsign, hdigits⟩)
    · cases empty
    · obtain ⟨rfl, rfl⟩ := List.cons.inj equal
      exact ⟨hm, sign, digits, rfl, hsign, hdigits⟩
  · rintro ⟨hm, sign, digits, rfl, hsign, hdigits⟩
    exact .inr ⟨c, sign, digits, rfl, hm, hsign, hdigits⟩

theorem isFractionExponent_cons {c : Char} {cs : List Char} :
    IsFractionExponent (c :: cs) ↔
      c = '.' ∧ point.Completes cs ∨ (c = 'e' ∨ c = 'E') ∧ mark.Completes cs := by
  rw [← isExponent_cons]
  constructor
  · rintro ⟨fraction, exponent, equal, (rfl | ⟨digits, rfl, hdigits⟩), hexponent⟩
    · exact .inr (equal ▸ hexponent)
    · obtain ⟨rfl, rfl⟩ := List.cons.inj equal
      exact .inl ⟨rfl, digits, exponent, rfl, hdigits, hexponent⟩
  · rintro (⟨rfl, digits, exponent, rfl, hdigits, hexponent⟩ | hexponent)
    · exact ⟨'.' :: digits, exponent, rfl, .inr ⟨digits, rfl, hdigits⟩, hexponent⟩
    · exact ⟨[], c :: cs, rfl, .inl rfl, hexponent⟩

theorem completes_point_cons {c : Char} {cs : List Char} :
    point.Completes (c :: cs) ↔ c.isDigit = true ∧ fraction.Completes cs := by
  constructor
  · rintro ⟨digits, rest, equal, hdigits, hrest⟩
    cases digits with
    | nil => exact absurd rfl hdigits.1
    | cons d digits =>
      obtain ⟨rfl, rfl⟩ := List.cons.inj equal
      obtain ⟨first, later⟩ := isDigits_cons.mp hdigits
      exact ⟨first, digits, rest, rfl, later, hrest⟩
  · rintro ⟨first, digits, rest, rfl, later, hrest⟩
    exact ⟨c :: digits, rest, rfl, isDigits_cons.mpr ⟨first, later⟩, hrest⟩

theorem completes_mark_cons {c : Char} {cs : List Char} :
    mark.Completes (c :: cs) ↔
      c.isDigit = true ∧ exponent.Completes cs ∨ (c = '+' ∨ c = '-') ∧ markSign.Completes cs := by
  constructor
  · rintro ⟨sign, digits, equal, (rfl | rfl | rfl), hdigits⟩
    · exact .inl (isDigits_cons.mp (equal ▸ hdigits))
    · obtain ⟨rfl, rfl⟩ := List.cons.inj equal
      exact .inr ⟨.inl rfl, hdigits⟩
    · obtain ⟨rfl, rfl⟩ := List.cons.inj equal
      exact .inr ⟨.inr rfl, hdigits⟩
  · rintro (digits | ⟨rfl | rfl, digits⟩)
    · exact ⟨[], c :: cs, rfl, .inl rfl, isDigits_cons.mpr digits⟩
    · exact ⟨['+'], cs, rfl, .inr (.inl rfl), digits⟩
    · exact ⟨['-'], cs, rfl, .inr (.inr rfl), digits⟩

theorem completes_sign_cons {c : Char} {cs : List Char} :
    sign.Completes (c :: cs) ↔
      c = '0' ∧ zero.Completes cs ∨ (c ≠ '0' ∧ c.isDigit = true) ∧ whole.Completes cs := by
  constructor
  · rintro ⟨digits, rest, equal, (rfl | ⟨hdigits, first⟩), hrest⟩
    · obtain ⟨rfl, rfl⟩ := List.cons.inj equal
      exact .inl ⟨rfl, hrest⟩
    · cases digits with
      | nil => exact absurd rfl hdigits.1
      | cons d digits =>
        obtain ⟨rfl, rfl⟩ := List.cons.inj equal
        obtain ⟨digit, later⟩ := isDigits_cons.mp hdigits
        exact .inr ⟨⟨fun zero => first (congrArg some zero), digit⟩, digits, rest, rfl, later, hrest⟩
  · rintro (⟨rfl, hrest⟩ | ⟨⟨first, digit⟩, digits, rest, rfl, later, hrest⟩)
    · exact ⟨['0'], cs, rfl, .inl rfl, hrest⟩
    · exact ⟨c :: digits, rest, rfl,
        .inr ⟨isDigits_cons.mpr ⟨digit, later⟩, fun zero => first (Option.some.inj zero)⟩, hrest⟩

/-- A digit is none of the other characters that may stand in a number. -/
theorem not_isDigit {c : Char} (h : c = '.' ∨ (c = 'e' ∨ c = 'E') ∨ c = '+' ∨ c = '-') :
    ¬ c.isDigit = true := by
  rcases h with rfl | (rfl | rfl) | rfl | rfl <;> decide

/-- A character leads to the state whose texts may follow it. -/
theorem completes_cons {state : NumberState} {c : Char} {cs : List Char} :
    state.Completes (c :: cs) ↔ ∃ next, state.next c = some next ∧ next.Completes cs := by
  have marked : IsFractionExponent (c :: cs) ↔ ∃ next, afterWhole c = some next ∧ next.Completes cs := by
    rw [isFractionExponent_cons, afterWhole]
    split
    · next point => simp [point]
    · next noPoint => split <;> simp [*]
  have other : c.isDigit = true → ¬ (c = '.' ∨ (c = 'e' ∨ c = 'E') ∨ c = '+' ∨ c = '-') :=
    fun digit h => not_isDigit h digit
  cases state with
  | sign =>
    rw [completes_sign_cons, next]
    split
    · next zero => simp [zero]
    · next nonzero => split <;> simp [*]
  | zero => exact marked
  | whole =>
    refine digitsThen_cons.trans ?_
    rw [next]
    split
    · next digit =>
      have none : ¬ IsFractionExponent (c :: cs) := by
        rw [isFractionExponent_cons]
        exact fun h => other digit (h.imp And.left fun h => .inl h.1)
      simp [digit, none, Completes]
    · next noDigit => simpa [noDigit] using marked
  | point =>
    rw [completes_point_cons, next]
    split <;> simp [*]
  | fraction =>
    refine digitsThen_cons.trans ?_
    rw [next, isExponent_cons]
    split
    · next digit =>
      have none : ¬ (c = 'e' ∨ c = 'E') := fun h => other digit (.inr (.inl h))
      simp [digit, none, Completes]
    · next noDigit => split <;> simp [*]
  | mark =>
    rw [completes_mark_cons, next]
    split
    · next digit =>
      have none : ¬ (c = '+' ∨ c = '-') := fun h => other digit (.inr (.inr h))
      simp [digit, none]
    · next noDigit => split <;> simp [*]
  | markSign =>
    refine isDigits_cons.trans ?_
    rw [next]
    split <;> simp [*, Completes]
  | exponent =>
    refine allDigits_cons.trans ?_
    rw [next]
    split <;> simp [*, Completes]

/-- A number may end in a state if nothing has to follow. -/
theorem completes_nil {state : NumberState} : state.Completes [] ↔ state.accepts = true := by
  have exponent : IsExponent [] := .inl rfl
  have fraction : IsFractionExponent [] := ⟨[], [], rfl, .inl rfl, exponent⟩
  have digits : ∀ {front rest : List Char}, [] = front ++ rest → ¬ IsDigits front := fun equal all =>
    all.1 (List.nil_eq_append_iff.mp equal).1
  cases state with
  | sign =>
    simp only [Completes, accepts, Bool.false_eq_true, iff_false]
    rintro ⟨whole, rest, equal, (rfl | ⟨all, -⟩), -⟩
    · cases equal
    · exact digits equal all
  | zero => exact iff_of_true fraction rfl
  | whole => exact iff_of_true (digitsThen_nil.mpr fraction) rfl
  | point =>
    simp only [Completes, accepts, Bool.false_eq_true, iff_false]
    rintro ⟨front, rest, equal, all, -⟩
    exact digits equal all
  | fraction => exact iff_of_true (digitsThen_nil.mpr exponent) rfl
  | mark =>
    simp only [Completes, accepts, Bool.false_eq_true, iff_false]
    rintro ⟨sign, front, equal, -, all⟩
    exact all.1 (List.nil_eq_append_iff.mp equal).2
  | markSign => exact iff_of_false (fun all => all.1 rfl) nofun
  | exponent => exact iff_of_true nofun rfl

/-- The reader starts on the numbers of the grammar. -/
theorem isNumber_cons {c : Char} {cs : List Char} :
    IsNumber (c :: cs) ↔ ∃ state, start c = some state ∧ state.Completes cs := by
  have unsigned : sign.Completes (c :: cs) ↔ ∃ state, sign.next c = some state ∧ state.Completes cs :=
    completes_cons
  constructor
  · rintro ⟨front, whole, fraction, exponent, equal, (rfl | rfl), hwhole, hfraction, hexponent⟩
    · have completes : sign.Completes (c :: cs) :=
        ⟨whole, fraction ++ exponent, equal, hwhole, fraction, exponent, rfl, hfraction, hexponent⟩
      have digit : c ≠ '-' := by
        rintro rfl
        rcases completes_sign_cons.mp completes with ⟨zero, -⟩ | ⟨⟨-, digit⟩, -⟩
        · cases zero
        · exact absurd digit (by decide)
      rw [start, if_neg digit]
      exact unsigned.mp completes
    · obtain ⟨rfl, rfl⟩ := List.cons.inj equal
      exact ⟨sign, rfl, whole, fraction ++ exponent, rfl, hwhole, fraction, exponent, rfl, hfraction,
        hexponent⟩
  · rintro ⟨state, started, completes⟩
    rw [start] at started
    split at started
    · next minus =>
      obtain rfl := Option.some.inj started
      obtain ⟨whole, rest, rfl, hwhole, fraction, exponent, rfl, hfraction, hexponent⟩ := completes
      exact ⟨['-'], whole, fraction, exponent, minus ▸ rfl, .inr rfl, hwhole, hfraction, hexponent⟩
    · obtain ⟨whole, rest, equal, hwhole, fraction, exponent, rfl, hfraction, hexponent⟩ :=
        unsigned.mpr ⟨state, started, completes⟩
      exact ⟨[], whole, fraction, exponent, equal, .inl rfl, hwhole, hfraction, hexponent⟩

end Lexer.NumberState

end Legv8.Json
