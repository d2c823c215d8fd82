import Legv8.Json
import Mathlib.Data.List.Basic

/-! # The grammar of JSON texts

A JSON text is a sequence of tokens, with blanks between any two of them and at both ends. The tokens of a
value are fixed: a value keeps its numbers as they are written, and its members in their order. How a token
may be written is left open only for strings, by escapes. `Json.WrittenAs` is the relation of a value to
all of its texts; it does not mention how a text is read. -/
namespace Legv8.Json

/-! ## Blanks -/

def Blank (cs : List Char) : Prop := ∀ c ∈ cs, c = ' ' ∨ c = '\t' ∨ c = '\n' ∨ c = '\r'

/-! ## Numbers -/

def AllDigits (cs : List Char) : Prop := ∀ c ∈ cs, c.isDigit = true

/-- One digit or more. -/
def IsDigits (cs : List Char) : Prop := cs ≠ [] ∧ AllDigits cs

/-- The digits before the point. Only a zero that stands alone is in front. -/
def IsWhole (cs : List Char) : Prop := cs = ['0'] ∨ IsDigits cs ∧ cs.head? ≠ some '0'

def IsFraction (cs : List Char) : Prop := cs = [] ∨ ∃ digits, cs = '.' :: digits ∧ IsDigits digits

def IsExponent (cs : List Char) : Prop :=
  cs = [] ∨ ∃ mark sign digits, cs = mark :: (sign ++ digits) ∧ (mark = 'e' ∨ mark = 'E') ∧
    (sign = [] ∨ sign = ['+'] ∨ sign = ['-']) ∧ IsDigits digits

def IsNumber (cs : List Char) : Prop :=
  ∃ sign whole fraction exponent, cs = sign ++ (whole ++ (fraction ++ exponent)) ∧
    (sign = [] ∨ sign = ['-']) ∧ IsWhole whole ∧ IsFraction fraction ∧ IsExponent exponent

/-! ## Strings -/

/-- What a string is made of between its quotes. -/
inductive Piece where
  | char (c : Char)
  /-- A 16-bit unit, which is a character or half of a surrogate pair. -/
  | unit (value : Nat)

/-- The letters that stand for a character behind a backslash. -/
def shortEscapes : List (Char × Char) :=
  [('"', '"'), ('\\', '\\'), ('/', '/'), ('b', Char.ofNat 8), ('f', Char.ofNat 12), ('n', '\n'),
    ('r', '\r'), ('t', '\t')]

/-- The ways to write a piece. -/
inductive Piece.WrittenAs : Piece → List Char → Prop
  | plain {c} : c ≠ '"' → c ≠ '\\' → 32 ≤ c.toNat → WrittenAs (.char c) [c]
  | escaped {letter c} : (letter, c) ∈ shortEscapes → WrittenAs (.char c) ['\\', letter]
  | unit {c₃ c₂ c₁ c₀ d₃ d₂ d₁ d₀} :
      Text.hexDigit? c₃ = some d₃ → Text.hexDigit? c₂ = some d₂ → Text.hexDigit? c₁ = some d₁ →
        Text.hexDigit? c₀ = some d₀ →
      WrittenAs (.unit (16 * (16 * (16 * d₃ + d₂) + d₁) + d₀)) ['\\', 'u', c₃, c₂, c₁, c₀]

/-- The pieces of a string one behind the other. -/
inductive PiecesWrittenAs : List Piece → List Char → Prop
  | nil : PiecesWrittenAs [] []
  | cons {p ps cs ds} : p.WrittenAs cs → PiecesWrittenAs ps ds → PiecesWrittenAs (p :: ps) (cs ++ ds)

def IsHighSurrogate (u : Nat) : Prop := 0xD800 ≤ u ∧ u < 0xDC00

def IsLowSurrogate (u : Nat) : Prop := 0xDC00 ≤ u ∧ u < 0xE000

instance (u : Nat) : Decidable (IsHighSurrogate u) := inferInstanceAs (Decidable (_ ∧ _))

instance (u : Nat) : Decidable (IsLowSurrogate u) := inferInstanceAs (Decidable (_ ∧ _))

/-- The character beyond the 16-bit ones that a pair of surrogates stands for. -/
def pairChar (high low : Nat) : Char :=
  Char.ofNat (0x10000 + (high - 0xD800) * 0x400 + (low - 0xDC00))

/-- The text that pieces spell. A high surrogate with a low one right behind it is one character; with any
other surrogate there is no text. -/
def text? : List Piece → Option (List Char)
  | [] => some []
  | .char c :: rest => (text? rest).map (c :: ·)
  | .unit u :: rest =>
    if IsHighSurrogate u then
      match rest with
      | .unit low :: rest =>
        if IsLowSurrogate low then (text? rest).map (pairChar u low :: ·) else none
      | _ => none
    else if IsLowSurrogate u then none
    else (text? rest).map (Char.ofNat u :: ·)

theorem text?_of_low {u : Nat} (noHigh : ¬ IsHighSurrogate u) (low : IsLowSurrogate u) (rest : List Piece) :
    text? (.unit u :: rest) = none := by
  rw [text?.eq_def]
  simp only [if_neg noHigh, if_pos low]

theorem text?_unit {u : Nat} (noHigh : ¬ IsHighSurrogate u) (noLow : ¬ IsLowSurrogate u)
    (rest : List Piece) : text? (.unit u :: rest) = (text? rest).map (Char.ofNat u :: ·) := by
  rw [text?.eq_def]
  simp only [if_neg noHigh, if_neg noLow]

/-! ## Tokens -/

/-- The ways to write a token. -/
inductive Token.WrittenAs : Token → List Char → Prop
  | openObject : WrittenAs .openObject ['\x7b']
  | closeObject : WrittenAs .closeObject ['\x7d']
  | openArray : WrittenAs .openArray ['[']
  | closeArray : WrittenAs .closeArray [']']
  | comma : WrittenAs .comma [',']
  | colon : WrittenAs .colon [':']
  | null : WrittenAs .null ['n', 'u', 'l', 'l']
  | true : WrittenAs (.bool true) ['t', 'r', 'u', 'e']
  | false : WrittenAs (.bool false) ['f', 'a', 'l', 's', 'e']
  | number {cs} : IsNumber cs → WrittenAs (.number (String.ofList cs)) cs
  | string {ps cs} : PiecesWrittenAs ps cs →
      WrittenAs (.string ((text? ps).map String.ofList)) ('"' :: (cs ++ ['"']))

/-- Tokens one behind the other, with blanks anywhere between them. -/
inductive TokensWrittenAs : List Token → List Char → Prop
  | nil {bs} : Blank bs → TokensWrittenAs [] bs
  | cons {t ts bs cs ds} : Blank bs → t.WrittenAs cs → TokensWrittenAs ts ds →
      TokensWrittenAs (t :: ts) (bs ++ (cs ++ ds))

theorem Blank.append {bs cs : List Char} (hb : Blank bs) (hc : Blank cs) : Blank (bs ++ cs) :=
  fun c h => (List.mem_append.mp h).elim (hb c) (hc c)

theorem TokensWrittenAs.blank_append {ts : List Token} {bs cs : List Char} (h : TokensWrittenAs ts cs)
    (hb : Blank bs) : TokensWrittenAs ts (bs ++ cs) := by
  cases h with
  | nil blank => exact .nil (hb.append blank)
  | cons blank written later =>
    rw [← List.append_assoc]
    exact .cons (hb.append blank) written later

/-! ## Values -/

mutual

/-- The tokens of a value. -/
def tokens : Json → List Token
  | .null => [.null]
  | .bool b => [.bool b]
  | .number literal => [.number literal]
  | .string text => [.string text]
  | .array [] => [.openArray, .closeArray]
  | .array (v :: rest) => .openArray :: (v.tokens ++ (laterItems rest ++ [.closeArray]))
  | .object [] => [.openObject, .closeObject]
  | .object ((name, v) :: rest) =>
    .openObject :: .string name :: .colon :: (v.tokens ++ (laterMembers rest ++ [.closeObject]))

/-- The items of an array behind its first one. -/
def laterItems : List Json → List Token
  | [] => []
  | v :: rest => .comma :: (v.tokens ++ laterItems rest)

/-- The members of an object behind its first one. -/
def laterMembers : List (Option String × Json) → List Token
  | [] => []
  | (name, v) :: rest => .comma :: .string name :: .colon :: (v.tokens ++ laterMembers rest)

end

/-- The value is what the text spells. -/
def WrittenAs (v : Json) (text : String) : Prop := TokensWrittenAs v.tokens text.toList

/-! ## Numbers that are written out -/

theorem head?_toDigits {n : Nat} (positive : 0 < n) : (Nat.toDigits 10 n).head? ≠ some '0' := by
  induction n using Nat.strongRecOn with
  | ind n ih =>
    rw [Nat.toDigits_eq_if (by decide)]
    split
    · next small =>
      have digits : ∀ d < 10, 0 < d → Nat.digitChar d ≠ '0' := by decide
      simpa using digits n small positive
    · next large =>
      have front := ih (n / 10) (by omega) (by omega)
      rwa [List.head?_append_of_ne_nil _ Nat.toDigits_ne_nil]

theorem isNumber_decimal (n : Nat) : IsNumber (Text.decimal n).toList := by
  have digits : IsDigits (Nat.toDigits 10 n) :=
    ⟨Nat.toDigits_ne_nil, fun c hc => Nat.isDigit_of_mem_toDigits (by decide) (by decide) hc⟩
  have whole : IsWhole (Nat.toDigits 10 n) := by
    rcases Nat.eq_zero_or_pos n with rfl | positive
    · exact .inl rfl
    · exact .inr ⟨digits, head?_toDigits positive⟩
  refine ⟨[], Nat.toDigits 10 n, [], [], ?_, .inl rfl, whole, .inl rfl, .inl rfl⟩
  simp [Text.decimal]

/-- All numbers in the value are numbers of the grammar. -/
inductive WellFormed : Json → Prop
  | null : WellFormed .null
  | bool (b : Bool) : WellFormed (.bool b)
  | number {literal : String} : IsNumber literal.toList → WellFormed (.number literal)
  | string (text : Option String) : WellFormed (.string text)
  | array {items : List Json} : (∀ v ∈ items, WellFormed v) → WellFormed (.array items)
  | object {members : List (Option String × Json)} :
      (∀ m ∈ members, WellFormed m.2) → WellFormed (.object members)

theorem wellFormed_ofNat (n : Nat) : (ofNat n).WellFormed := .number (isNumber_decimal n)

theorem wellFormed_ofOptionNat : (n : Option Nat) → (ofOptionNat n).WellFormed
  | some n => wellFormed_ofNat n
  | none => .null

theorem wellFormed_ofMembers {members : List (String × Json)} (h : ∀ m ∈ members, m.2.WellFormed) :
    (ofMembers members).WellFormed := by
  refine .object fun m hm => ?_
  obtain ⟨m, given, rfl⟩ := List.mem_map.mp hm
  exact h m given

end Legv8.Json
