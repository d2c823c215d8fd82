import Legv8.Program.Hex
import Legv8.Proofs.Text.Numerals
import Mathlib.Data.Nat.Digits.Defs

/-! # Hexadecimal numerals

A word is written as a numeral: an optional radix mark, then hexadecimal digits of either case with
underscores anywhere among them. Every numeral below 2^32 is read as its value, and nothing else is read as
a word but a numeral with one plus sign behind the mark and in front of all digits. -/
namespace Legv8.Text

/-- Digits are read as the number that they spell behind those before them, if that is below the bound. -/
theorem numberBelow?_eq_ite {digit? : Char → Option Nat} {base bound value : Nat} {cs : List Char}
    {digits : List Nat} (positive : 0 < base) (spelled : cs.map digit? = digits.map some)
    (below : value < bound) :
    numberBelow? digit? base bound value cs =
      let n := value * base ^ digits.length + Nat.ofDigits base digits.reverse
      if n < bound then some n else none := by
  induction digits generalizing cs value with
  | nil =>
    obtain rfl : cs = [] := List.map_eq_nil_iff.mp spelled
    simp [numberBelow?, below]
  | cons d rest ih =>
    cases cs with
    | nil => cases spelled
    | cons c cs =>
      rw [List.map_cons, List.map_cons, List.cons.injEq] at spelled
      have shifted : value * base ^ (d :: rest).length + Nat.ofDigits base (d :: rest).reverse =
          (base * value + d) * base ^ rest.length + Nat.ofDigits base rest.reverse := by
        rw [List.reverse_cons, Nat.ofDigits_append, Nat.ofDigits_singleton, List.length_reverse,
          List.length_cons, Nat.pow_succ]
        ring
      rw [numberBelow?, spelled.1, shifted]
      dsimp only
      split
      · next fits => exact ih spelled.2 fits
      · next large =>
        -- further digits only make the number larger
        have grows := Nat.le_mul_of_pos_right (base * value + d) (Nat.pow_pos (n := rest.length) positive)
        exact (if_neg (by omega)).symm

end Legv8.Text

namespace Legv8.Program.Hex

/-! ## Numerals -/

/-- What a numeral is made of behind its radix mark. -/
inductive Glyph where
  | underscore
  | digit (value : Fin 16) (upper : Bool)

namespace Glyph

def char : Glyph → Char
  | underscore => '_'
  | digit value false => Nat.digitChar value
  | digit value true => (Nat.digitChar value).toUpper

/-- The digit that a glyph stands for; an underscore stands for none. -/
def digit? : Glyph → Option Nat
  | underscore => none
  | digit value _ => some value

end Glyph

inductive RadixMark where
  | absent
  | lower
  | upper

def RadixMark.text : RadixMark → List Char
  | absent => []
  | lower => ['0', 'x']
  | upper => ['0', 'X']

/-- A numeral has at least one digit. -/
structure Numeral where
  mark : RadixMark
  glyphs : List Glyph
  some_digit : glyphs.filterMap Glyph.digit? ≠ []

namespace Numeral

/-- The number that the digits spell in base 16, most significant first. -/
def value (n : Numeral) : Nat := Nat.ofDigits 16 (n.glyphs.filterMap Glyph.digit?).reverse

def body (n : Numeral) : List Char := n.glyphs.map Glyph.char

def text (n : Numeral) : List Char := n.mark.text ++ n.body

/-- The text of a numeral with a plus sign behind its radix mark and some underscores. -/
def plusText (n : Numeral) (underscores : Nat) : List Char :=
  n.mark.text ++ (List.replicate underscores '_' ++ '+' :: n.body)

end Numeral

/-! ## Glyphs -/

theorem hexDigit?_char : ∀ (value : Fin 16) (upper : Bool),
    Text.hexDigit? (Glyph.digit value upper).char = some value.val := by decide

/-- Every hexadecimal digit is one of sixteen, in one of two cases. -/
theorem glyph_of_hexDigit? {c : Char} {d : Nat} (h : Text.hexDigit? c = some d) :
    ∃ value upper, c = (Glyph.digit value upper).char := by
  have small : c.toNat < 103 := by
    unfold Text.hexDigit? at h
    split at h
    · next decimal => exact Nat.lt_of_le_of_lt decimal.2 (by decide)
    · split at h
      · next lower => exact Nat.lt_of_le_of_lt lower.2 (by decide)
      · split at h
        · next upper => exact Nat.lt_of_le_of_lt upper.2 (by decide)
        · cases h
  have all : ∀ n < 103, Text.hexDigit? (Char.ofNat n) = none ∨
      ∃ value upper, Char.ofNat n = (Glyph.digit value upper).char := by decide
  rcases all c.toNat small with none_ | glyph
  · rw [Char.ofNat_toNat, h] at none_
    cases none_
  · rwa [Char.ofNat_toNat] at glyph

/-- No glyph is part of a radix mark, a sign, a comment marker or a blank. -/
theorem char_notMem (g : Glyph) : g.char ∉ ['x', 'X', '+', '/', '#'] ∧ Text.isBlank g.char = false := by
  cases g with
  | underscore => decide
  | digit value upper => revert value upper; decide

theorem exists_glyphs {cs : List Char} (h : ∀ c ∈ cs.filter (· ≠ '_'), Text.hexDigit? c ≠ none) :
    ∃ glyphs : List Glyph, cs = glyphs.map Glyph.char := by
  induction cs with
  | nil => exact ⟨[], rfl⟩
  | cons c rest ih =>
    obtain ⟨glyphs, rfl⟩ := ih fun d hd => h d (by
      rw [List.mem_filter] at hd ⊢
      exact ⟨List.mem_cons_of_mem c hd.1, hd.2⟩)
    by_cases separator : c = '_'
    · exact ⟨.underscore :: glyphs, by rw [List.map_cons, separator]; rfl⟩
    · obtain ⟨d, digit⟩ := Option.ne_none_iff_exists'.mp (h c (by simp [separator]))
      obtain ⟨value, upper, rfl⟩ := glyph_of_hexDigit? digit
      exact ⟨.digit value upper :: glyphs, rfl⟩

/-- Without their underscores, glyphs are the digits that they stand for. -/
theorem map_hexDigit?_chars (glyphs : List Glyph) :
    ((glyphs.map Glyph.char).filter (· ≠ '_')).map Text.hexDigit? =
      (glyphs.filterMap Glyph.digit?).map some := by
  induction glyphs with
  | nil => rfl
  | cons g rest ih =>
    cases g with
    | underscore => exact ih
    | digit value upper =>
      have other : (Glyph.digit value upper).char ≠ '_' := by revert value upper; decide
      rw [List.map_cons, List.filter_cons_of_pos (by simpa using other), List.map_cons, ih, hexDigit?_char]
      rfl

/-! ## Words -/

theorem stripRadix_of_notMem {cs : List Char} (lower : 'x' ∉ cs) (upper : 'X' ∉ cs) : stripRadix cs = cs := by
  unfold stripRadix
  split
  · simp at lower
  · simp at upper
  · rfl

theorem stripRadix_mark (mark : RadixMark) {cs : List Char} (lower : 'x' ∉ cs) (upper : 'X' ∉ cs) :
    stripRadix (mark.text ++ cs) = cs := by
  cases mark with
  | absent => exact stripRadix_of_notMem lower upper
  | lower => rfl
  | upper => rfl

theorem exists_mark (cs : List Char) : ∃ mark : RadixMark, cs = mark.text ++ stripRadix cs := by
  unfold stripRadix
  split
  · exact ⟨.lower, rfl⟩
  · exact ⟨.upper, rfl⟩
  · exact ⟨.absent, rfl⟩

theorem signedWord?_unsigned {cs : List Char} (some_ : cs ≠ []) (unsigned : cs.head? ≠ some '+') :
    signedWord? cs = wordOfDigits? cs := by
  unfold signedWord?
  split
  · exact absurd rfl some_
  · exact absurd rfl unsigned
  · exact absurd rfl unsigned
  · rfl

theorem signedWord?_plus {cs : List Char} (some_ : cs ≠ []) : signedWord? ('+' :: cs) = wordOfDigits? cs := by
  cases cs with
  | nil => exact absurd rfl some_
  | cons c rest => rfl

namespace Numeral

variable (n : Numeral)

/-- The digits of a numeral without the underscores among them. -/
def plain (n : Numeral) : List Char := n.body.filter (· ≠ '_')

theorem notMem_body {c : Char} (h : c ∈ ['x', 'X', '+', '/', '#']) : c ∉ n.body := by
  intro mem
  obtain ⟨g, _, rfl⟩ := List.mem_map.mp mem
  exact (char_notMem g).1 h

theorem plain_ne_nil : n.plain ≠ [] := by
  intro empty
  have digits := map_hexDigit?_chars n.glyphs
  rw [show (n.glyphs.map Glyph.char).filter (· ≠ '_') = [] from empty, List.map_nil, eq_comm,
    List.map_eq_nil_iff] at digits
  exact n.some_digit digits

theorem head?_plain : n.plain.head? ≠ some '+' := fun first =>
  n.notMem_body (by decide) (List.mem_of_mem_filter (List.mem_of_head? first))

/-- The digits of a numeral are read as its value, if 32 bits hold that. -/
theorem wordOfDigits?_plain : wordOfDigits? n.plain =
    if n.value < UInt32.size then some n.value.toUInt32 else none := by
  have read := Text.numberBelow?_eq_ite (show 0 < 16 by decide) (map_hexDigit?_chars n.glyphs)
    (show 0 < UInt32.size by decide)
  dsimp only at read
  rw [Nat.zero_mul, Nat.zero_add] at read
  refine (congrArg (Option.map Nat.toUInt32) read).trans ?_
  rw [apply_ite (Option.map Nat.toUInt32)]
  rfl

theorem word?_text : word? n.text = if n.value < UInt32.size then some n.value.toUInt32 else none := by
  rw [word?, text, stripRadix_mark _ (n.notMem_body (by decide)) (n.notMem_body (by decide)),
    ← wordOfDigits?_plain]
  exact signedWord?_unsigned n.plain_ne_nil n.head?_plain

theorem word?_plusText (underscores : Nat) : word? (n.plusText underscores) =
    if n.value < UInt32.size then some n.value.toUInt32 else none := by
  have unmarked : ∀ c ∈ ['x', 'X'], c ∉ List.replicate underscores '_' ++ '+' :: n.body := by
    intro c hc mem
    rcases List.mem_append.mp mem with early | late
    · rw [List.eq_of_mem_replicate early] at hc
      exact absurd hc (by decide)
    · rcases List.mem_cons.mp late with rfl | later
      · exact absurd hc (by decide)
      · exact n.notMem_body (List.mem_append_left ['+', '/', '#'] hc) later
  have kept : (List.replicate underscores '_' ++ '+' :: n.body).filter (· ≠ '_') = '+' :: n.plain := by
    rw [List.filter_append, List.filter_replicate_of_neg (by decide), List.nil_append,
      List.filter_cons_of_pos (by decide)]
    rfl
  rw [word?, plusText, stripRadix_mark _ (unmarked 'x' (by decide)) (unmarked 'X' (by decide)), kept,
    signedWord?_plus n.plain_ne_nil, wordOfDigits?_plain]

end Numeral

/-- What is read as digits is the body of a numeral. -/
theorem exists_body {cs : List Char} {w : Word} (mark : RadixMark) (some_ : cs.filter (· ≠ '_') ≠ [])
    (h : wordOfDigits? (cs.filter (· ≠ '_')) = some w) : ∃ n : Numeral, n.mark = mark ∧ cs = n.body := by
  obtain ⟨value, read, _⟩ := Option.map_eq_some_iff.mp h
  obtain ⟨glyphs, rfl⟩ := exists_glyphs (Text.digit?_ne_none read)
  refine ⟨⟨mark, glyphs, fun none_ => some_ ?_⟩, rfl, rfl⟩
  have digits := map_hexDigit?_chars glyphs
  rwa [none_, List.map_nil, List.map_eq_nil_iff] at digits

/-- Whatever is read as a word is a numeral, or one with a plus sign in front of its digits. -/
theorem numeral_of_word? {cs : List Char} {w : Word} (h : word? cs = some w) :
    ∃ n : Numeral, cs = n.text ∨ ∃ underscores, cs = n.plusText underscores := by
  obtain ⟨mark, split⟩ := exists_mark cs
  rw [word?] at h
  generalize stripRadix cs = body at split h
  subst split
  by_cases plus : (body.filter (· ≠ '_')).head? = some '+'
  · obtain ⟨rest, digits⟩ := List.head?_eq_some_iff.mp plus
    obtain ⟨front, back, rfl, underscores, _, rfl⟩ := List.filter_eq_cons_iff.mp digits
    have some_ : back.filter (· ≠ '_') ≠ [] := fun none_ => by
      rw [digits, none_] at h
      cases h
    rw [digits, signedWord?_plus some_] at h
    obtain ⟨n, rfl, rfl⟩ := exists_body mark some_ h
    have run : front = List.replicate front.length '_' :=
      List.eq_replicate_iff.mpr ⟨rfl, fun c hc => by simpa using underscores c hc⟩
    exact ⟨n, .inr ⟨front.length, by rw [Numeral.plusText, ← run]⟩⟩
  · have some_ : body.filter (· ≠ '_') ≠ [] := fun none_ => by
      rw [none_] at h
      cases h
    rw [signedWord?_unsigned some_ plus] at h
    obtain ⟨n, rfl, rfl⟩ := exists_body mark some_ h
    exact ⟨n, .inl rfl⟩

/-- What is read as a word: the numerals below 2^32, without a sign or with a plus sign behind the radix
mark and in front of the first digit. -/
theorem word?_eq_some_iff {cs : List Char} {w : Word} : word? cs = some w ↔
    ∃ n : Numeral, n.value = w.toNat ∧ (cs = n.text ∨ ∃ underscores, cs = n.plusText underscores) := by
  have value : ∀ n : Numeral, (if n.value < UInt32.size then some n.value.toUInt32 else none) = some w ↔
      n.value = w.toNat := by
    intro n
    constructor
    · intro h
      split at h
      · next fits => rw [← Option.some.inj h, Nat.toUInt32, UInt32.toNat_ofNat_of_lt' fits]
      · cases h
    · intro h
      rw [h, if_pos w.toNat_lt, Nat.toUInt32, UInt32.ofNat_toNat]
  constructor
  · intro h
    obtain ⟨n, form⟩ := numeral_of_word? h
    refine ⟨n, (value n).mp ?_, form⟩
    rcases form with rfl | ⟨underscores, rfl⟩
    · rwa [n.word?_text] at h
    · rwa [n.word?_plusText] at h
  · rintro ⟨n, spelled, rfl | ⟨underscores, rfl⟩⟩
    · rw [n.word?_text, value, spelled]
    · rw [n.word?_plusText, value, spelled]

end Legv8.Program.Hex
