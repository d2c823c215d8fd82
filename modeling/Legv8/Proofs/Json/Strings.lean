import Legv8.Json.Lexer
import Legv8.Proofs.Json.Grammar

/-! # Strings read piece by piece

The string reader takes one piece after the other and keeps the text that they spell, the way the grammar
has it: a waiting high surrogate is completed by a low one right behind it, and otherwise the text is
lost. -/
namespace Legv8.Json

namespace Lexer

/-! ## The text of the pieces -/

/-- The string with one more piece. -/
def Partial.feed (read : Partial) : Piece → Partial
  | .char c => read.push c
  | .unit u => read.pushUnit u

theorem Partial.text_feed_none {read : Partial} (p : Piece) (h : read.text = none) :
    (read.feed p).text = none := by
  obtain ⟨text, high⟩ := read
  obtain rfl : text = none := h
  cases p with
  | char c => cases high <;> rfl
  | unit u =>
    simp only [feed, pushUnit]
    split
    · cases high <;> rfl
    · split
      · cases high <;> rfl
      · cases high <;> rfl

/-- A text that is lost stays lost. -/
theorem finish_of_lost {read : Partial} (ps : List Piece) (h : read.text = none) :
    (ps.foldl Partial.feed read).finish = none := by
  induction ps generalizing read with
  | nil =>
    obtain ⟨text, high⟩ := read
    obtain rfl : text = none := h
    cases high <;> rfl
  | cons p ps ih => exact ih (Partial.text_feed_none p h)

/-- A waiting high surrogate is lost unless a low one follows. -/
theorem finish_of_waiting {text : Option (List Char)} {high : Nat} {ps : List Piece}
    (h : ∀ low rest, ps = .unit low :: rest → ¬ IsLowSurrogate low) :
    (ps.foldl Partial.feed ⟨text, some high⟩).finish = none := by
  cases ps with
  | nil => rfl
  | cons p rest =>
    refine finish_of_lost rest ?_
    cases p with
    | char c => rfl
    | unit u =>
      have noLow : ¬ (0xDC00 ≤ u ∧ u < 0xE000) := h u rest rfl
      simp only [Partial.feed, Partial.pushUnit, if_neg noLow]
      split <;> rfl

/-- The reader keeps the text that the pieces spell. -/
theorem finish_feed (cs : List Char) (ps : List Piece) :
    (ps.foldl Partial.feed ⟨some cs, none⟩).finish =
      (text? ps).map fun ds => String.ofList (cs.reverse ++ ds) := by
  have grown : ∀ (c : Char) (cs ds : List Char), (c :: cs).reverse ++ ds = cs.reverse ++ c :: ds := by simp
  -- a high surrogate waits, and any other unit is taken at once
  have waits : ∀ {u}, IsHighSurrogate u → ∀ cs,
      Partial.feed ⟨some cs, none⟩ (.unit u) = ⟨some cs, some u⟩ := fun high _ => if_pos high
  have taken : ∀ {u}, ¬ IsHighSurrogate u → ∀ cs, Partial.feed ⟨some cs, none⟩ (.unit u) =
      if IsLowSurrogate u then ⟨none, none⟩ else ⟨some (Char.ofNat u :: cs), none⟩ :=
    fun noHigh _ => if_neg noHigh
  induction ps using text?.induct generalizing cs with
  | case1 => simp [text?, Partial.finish]
  | case2 c rest ih =>
    rw [List.foldl_cons, text?, Option.map_map]
    exact (ih (c :: cs)).trans (by simp only [grown]; rfl)
  | case3 u high low rest isLow ih =>
    have noHigh : ¬ (0xD800 ≤ low ∧ low < 0xDC00) := fun h => absurd isLow.1 (by omega)
    have paired : Partial.feed ⟨some cs, some u⟩ (.unit low) = ⟨some (pairChar u low :: cs), none⟩ :=
      (if_neg noHigh).trans (if_pos isLow)
    rw [List.foldl_cons, waits high, List.foldl_cons, paired, text?, if_pos high, if_pos isLow,
      Option.map_map]
    exact (ih (pairChar u low :: cs)).trans (by simp only [grown]; rfl)
  | case4 u high low rest noLow =>
    rw [List.foldl_cons, waits high, finish_of_waiting, text?, if_pos high, if_neg noLow]
    · rfl
    · intro l r equal
      cases equal
      exact noLow
  | case5 u rest high noUnit =>
    rw [List.foldl_cons, waits high, finish_of_waiting fun l r equal => (noUnit l r equal).elim, text?,
      if_pos high]
    · rfl
    · exact noUnit
  | case6 u rest noHigh low =>
    rw [List.foldl_cons, taken noHigh, if_pos low, finish_of_lost rest rfl, text?_of_low noHigh low]
    rfl
  | case7 u rest noHigh noLow ih =>
    rw [List.foldl_cons, taken noHigh, if_neg noLow, text?_unit noHigh noLow, Option.map_map]
    exact (ih (Char.ofNat u :: cs)).trans (by simp only [grown]; rfl)

/-! ## The pieces of a text -/

theorem escaped?_eq_some_iff {letter c : Char} : escaped? letter = some c ↔ (letter, c) ∈ shortEscapes := by
  constructor
  · intro h
    unfold escaped? at h
    split at h
    · next self =>
      obtain rfl := Option.some.inj h
      rcases self with rfl | rfl | rfl <;> decide
    · repeat' split at h
      all_goals cases h
      all_goals next letter => rw [letter]; decide
  · intro h
    simp only [shortEscapes, List.mem_cons, Prod.mk.injEq, List.not_mem_nil, or_false] at h
    rcases h with ⟨rfl, rfl⟩ | ⟨rfl, rfl⟩ | ⟨rfl, rfl⟩ | ⟨rfl, rfl⟩ | ⟨rfl, rfl⟩ | ⟨rfl, rfl⟩ | ⟨rfl, rfl⟩ |
      ⟨rfl, rfl⟩ <;> rfl

/-! ## Reading pieces -/

theorem run_cons {mode next : Mode} {c : Char} {new : List Token} (h : step mode c = some (next, new))
    (rest : List Char) (tokens : List Token) :
    run (c :: rest) mode tokens = run rest next (new.reverse ++ tokens) := by
  rw [run, h]

theorem exists_step {mode : Mode} {c : Char} {rest : List Char} {tokens result : List Token}
    (h : run (c :: rest) mode tokens = some result) :
    ∃ next new, step mode c = some (next, new) ∧ run rest next (new.reverse ++ tokens) = some result := by
  rw [run] at h
  split at h
  · cases h
  · next next new taken => exact ⟨next, new, taken, h⟩

/-- Where the reader is behind one more digit of a unit. -/
def digitMode (read : Partial) (left value digit : Nat) : Mode :=
  match left with
  | 0 => .string (read.pushUnit (16 * value + digit)) .none
  | n + 1 => .string read (.unit n (16 * value + digit))

theorem step_unit {c : Char} {next : Mode × List Token} {read : Partial} {left value : Nat} :
    step (.string read (.unit left value)) c = some next ↔
      ∃ digit, Text.hexDigit? c = some digit ∧ next = (digitMode read left value digit, []) := by
  rw [step, stepString, show hexValue? c = Text.hexDigit? c from rfl, Option.map_eq_some_iff]
  refine exists_congr fun digit => and_congr_right fun _ => ?_
  cases left <;> exact eq_comm

theorem step_backslash {c : Char} {next : Mode × List Token} {read : Partial} :
    step (.string read .backslash) c = some next ↔
      c = 'u' ∧ next = (.string read (.unit 3 0), []) ∨
        ∃ d, (c, d) ∈ shortEscapes ∧ next = (.string (read.push d) .none, []) := by
  rw [step, stepString]
  split
  · next letter =>
    have noEscape : ¬ ∃ d, (c, d) ∈ shortEscapes ∧ next = (.string (read.push d) .none, []) := by
      rintro ⟨d, h, -⟩
      rw [letter] at h
      exact absurd (escaped?_eq_some_iff.mpr h) nofun
    rw [or_iff_left noEscape, and_iff_right letter, Option.some.injEq, eq_comm]
  · next noUnit =>
    simp only [noUnit, false_and, false_or, Option.map_eq_some_iff, ← escaped?_eq_some_iff]
    exact exists_congr fun d => and_congr_right fun _ => eq_comm

theorem step_string {c : Char} {next : Mode × List Token} {read : Partial} :
    step (.string read .none) c = some next ↔
      c = '"' ∧ next = (.between, [.string read.finish]) ∨
        c = '\\' ∧ next = (.string read .backslash, []) ∨
          (c ≠ '"' ∧ c ≠ '\\' ∧ 32 ≤ c.toNat) ∧ next = (.string (read.push c) .none, []) := by
  rw [step, stepString]
  split
  · next quote => simp [quote, eq_comm]
  · next noQuote =>
    split
    · next escape => simp [escape, eq_comm]
    · next noEscape =>
      split
      · next control => simp [noQuote, noEscape, Nat.not_le.mpr control]
      · next printable => simp [noQuote, noEscape, Nat.not_lt.mp printable, eq_comm]

theorem run_piece {p : Piece} {cs : List Char} (h : p.WrittenAs cs) (read : Partial) (rest : List Char)
    (tokens : List Token) :
    run (cs ++ rest) (.string read .none) tokens = run rest (.string (read.feed p) .none) tokens := by
  cases h with
  | plain noQuote noEscape printable =>
    exact run_cons (step_string.mpr (.inr (.inr ⟨⟨noQuote, noEscape, printable⟩, rfl⟩))) rest tokens
  | escaped h =>
    exact (run_cons (step_string.mpr (.inr (.inl ⟨rfl, rfl⟩))) _ tokens).trans
      (run_cons (step_backslash.mpr (.inr ⟨_, h, rfl⟩)) rest tokens)
  | unit h₃ h₂ h₁ h₀ =>
    refine (run_cons (step_string.mpr (.inr (.inl ⟨rfl, rfl⟩))) _ tokens).trans ?_
    refine (run_cons (step_backslash.mpr (.inl ⟨rfl, rfl⟩)) _ tokens).trans ?_
    refine (run_cons (step_unit.mpr ⟨_, h₃, rfl⟩) _ tokens).trans ?_
    refine (run_cons (step_unit.mpr ⟨_, h₂, rfl⟩) _ tokens).trans ?_
    refine (run_cons (step_unit.mpr ⟨_, h₁, rfl⟩) _ tokens).trans ?_
    refine (run_cons (step_unit.mpr ⟨_, h₀, rfl⟩) rest tokens).trans ?_
    simp only [digitMode, Nat.mul_zero, Nat.zero_add]
    rfl

theorem run_pieces {ps : List Piece} {cs : List Char} (h : PiecesWrittenAs ps cs) (read : Partial)
    (rest : List Char) (tokens : List Token) :
    run (cs ++ '"' :: rest) (.string read .none) tokens =
      run rest .between (.string (ps.foldl Partial.feed read).finish :: tokens) := by
  induction h generalizing read with
  | nil => rfl
  | cons first _ ih => rw [List.append_assoc, run_piece first, ih, List.foldl_cons]

/-- What the reader takes behind a backslash completes a piece. -/
theorem exists_escape {cs : List Char} {read : Partial} {tokens result : List Token}
    (h : run cs (.string read .backslash) tokens = some result) :
    ∃ p body rest, cs = body ++ rest ∧ p.WrittenAs ('\\' :: body) ∧
      run rest (.string (read.feed p) .none) tokens = some result := by
  -- inside a unit the text cannot end
  have digit : ∀ {cs left value}, run cs (.string read (.unit left value)) tokens = some result →
      ∃ c d rest, cs = c :: rest ∧ Text.hexDigit? c = some d ∧
        run rest (digitMode read left value d) tokens = some result := by
    intro cs left value h
    cases cs with
    | nil => cases h
    | cons c rest =>
      obtain ⟨next, new, taken, later⟩ := exists_step h
      obtain ⟨d, hd, equal⟩ := step_unit.mp taken
      cases equal
      exact ⟨c, d, rest, rfl, hd, later⟩
  cases cs with
  | nil => cases h
  | cons c rest =>
    obtain ⟨next, new, taken, later⟩ := exists_step h
    rcases step_backslash.mp taken with ⟨rfl, equal⟩ | ⟨d, escape, equal⟩
    · cases equal
      obtain ⟨c₃, d₃, _, rfl, h₃, later⟩ := digit later
      obtain ⟨c₂, d₂, _, rfl, h₂, later⟩ := digit later
      obtain ⟨c₁, d₁, _, rfl, h₁, later⟩ := digit later
      obtain ⟨c₀, d₀, rest, rfl, h₀, later⟩ := digit later
      refine ⟨_, ['u', c₃, c₂, c₁, c₀], rest, rfl, .unit h₃ h₂ h₁ h₀, ?_⟩
      simp only [digitMode, Nat.mul_zero, Nat.zero_add] at later
      exact later
    · cases equal
      exact ⟨.char d, [c], rest, rfl, .escaped escape, later⟩

/-- What the reader takes for a string is made of pieces, up to a quote. -/
theorem exists_pieces {cs : List Char} {read : Partial} {tokens result : List Token}
    (h : run cs (.string read .none) tokens = some result) :
    ∃ ps body rest, cs = body ++ '"' :: rest ∧ PiecesWrittenAs ps body ∧
      run rest .between (.string (ps.foldl Partial.feed read).finish :: tokens) = some result := by
  induction hn : cs.length using Nat.strongRecOn generalizing cs read with
  | ind n ih =>
    cases cs with
    | nil => cases h
    | cons c rest =>
      -- what stands behind a first piece is shorter
      have behind : ∀ {p body later}, rest = body ++ later → p.WrittenAs (c :: body) →
          run later (.string (read.feed p) .none) tokens = some result →
          ∃ ps body rest', c :: rest = body ++ '"' :: rest' ∧ PiecesWrittenAs ps body ∧
            run rest' .between (.string (ps.foldl Partial.feed read).finish :: tokens) = some result := by
        rintro p body later rfl written goesOn
        obtain ⟨ps, body', rest', rfl, pieces, done⟩ := ih later.length (by simp at hn; omega) goesOn rfl
        exact ⟨p :: ps, c :: body ++ body', rest', by simp, .cons written pieces, done⟩
      obtain ⟨next, new, taken, later⟩ := exists_step h
      rcases step_string.mp taken with ⟨rfl, equal⟩ | ⟨rfl, equal⟩ | ⟨⟨noQuote, noEscape, printable⟩, equal⟩
      · cases equal
        exact ⟨[], [], rest, rfl, .nil, later⟩
      · cases equal
        obtain ⟨p, body, rest', equal, written, goesOn⟩ := exists_escape later
        exact behind equal written goesOn
      · cases equal
        exact behind (show rest = [] ++ rest from rfl) (.plain noQuote noEscape printable) later

end Lexer

end Legv8.Json
