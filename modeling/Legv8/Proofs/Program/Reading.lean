import Legv8.Proofs.Program.Line
import Mathlib.Data.List.Forall2
import Mathlib.Data.List.ReduceOption

/-! # Program texts

A program text is read line by line. It is accepted if every line holds nothing or a word, and then comes
to the words in the order of their lines; otherwise it is refused at the first line that does not, with the
number of that line and its code. -/
namespace Legv8.Program.Hex

/-! ## Lines -/

theorem linesFrom_eq (line : List Char) (done : List (List Char)) (text : List Char) :
    linesFrom line done text = done.reverse ++ List.splitOnPPrepend (· == '\n') text line := by
  induction text generalizing line done with
  | nil => rw [linesFrom, List.reverse_cons, List.splitOnPPrepend_nil]
  | cons c rest ih =>
    rw [linesFrom, List.splitOnPPrepend_cons_eq_if]
    by_cases ends : c = '\n'
    · rw [if_pos ends, if_pos (beq_iff_eq.mpr ends), ih, List.reverse_cons, List.append_assoc]
      rfl
    · rw [if_neg ends, if_neg (by simpa using ends), ih]

theorem lines_eq_splitOn (text : List Char) : lines text = text.splitOn '\n' := linesFrom_eq [] [] text

theorem parseLines_cons (n : Nat) (line : List Char) (rest : List (List Char)) (words : List Word) :
    parseLines n (line :: rest) words =
      match content? line with
      | some content => parseLines (n + 1) rest (content.toList ++ words)
      | none => .error (.invalidWord n (String.ofList (code line))) := by
  rw [parseLines, content?]
  rcases code line with _ | ⟨c, cs⟩
  · rfl
  · dsimp only
    rw [if_neg (List.cons_ne_nil c cs)]
    cases word? (c :: cs) <;> rfl

/-! ## Acceptance -/

/-- Lines are read as words exactly if each of them holds nothing or a word. -/
theorem parseLines_eq_ok_iff {n : Nat} {ls : List (List Char)} {words read : List Word} :
    parseLines n ls words = .ok read ↔ ∃ contents : List (Option Word),
      List.Forall₂ (fun line content => content? line = some content) ls contents ∧
        read = words.reverse ++ contents.reduceOption := by
  induction ls generalizing n words with
  | nil =>
    rw [parseLines]
    simp [eq_comm]
  | cons line rest ih =>
    rw [parseLines_cons]
    cases here : content? line with
    | none =>
      refine ⟨nofun, ?_⟩
      rintro ⟨contents, holds, _⟩
      cases holds with
      | cons first _ =>
        rw [here] at first
        cases first
    | some content =>
      have front : ∀ contents : List (Option Word), (content.toList ++ words).reverse ++ contents.reduceOption =
          words.reverse ++ (content :: contents).reduceOption := by
        intro contents
        cases content with
        | none => rfl
        | some w => simp
      refine ih.trans ⟨?_, ?_⟩
      · rintro ⟨contents, holds, rfl⟩
        exact ⟨content :: contents, .cons here holds, front contents⟩
      · rintro ⟨contents, holds, rfl⟩
        cases holds with
        | cons first holds =>
          obtain rfl : content = _ := Option.some.inj (here.symm.trans first)
          exact ⟨_, holds, (front _).symm⟩

/-- Lines are refused exactly at the first of them that holds neither. -/
theorem parseLines_eq_error_iff {n : Nat} {ls : List (List Char)} {words : List Word} {err : ProgramError} :
    parseLines n ls words = .error err ↔ ∃ before line after, ls = before ++ line :: after ∧
      (∀ l ∈ before, content? l ≠ none) ∧ content? line = none ∧
        err = .invalidWord (n + before.length) (String.ofList (code line)) := by
  induction ls generalizing n words with
  | nil => simp [parseLines]
  | cons line rest ih =>
    rw [parseLines_cons]
    cases here : content? line with
    | none =>
      constructor
      · intro refused
        exact ⟨[], line, rest, rfl, by simp, here, (Except.error.inj refused).symm⟩
      · rintro ⟨before, bad, after, split, good, refused, rfl⟩
        cases before with
        | nil =>
          obtain ⟨rfl, _⟩ := List.cons.inj split
          rfl
        | cons l before =>
          obtain ⟨rfl, _⟩ := List.cons.inj split
          exact absurd here (good line List.mem_cons_self)
    | some content =>
      refine ih.trans ⟨?_, ?_⟩
      · rintro ⟨before, bad, after, rfl, good, refused, rfl⟩
        refine ⟨line :: before, bad, after, rfl, ?_, refused, ?_⟩
        · intro l hl
          rcases List.mem_cons.mp hl with rfl | later
          · rw [here]
            exact Option.some_ne_none content
          · exact good l later
        · rw [List.length_cons, Nat.add_assoc, Nat.add_comm 1]
      · rintro ⟨before, bad, after, split, good, refused, rfl⟩
        cases before with
        | nil =>
          obtain ⟨rfl, _⟩ := List.cons.inj split
          rw [here] at refused
          cases refused
        | cons l before =>
          obtain ⟨rfl, rfl⟩ := List.cons.inj split
          refine ⟨before, bad, after, rfl, fun l hl => good l (List.mem_cons_of_mem _ hl), refused, ?_⟩
          rw [List.length_cons, Nat.add_assoc, Nat.add_comm 1]

/-- No numeral has a plus sign in it. -/
theorem plusText_ne_text (n m : Numeral) (underscores : Nat) : n.plusText underscores ≠ m.text := by
  intro same
  have signed : '+' ∈ m.text := by
    rw [← same]
    exact List.mem_append_right _ (List.mem_append_right _ List.mem_cons_self)
  rcases List.mem_append.mp signed with mark | body
  · revert mark
    cases m.mark <;> decide
  · exact m.notMem_body (by decide) body

/-- A program text is accepted exactly if every line of it, cut at the first comment marker and without the
blanks at both ends, is empty or a numeral below 2^32, or such a numeral with a plus sign, which is none of
the numerals themselves. It then comes to the values of its numerals in the order of the lines. Every other
text is refused at its first line that is none of these, with the number of that line and what was left of
it. -/
theorem parse_accepts_exactly (text : String) :
    (∀ words, parse text = .ok words ↔ ∃ contents : List (Option Word),
        List.Forall₂ (fun line content => ∃ code, IsCode line code ∧ Means code content)
            (text.toList.splitOn '\n') contents ∧
          words = contents.reduceOption) ∧
      (∀ err, parse text = .error err ↔ ∃ before line after code,
        text.toList.splitOn '\n' = before ++ line :: after ∧
          (∀ l ∈ before, ∃ code content, IsCode l code ∧ Means code content) ∧
          IsCode line code ∧ (∀ content, ¬ Means code content) ∧
          err = .invalidWord (before.length + 1) (String.ofList code)) ∧
      (∀ (n m : Numeral) (underscores : Nat), n.plusText underscores ≠ m.text) := by
  have holds : ∀ {line content}, content? line = some content ↔ ∃ code, IsCode line code ∧ Means code content := by
    intro line content
    rw [content?_eq_some_iff]
    constructor
    · exact fun means => ⟨code line, code_eq_iff.mp rfl, means⟩
    · rintro ⟨cs, isCode, means⟩
      rwa [code_eq_iff.mpr isCode]
  have readable : ∀ {l}, content? l ≠ none ↔ ∃ code content, IsCode l code ∧ Means code content := by
    intro l
    rw [Option.ne_none_iff_exists']
    simp only [holds]
    exact exists_comm
  have refused : ∀ {line}, content? line = none ↔ ∀ content, ¬ Means (code line) content := by
    intro line
    simp only [Option.eq_none_iff_forall_ne_some, ne_eq, content?_eq_some_iff]
  refine ⟨fun words => ?_, fun err => ?_, plusText_ne_text⟩
  · rw [parse, lines_eq_splitOn, parseLines_eq_ok_iff]
    simp only [holds, List.reverse_nil, List.nil_append]
  · rw [parse, lines_eq_splitOn, parseLines_eq_error_iff]
    constructor
    · rintro ⟨before, line, after, split, good, bad, rfl⟩
      exact ⟨before, line, after, code line, split, fun l hl => readable.mp (good l hl), code_eq_iff.mp rfl,
        refused.mp bad, by rw [Nat.add_comm]⟩
    · rintro ⟨before, line, after, cs, split, good, isCode, bad, rfl⟩
      obtain rfl := code_eq_iff.mpr isCode
      exact ⟨before, line, after, split, fun l hl => readable.mpr (good l hl), refused.mpr bad,
        by rw [Nat.add_comm]⟩

/-- A plus sign is accepted that belongs to no numeral. -/
theorem plus_sign_is_accepted : parse "+1f" = .ok [0x1F] ∧ ∀ n : Numeral, n.text ≠ "+1f".toList := by
  let n : Numeral := ⟨.absent, [.digit 1 false, .digit 15 false], by decide⟩
  obtain ⟨accepted, _, unsigned⟩ := parse_accepts_exactly "+1f"
  have isCode : IsCode "+1f".toList (n.plusText 0) := code_eq_iff.mp (by decide +kernel)
  have means : Means (n.plusText 0) (some 0x1F) := .plusWord n 0 0x1F (by decide +kernel)
  exact ⟨(accepted [0x1F]).mpr ⟨[some 0x1F], .cons ⟨_, isCode, means⟩ .nil, rfl⟩,
    fun m same => unsigned n m 0 same.symm⟩

end Legv8.Program.Hex
