import Legv8.Proofs.Json.Numbers
import Legv8.Proofs.Json.Strings
import Mathlib.Data.List.Chain

/-! # Tokens read from their texts

A number or a word goes on until a character that cannot continue it. Blanks, quotes and the marks never
continue one, so a sequence of tokens is read back from all of its texts if no two words or numbers meet in
it; and whatever the reader takes for tokens is a text of them. -/
namespace Legv8.Json

/-- The token has no mark at its end. -/
def Token.isOpen : Token → Bool
  | .null | .bool _ | .number _ => true
  | _ => false

/-- No two open tokens meet. -/
def Separated (ts : List Token) : Prop := ts.IsChain fun t u => t.isOpen = true → u.isOpen = false

namespace Lexer

/-! ## Where open tokens end -/

/-- The characters that no word or number goes on with. -/
def delimiters : List Char := [' ', '\t', '\n', '\r', '"', '\x7b', '\x7d', '[', ']', ',', ':']

def Delimited (cs : List Char) : Prop := ∀ c ∈ cs.head?, c ∈ delimiters

theorem isLower_of_delimiter : ∀ c ∈ delimiters, c.isLower = false :=
  List.forall_iff_forall_mem.mp (by decide)

theorem next_of_delimiter (state : NumberState) : ∀ c ∈ delimiters, state.next c = none :=
  List.forall_iff_forall_mem.mp (by cases state <;> decide)

theorem delimited_of_blank {cs rest : List Char} (h : Blank cs) (hrest : Delimited rest) :
    Delimited (cs ++ rest) := by
  cases cs with
  | nil => exact hrest
  | cons c cs =>
    intro d equal
    obtain rfl : c = d := Option.some.inj equal
    rcases h c List.mem_cons_self with rfl | rfl | rfl | rfl <;> decide

theorem delimited_of_written {t : Token} {cs : List Char} (h : t.WrittenAs cs) (closed : t.isOpen = false)
    (rest : List Char) : Delimited (cs ++ rest) := by
  cases h with
  | null | true | false | number => cases closed
  | _ =>
    rintro d (equal : some _ = some d)
    cases equal
    decide

theorem delimited_of_tokens {ts : List Token} {cs : List Char} (h : TokensWrittenAs ts cs)
    (closed : ∀ t ∈ ts.head?, t.isOpen = false) : Delimited cs := by
  cases h with
  | nil blank => exact List.append_nil cs ▸ delimited_of_blank blank nofun
  | cons blank written _ => exact delimited_of_blank blank (delimited_of_written written (closed _ rfl) _)

/-! ## Reading tokens -/

theorem run_blank {bs : List Char} (h : Blank bs) (rest : List Char) (tokens : List Token) :
    run (bs ++ rest) .between tokens = run rest .between tokens := by
  induction bs with
  | nil => rfl
  | cons b bs ih =>
    have blank : step .between b = some (.between, []) := by
      rcases h b List.mem_cons_self with rfl | rfl | rfl | rfl <;> rfl
    exact (run_cons blank _ tokens).trans (ih fun c hc => h c (List.mem_cons_of_mem b hc))

theorem stepAfter_eq (token : Option Token) (c : Char) :
    stepAfter token c = token.bind fun t => (stepBetween c).map fun next => (next.1, t :: next.2) := by
  unfold stepAfter
  cases token <;> cases stepBetween c <;> rfl

/-- A token ends in front of a character that is read as the start of something else. -/
theorem run_of_end {mode : Mode} {t : Token} {rest : List Char} (finished : finish mode = some [t])
    (after : ∀ c ∈ rest.head?, step mode c = stepAfter (some t) c) (tokens : List Token) :
    run rest mode tokens = run rest .between (t :: tokens) := by
  cases rest with
  | nil => simp only [run, finished, show finish .between = some [] from rfl]; simp
  | cons c rest =>
    rw [run, run, after c rfl, stepAfter_eq, show step .between c = stepBetween c from rfl]
    cases stepBetween c <;> simp

theorem run_word (letters : List Char) {t : Token} {rest : List Char} (known : wordToken? letters = some t)
    (h : Delimited rest) (tokens : List Token) :
    run rest (.word letters) tokens = run rest .between (t :: tokens) := by
  refine run_of_end (by rw [finish, known]; rfl) (fun c hc => ?_) tokens
  rw [step, isLower_of_delimiter c (h c hc), known]
  rfl

theorem run_number {state : NumberState} {cs rest : List Char} (completes : state.Completes cs)
    (h : Delimited rest) (digits : List Char) (tokens : List Token) :
    run (cs ++ rest) (.number state digits) tokens =
      run rest .between (.number (String.ofList (digits.reverse ++ cs)) :: tokens) := by
  induction cs generalizing state digits with
  | nil =>
    have accepted : numberToken? state digits = some (.number (String.ofList (digits.reverse ++ []))) := by
      rw [numberToken?, if_pos (NumberState.completes_nil.mp completes), List.append_nil]
    refine run_of_end (by rw [finish, accepted]; rfl) (fun c hc => ?_) tokens
    rw [step, next_of_delimiter state c (h c hc)]
    exact congrArg (stepAfter · c) accepted
  | cons c cs ih =>
    obtain ⟨next, taken, later⟩ := NumberState.completes_cons.mp completes
    have goesOn : step (.number state digits) c = some (.number next (c :: digits), []) := by rw [step, taken]
    refine (run_cons goesOn _ tokens).trans ((ih later (c :: digits)).trans ?_)
    simp

/-- A number begins with nothing that is read otherwise. -/
theorem stepBetween_of_start {c : Char} {state : NumberState} (h : NumberState.start c = some state) :
    stepBetween c = some (.number state [c], []) := by
  have first : c = '-' ∨ c.isDigit = true := by
    rw [NumberState.start] at h
    split at h
    · next minus => exact .inl minus
    · rw [NumberState.next] at h
      split at h
      · next zero => exact .inr (zero ▸ rfl)
      · split at h
        · next digit => exact .inr digit
        · cases h
  have others : isBlank c = false ∧ c ≠ '"' ∧ c.isLower = false ∧ mark? c = none := by
    rcases first with rfl | digit
    · decide
    · have digits : ∀ n < 58, 48 ≤ n → isBlank (Char.ofNat n) = false ∧ Char.ofNat n ≠ '"' ∧
          (Char.ofNat n).isLower = false ∧ mark? (Char.ofNat n) = none := by decide
      obtain ⟨low, high⟩ := Char.isDigit_iff_toNat.mp digit
      simpa only [Char.ofNat_toNat] using digits c.toNat (Nat.lt_succ_of_le high) low
  obtain ⟨noBlank, noQuote, noLetter, noMark⟩ := others
  rw [stepBetween, noBlank, noLetter, noMark, h]
  simp [noQuote]

theorem not_isNumber_nil : ¬ IsNumber [] := by
  rintro ⟨sign, whole, fraction, exponent, equal, -, hwhole, -⟩
  have empty : whole = [] := by
    have := (List.nil_eq_append_iff.mp equal).2
    exact (List.nil_eq_append_iff.mp this.symm).1
  rcases hwhole with zero | ⟨digits, -⟩
  · exact absurd (empty.symm.trans zero) nofun
  · exact digits.1 empty

theorem run_written {t : Token} {cs rest : List Char} (h : t.WrittenAs cs)
    (ends : t.isOpen = true → Delimited rest) (tokens : List Token) :
    run (cs ++ rest) .between tokens = run rest .between (t :: tokens) := by
  cases h with
  | null => exact run_word ['l', 'l', 'u', 'n'] rfl (ends rfl) tokens
  | true => exact run_word ['e', 'u', 'r', 't'] rfl (ends rfl) tokens
  | false => exact run_word ['e', 's', 'l', 'a', 'f'] rfl (ends rfl) tokens
  | number h =>
    cases cs with
    | nil => exact absurd h not_isNumber_nil
    | cons c cs =>
      obtain ⟨state, started, completes⟩ := NumberState.isNumber_cons.mp h
      exact (run_cons (show step .between c = _ from stepBetween_of_start started) _ tokens).trans
        (run_number completes (ends rfl) [c] tokens)
  | @string ps cs pieces =>
    have text : (ps.foldl Partial.feed .empty).finish = (text? ps).map String.ofList := by
      rw [Partial.empty, finish_feed]
      rfl
    have quoted : '"' :: (cs ++ ['"']) ++ rest = '"' :: (cs ++ '"' :: rest) := by simp
    rw [quoted, ← text]
    exact run_pieces pieces .empty rest tokens
  | _ => rfl

/-- Tokens of which no two open ones meet are read from each of their texts. -/
theorem run_tokens {ts : List Token} {cs : List Char} (h : TokensWrittenAs ts cs)
    (separated : Separated ts) (tokens : List Token) :
    run cs .between tokens = some (tokens.reverse ++ ts) := by
  induction h generalizing tokens with
  | @nil bs blank =>
    rw [← List.append_nil bs, run_blank blank]
    rfl
  | @cons t ts bs cs ds blank written later ih =>
    have ends : t.isOpen = true → Delimited ds := fun opened =>
      delimited_of_tokens later fun u hu => (List.isChain_cons.mp separated).1 u hu opened
    rw [run_blank blank, run_written written ends, ih (List.isChain_cons.mp separated).2]
    simp

/-! ## Texts that are read -/

/-- Where a number or a word ends, it is complete. -/
theorem exists_end {mode : Mode} {token : Option Token} {cs : List Char} {tokens result : List Token}
    (h : run cs mode tokens = some result) (finished : finish mode = token.map ([·]))
    (after : ∀ c ∈ cs.head?, step mode c = stepAfter token c) :
    ∃ t, token = some t ∧ run cs .between (t :: tokens) = some result := by
  cases token with
  | some t => exact ⟨t, rfl, run_of_end finished after tokens ▸ h⟩
  | none =>
    cases cs with
    | nil =>
      rw [run, finished] at h
      cases h
    | cons c rest =>
      rw [run, after c rfl, stepAfter_eq] at h
      cases h

theorem exists_word {letters cs : List Char} {tokens result : List Token}
    (h : run cs (.word letters) tokens = some result) :
    ∃ more rest t, cs = more ++ rest ∧ wordToken? (more.reverse ++ letters) = some t ∧
      run rest .between (t :: tokens) = some result := by
  induction cs generalizing letters with
  | nil =>
    obtain ⟨t, known, later⟩ := exists_end h rfl nofun
    exact ⟨[], [], t, rfl, known, later⟩
  | cons c cs ih =>
    cases lower : c.isLower with
    | false =>
      have stops : step (.word letters) c = stepAfter (wordToken? letters) c := by rw [step, lower]; rfl
      obtain ⟨t, known, later⟩ := exists_end h rfl fun d hd => Option.some.inj hd ▸ stops
      exact ⟨[], c :: cs, t, rfl, known, later⟩
    | true =>
      have goesOn : step (.word letters) c = some (.word (c :: letters), []) := by rw [step, lower]; rfl
      obtain ⟨more, rest, t, rfl, known, later⟩ := ih ((run_cons goesOn cs tokens).symm.trans h)
      exact ⟨c :: more, rest, t, rfl, by simpa using known, later⟩

theorem exists_number {state : NumberState} {digits cs : List Char} {tokens result : List Token}
    (h : run cs (.number state digits) tokens = some result) :
    ∃ more rest, cs = more ++ rest ∧ state.Completes more ∧
      run rest .between (.number (String.ofList (digits.reverse ++ more)) :: tokens) = some result := by
  have accepted : ∀ {state digits t}, numberToken? state digits = some t →
      state.Completes [] ∧ t = .number (String.ofList (digits.reverse ++ [])) := by
    intro state digits t ht
    obtain ⟨accepts, equal⟩ := Option.ite_none_right_eq_some.mp ht
    exact ⟨NumberState.completes_nil.mpr accepts, by rw [List.append_nil]; exact (Option.some.inj equal).symm⟩
  induction cs generalizing state digits with
  | nil =>
    obtain ⟨t, known, later⟩ := exists_end h rfl nofun
    obtain ⟨completes, rfl⟩ := accepted known
    exact ⟨[], [], rfl, completes, later⟩
  | cons c cs ih =>
    cases taken : state.next c with
    | none =>
      have stops : step (.number state digits) c = stepAfter (numberToken? state digits) c := by
        rw [step, taken]
      obtain ⟨t, known, later⟩ := exists_end h rfl fun d hd => Option.some.inj hd ▸ stops
      obtain ⟨completes, rfl⟩ := accepted known
      exact ⟨[], c :: cs, rfl, completes, later⟩
    | some next =>
      have goesOn : step (.number state digits) c = some (.number next (c :: digits), []) := by
        rw [step, taken]
      obtain ⟨more, rest, rfl, completes, later⟩ := ih ((run_cons goesOn cs tokens).symm.trans h)
      exact ⟨c :: more, rest, rfl, NumberState.completes_cons.mpr ⟨next, taken, completes⟩,
        by simpa using later⟩

theorem written_of_wordToken? {letters : List Char} {t : Token} (h : wordToken? letters = some t) :
    t.WrittenAs letters.reverse := by
  have letters_eq : ∀ {text : String}, String.ofList letters.reverse = text → letters.reverse = text.toList :=
    fun equal => equal ▸ String.toList_ofList.symm
  unfold wordToken? at h
  split at h
  · next word => cases h; rw [letters_eq word]; exact .null
  · next word => cases h; rw [letters_eq word]; exact .true
  · next word => cases h; rw [letters_eq word]; exact .false
  · cases h

theorem written_of_mark? {c : Char} {t : Token} (h : mark? c = some t) : t.WrittenAs [c] := by
  unfold mark? at h
  split at h <;> cases h <;> constructor

/-- What the reader takes between tokens. -/
theorem stepBetween_cases {c : Char} {next : Mode × List Token} (h : stepBetween c = some next) :
    (Blank [c] ∧ next = (.between, [])) ∨ (c = '"' ∧ next = (.string .empty .none, [])) ∨
      next = (.word [c], []) ∨ (∃ t, t.WrittenAs [c] ∧ next = (.between, [t])) ∨
        ∃ state, NumberState.start c = some state ∧ next = (.number state [c], []) := by
  unfold stepBetween at h
  split at h
  · next blank =>
    refine .inl ⟨fun d hd => ?_, (Option.some.inj h).symm⟩
    obtain rfl := List.mem_singleton.mp hd
    simpa [isBlank, or_assoc] using blank
  · split at h
    · next quote => exact .inr (.inl ⟨quote, (Option.some.inj h).symm⟩)
    · split at h
      · exact .inr (.inr (.inl (Option.some.inj h).symm))
      · split at h
        · next t known =>
          exact .inr (.inr (.inr (.inl ⟨t, written_of_mark? known, (Option.some.inj h).symm⟩)))
        · obtain ⟨state, started, equal⟩ := Option.map_eq_some_iff.mp h
          exact .inr (.inr (.inr (.inr ⟨state, started, equal.symm⟩)))

/-- Whatever is read as tokens is a text of them. -/
theorem tokens_of_run {cs : List Char} {tokens result : List Token}
    (h : run cs .between tokens = some result) :
    ∃ ts, result = tokens.reverse ++ ts ∧ TokensWrittenAs ts cs := by
  induction hn : cs.length using Nat.strongRecOn generalizing cs tokens with
  | ind n ih =>
    cases cs with
    | nil => exact ⟨[], (Option.some.inj h).symm, .nil nofun⟩
    | cons c rest =>
      -- behind a first token the text is shorter
      have behind : ∀ {t body later}, c :: rest = body ++ later → t.WrittenAs body → body ≠ [] →
          run later .between (t :: tokens) = some result →
          ∃ ts, result = tokens.reverse ++ ts ∧ TokensWrittenAs ts (c :: rest) := by
        intro t body later equal written nonempty goesOn
        have shorter : later.length < n := by
          have := List.length_pos_of_ne_nil nonempty
          rw [← hn, equal, List.length_append]
          omega
        obtain ⟨ts, rfl, texts⟩ := ih later.length shorter goesOn rfl
        refine ⟨t :: ts, by simp, ?_⟩
        rw [equal]
        exact .cons (show Blank [] from nofun) written texts
      obtain ⟨next, new, taken, later⟩ := exists_step h
      rcases stepBetween_cases taken with ⟨blank, equal⟩ | ⟨rfl, equal⟩ | equal | ⟨t, written, equal⟩ |
        ⟨state, started, equal⟩ <;> cases equal
      · obtain ⟨ts, equal, texts⟩ := ih rest.length (by rw [← hn]; simp) later rfl
        exact ⟨ts, equal, texts.blank_append blank⟩
      · obtain ⟨ps, body, rest', rfl, pieces, goesOn⟩ := exists_pieces later
        rw [Partial.empty, finish_feed] at goesOn
        exact behind (by simp) (.string pieces) (by simp) goesOn
      · obtain ⟨more, rest', t, rfl, known, goesOn⟩ := exists_word later
        exact behind (by simp) (written_of_wordToken? known) (by simp) goesOn
      · exact behind (show c :: rest = [c] ++ rest from rfl) written (by simp) later
      · obtain ⟨more, rest', rfl, completes, goesOn⟩ := exists_number later
        exact behind (show c :: (more ++ rest') = c :: more ++ rest' from rfl)
          (.number (NumberState.isNumber_cons.mpr ⟨state, started, completes⟩)) (by simp) goesOn

end Lexer

end Legv8.Json
