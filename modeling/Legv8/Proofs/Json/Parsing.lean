import Legv8.Json.Parser
import Legv8.Proofs.Json.Lexing

/-! # Values read from their texts

The parser takes the tokens of a value in one go, whatever is open around it, and delivers the value; and
where it comes to deliver one, it has read that value's tokens. So a text is read as a value exactly if it
is one of the value's texts. -/
namespace Legv8.Json

/-! ## Tokens of a value -/

/-- Tokens that may stand behind an open one. -/
structure Follows (ts : List Token) : Prop where
  separated : Separated ts
  closed : ∀ t ∈ ts.head?, t.isOpen = false

theorem Follows.cons {t : Token} {ts : List Token} (closed : t.isOpen = false) (h : Separated ts) :
    Follows (t :: ts) where
  separated := List.isChain_cons.mpr ⟨fun _ _ opened => absurd opened (by simp [closed]), h⟩
  closed _ hu := Option.some.inj hu ▸ closed

mutual

theorem Follows.tokens {ts : List Token} (h : Follows ts) : (v : Json) → Separated (v.tokens ++ ts)
  | .null | .bool _ | .number _ | .string _ =>
    List.isChain_cons.mpr ⟨fun t ht _ => h.closed t ht, h.separated⟩
  | .array [] => (cons rfl (cons rfl h.separated).separated).separated
  | .array (v :: rest) => by
    have later := (cons (show Token.closeArray.isOpen = false from rfl) h.separated).laterItems rest
    simpa [Json.tokens] using (cons (show Token.openArray.isOpen = false from rfl) (later.tokens v)).separated
  | .object [] => (cons rfl (cons rfl h.separated).separated).separated
  | .object ((name, v) :: rest) => by
    have later := (cons (show Token.closeObject.isOpen = false from rfl) h.separated).laterMembers rest
    have value := cons (show Token.colon.isOpen = false from rfl) (later.tokens v)
    have member := cons (show (Token.string name).isOpen = false from rfl) value.separated
    simpa [Json.tokens] using
      (cons (show Token.openObject.isOpen = false from rfl) member.separated).separated

theorem Follows.laterItems {ts : List Token} (h : Follows ts) :
    (items : List Json) → Follows (laterItems items ++ ts)
  | [] => h
  | v :: rest => by
    simpa [Json.laterItems] using
      cons (show Token.comma.isOpen = false from rfl) ((h.laterItems rest).tokens v)

theorem Follows.laterMembers {ts : List Token} (h : Follows ts) :
    (members : List (Option String × Json)) → Follows (laterMembers members ++ ts)
  | [] => h
  | (name, v) :: rest => by
    have value := cons (show Token.colon.isOpen = false from rfl) ((h.laterMembers rest).tokens v)
    have member := cons (show (Token.string name).isOpen = false from rfl) value.separated
    simpa [Json.laterMembers] using cons (show Token.comma.isOpen = false from rfl) member.separated

end

/-- No two numbers or words meet in a value. -/
theorem separated_tokens (v : Json) : Separated v.tokens := by
  have nothing : Follows [] := ⟨.nil, nofun⟩
  simpa using nothing.tokens v

namespace Parser

/-! ## Reading the tokens of a value -/

/-- What does not end an array at once is read as its first item. -/
theorem run_firstItem {t : Token} (h : t ≠ .closeArray) (stack : List Frame) (ts : List Token) :
    run ⟨.firstItem, .array [] :: stack⟩ (t :: ts) = run ⟨.value, .array [] :: stack⟩ (t :: ts) := by
  cases t with
  | closeArray => exact absurd rfl h
  | _ => rfl

theorem exists_first (v : Json) : ∃ t ts, v.tokens = t :: ts ∧ t ≠ .closeArray := by
  cases v with
  | array items => cases items <;> exact ⟨_, _, rfl, nofun⟩
  | object members => rcases members with _ | ⟨⟨name, v⟩, rest⟩ <;> exact ⟨_, _, rfl, nofun⟩
  | _ => exact ⟨_, _, rfl, nofun⟩

mutual

/-- A value is delivered to what is open around it. -/
theorem run_value (stack : List Frame) (ts : List Token) :
    (v : Json) → run ⟨.value, stack⟩ (v.tokens ++ ts) = run (deliver v stack) ts
  | .null | .bool _ | .number _ | .string _ | .array [] | .object [] => rfl
  | .array (v :: rest) => by
    have whole : (Json.array (v :: rest)).tokens ++ ts =
        .openArray :: (v.tokens ++ (laterItems rest ++ .closeArray :: ts)) := by simp [Json.tokens]
    obtain ⟨t, later, equal, opens⟩ := exists_first v
    have first := run_firstItem opens stack (later ++ (laterItems rest ++ .closeArray :: ts))
    rw [← List.cons_append, ← equal] at first
    rw [whole]
    exact first.trans ((run_value _ _ v).trans (run_laterItems stack ts [v] rest))
  | .object ((name, v) :: rest) => by
    have whole : (Json.object ((name, v) :: rest)).tokens ++ ts = .openObject :: .string name :: .colon ::
        (v.tokens ++ (laterMembers rest ++ .closeObject :: ts)) := by simp [Json.tokens]
    rw [whole]
    exact (run_value (.object [] name :: stack) _ v).trans (run_laterMembers stack ts [(name, v)] name rest)

theorem run_laterItems (stack : List Frame) (ts : List Token) (read : List Json) : (items : List Json) →
    run ⟨.separator, .array read :: stack⟩ (laterItems items ++ .closeArray :: ts) =
      run (deliver (.array (read.reverse ++ items)) stack) ts
  | [] => by rw [List.append_nil]; rfl
  | v :: rest => by
    have whole : laterItems (v :: rest) ++ .closeArray :: ts =
        .comma :: (v.tokens ++ (laterItems rest ++ .closeArray :: ts)) := by simp [laterItems]
    rw [whole]
    refine (run_value (.array read :: stack) _ v).trans ((run_laterItems stack ts (v :: read) rest).trans ?_)
    simp

theorem run_laterMembers (stack : List Frame) (ts : List Token) (read : List (Option String × Json))
    (last : Option String) : (members : List (Option String × Json)) →
    run ⟨.separator, .object read last :: stack⟩ (laterMembers members ++ .closeObject :: ts) =
      run (deliver (.object (read.reverse ++ members)) stack) ts
  | [] => by rw [List.append_nil]; rfl
  | (name, v) :: rest => by
    have whole : laterMembers ((name, v) :: rest) ++ .closeObject :: ts = .comma :: .string name :: .colon ::
        (v.tokens ++ (laterMembers rest ++ .closeObject :: ts)) := by simp [laterMembers]
    rw [whole]
    refine (run_value (.object read name :: stack) _ v).trans
      ((run_laterMembers stack ts ((name, v) :: read) name rest).trans ?_)
    simp

end

/-! ## What has been read -/

theorem exists_step {s : State} {t : Token} {ts : List Token} {r : Json} (h : run s (t :: ts) = some r) :
    ∃ next, step s t = some next ∧ run next ts = some r := by
  rw [run] at h
  split at h
  · cases h
  · next next taken => exact ⟨next, taken, h⟩

/-- What is left behind a token and some more is shorter. -/
theorem length_behind_lt (t : Token) (front rest : List Token) :
    rest.length < (t :: (front ++ rest)).length := by
  rw [List.length_cons, List.length_append]
  omega

/-- Wherever a value is expected, the tokens of one stand. -/
def ReadsValue (ts : List Token) : Prop :=
  ∀ stack r, run ⟨.value, stack⟩ ts = some r →
    ∃ v rest, ts = v.tokens ++ rest ∧ run (deliver v stack) rest = some r

/-- Behind an item of an array its other items and its end stand. -/
def ReadsItems (ts : List Token) : Prop :=
  ∀ stack read r, run ⟨.separator, .array read :: stack⟩ ts = some r →
    ∃ items rest, ts = laterItems items ++ .closeArray :: rest ∧
      run (deliver (.array (read.reverse ++ items)) stack) rest = some r

/-- Behind a member of an object its other members and its end stand. -/
def ReadsMembers (ts : List Token) : Prop :=
  ∀ stack read last r, run ⟨.separator, .object read last :: stack⟩ ts = some r →
    ∃ members rest, ts = laterMembers members ++ .closeObject :: rest ∧
      run (deliver (.object (read.reverse ++ members)) stack) rest = some r

/-- Behind a name a colon and a value stand. -/
theorem ReadsValue.member {ts : List Token} {stack : List Frame} {read : List (Option String × Json)}
    {name : Option String} {r : Json} (values : ∀ us : List Token, us.length < ts.length → ReadsValue us)
    (h : run ⟨.colon read name, stack⟩ ts = some r) :
    ∃ v rest, ts = .colon :: (v.tokens ++ rest) ∧
      run ⟨.separator, .object ((name, v) :: read) name :: stack⟩ rest = some r := by
  cases ts with
  | nil => cases h
  | cons t ts =>
    obtain ⟨next, taken, later⟩ := exists_step h
    cases t with
    | colon =>
      cases taken
      obtain ⟨v, rest, rfl, goesOn⟩ := values ts (Nat.lt_succ_self _) _ r later
      exact ⟨v, rest, rfl, goesOn⟩
    | _ => cases taken

theorem readsItems {ts : List Token}
    (shorter : ∀ us : List Token, us.length < ts.length → ReadsValue us ∧ ReadsItems us) : ReadsItems ts := by
  intro stack read r h
  cases ts with
  | nil => cases h
  | cons t ts =>
    obtain ⟨next, taken, later⟩ := exists_step h
    cases t with
    | comma =>
      cases taken
      obtain ⟨v, rest, rfl, goesOn⟩ := (shorter ts (Nat.lt_succ_self _)).1 _ r later
      obtain ⟨items, rest', rfl, done⟩ := (shorter rest (length_behind_lt _ _ _)).2 _ _ r goesOn
      exact ⟨v :: items, rest', by simp [laterItems], by simpa using done⟩
    | closeArray =>
      cases taken
      exact ⟨[], ts, rfl, by simpa using later⟩
    | _ => cases taken

theorem readsMembers {ts : List Token}
    (shorter : ∀ us : List Token, us.length < ts.length → ReadsValue us ∧ ReadsMembers us) :
    ReadsMembers ts := by
  intro stack read last r h
  cases ts with
  | nil => cases h
  | cons t ts =>
    obtain ⟨next, taken, later⟩ := exists_step h
    cases t with
    | comma =>
      cases taken
      cases ts with
      | nil => cases later
      | cons t ts =>
        obtain ⟨next, taken, later⟩ := exists_step later
        cases t with
        | string name =>
          cases taken
          obtain ⟨v, rest, rfl, goesOn⟩ :=
            ReadsValue.member (fun us hus => (shorter us (Nat.lt_add_right 2 hus)).1) later
          have less := length_behind_lt .comma (.string name :: .colon :: v.tokens) rest
          obtain ⟨members, rest', rfl, done⟩ := (shorter rest less).2 _ _ _ r goesOn
          exact ⟨(name, v) :: members, rest', by simp [laterMembers], by simpa using done⟩
        | _ => cases taken
    | closeObject =>
      cases taken
      exact ⟨[], ts, rfl, by simpa using later⟩
    | _ => cases taken

theorem readsValue {ts : List Token} (shorter : ∀ us : List Token, us.length < ts.length →
    ReadsValue us ∧ ReadsItems us ∧ ReadsMembers us) : ReadsValue ts := by
  intro stack r h
  cases ts with
  | nil => cases h
  | cons t ts =>
    obtain ⟨next, taken, later⟩ := exists_step h
    cases t with
    | null => cases taken; exact ⟨.null, ts, rfl, later⟩
    | bool b => cases taken; exact ⟨.bool b, ts, rfl, later⟩
    | number literal => cases taken; exact ⟨.number literal, ts, rfl, later⟩
    | string text => cases taken; exact ⟨.string text, ts, rfl, later⟩
    | openArray =>
      cases taken
      cases ts with
      | nil => cases later
      | cons t ts =>
        by_cases closed : t = .closeArray
        · subst closed
          exact ⟨.array [], ts, rfl, later⟩
        · rw [run_firstItem closed] at later
          obtain ⟨v, rest, equal, goesOn⟩ := (shorter (t :: ts) (Nat.lt_succ_self _)).1 _ r later
          have less : rest.length < (t :: ts).length + 1 := by rw [equal, List.length_append]; omega
          obtain ⟨items, rest', rfl, done⟩ := (shorter rest less).2.1 _ _ r goesOn
          exact ⟨.array (v :: items), rest', by simp [equal, Json.tokens], done⟩
    | openObject =>
      cases taken
      cases ts with
      | nil => cases later
      | cons t ts =>
        obtain ⟨next, taken, later⟩ := exists_step later
        cases t with
        | closeObject =>
          cases taken
          exact ⟨.object [], ts, rfl, later⟩
        | string name =>
          cases taken
          obtain ⟨v, rest, rfl, goesOn⟩ :=
            ReadsValue.member (fun us hus => (shorter us (Nat.lt_add_right 2 hus)).1) later
          have less := length_behind_lt .openObject (.string name :: .colon :: v.tokens) rest
          obtain ⟨members, rest', rfl, done⟩ := (shorter rest less).2.2 _ _ _ r goesOn
          exact ⟨.object ((name, v) :: members), rest', by simp [Json.tokens], done⟩
        | _ => cases taken
    | _ => cases taken

theorem reads (ts : List Token) : ReadsValue ts ∧ ReadsItems ts ∧ ReadsMembers ts := by
  induction h : ts.length using Nat.strongRecOn generalizing ts with
  | ind n ih =>
    have shorter : ∀ us : List Token, us.length < ts.length →
        ReadsValue us ∧ ReadsItems us ∧ ReadsMembers us := fun us hus => ih us.length (h ▸ hus) us rfl
    exact ⟨readsValue shorter, readsItems fun us hus => ⟨(shorter us hus).1, (shorter us hus).2.1⟩,
      readsMembers fun us hus => ⟨(shorter us hus).1, (shorter us hus).2.2⟩⟩

/-- The tokens that are read as a value are its tokens. -/
theorem run_eq_some_iff {ts : List Token} {v : Json} : run ⟨.value, []⟩ ts = some v ↔ ts = v.tokens := by
  constructor
  · intro h
    obtain ⟨w, rest, rfl, delivered⟩ := (reads ts).1 [] v h
    cases rest with
    | nil => rw [List.append_nil, Option.some.inj delivered]
    | cons t rest => cases delivered
  · rintro rfl
    have whole := run_value [] [] v
    rw [List.append_nil] at whole
    exact whole

end Parser

/-- A text is read as a value exactly if it is written as the value. -/
theorem parse?_eq_some_iff {text : String} {v : Json} : parse? text = some v ↔ v.WrittenAs text := by
  unfold parse? tokens? WrittenAs
  constructor
  · intro h
    split at h
    · cases h
    · next ts lexed =>
      obtain ⟨_, rfl, texts⟩ := Lexer.tokens_of_run lexed
      exact Parser.run_eq_some_iff.mp h ▸ texts
  · intro texts
    rw [Lexer.run_tokens texts (separated_tokens v) []]
    exact Parser.run_eq_some_iff.mpr rfl

end Legv8.Json
