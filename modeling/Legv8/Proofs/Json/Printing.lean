import Legv8.Json.Printer
import Legv8.Proofs.Json.Grammar
import Legv8.Proofs.Text.Numerals

/-! # Values printed

The compact form of a value is one of its texts, as long as its numbers are numbers of the grammar. -/
namespace Legv8.Json

/-! ## Texts put together -/

theorem TokensWrittenAs.append {ts us : List Token} {cs ds : List Char} (h : TokensWrittenAs ts cs)
    (later : TokensWrittenAs us ds) : TokensWrittenAs (ts ++ us) (cs ++ ds) := by
  induction h with
  | nil blank => exact later.blank_append blank
  | cons blank written _ ih => simpa only [List.cons_append, List.append_assoc] using .cons blank written ih

theorem Token.WrittenAs.followed {t : Token} {ts : List Token} {cs ds : List Char} (h : t.WrittenAs cs)
    (later : TokensWrittenAs ts ds) : TokensWrittenAs (t :: ts) (cs ++ ds) :=
  .cons (show Blank [] from nofun) h later

theorem Token.WrittenAs.alone {t : Token} {cs : List Char} (h : t.WrittenAs cs) : TokensWrittenAs [t] cs := by
  simpa using h.followed (.nil (show Blank [] from nofun))

/-! ## Strings -/

/-- A piece and how it is written, for a character that it stands for. -/
def Spells (c : Char) (cs : List Char) : Prop :=
  ∃ p : Piece, p.WrittenAs cs ∧ ∀ ps, text? (p :: ps) = (text? ps).map (c :: ·)

theorem spells_short {letter c : Char} (h : (letter, c) ∈ shortEscapes) : Spells c ['\\', letter] :=
  ⟨_, .escaped h, fun _ => by rw [text?]⟩

theorem spells_control {c : Char} (control : c.toNat < 32) :
    Spells c ("\\u" ++ Text.hexDigits 4 c.toNat).toList := by
  have padded : ∀ n < 32, List.leftpad 4 '0' (Nat.toDigits 16 n) =
      ['0', '0', Nat.digitChar (n / 16), Nat.digitChar (n % 16)] := by decide
  have high := Text.hexDigit?_digitChar (c.toNat / 16) (by omega)
  have low := Text.hexDigit?_digitChar (c.toNat % 16) (by omega)
  have written := @Piece.WrittenAs.unit '0' '0' _ _ 0 0 _ _ rfl rfl high low
  have value : 16 * (16 * (16 * 0 + 0) + c.toNat / 16) + c.toNat % 16 = c.toNat := by omega
  rw [value] at written
  have printed : ("\\u" ++ Text.hexDigits 4 c.toNat).toList =
      ['\\', 'u', '0', '0', Nat.digitChar (c.toNat / 16), Nat.digitChar (c.toNat % 16)] := by
    simp only [Text.hexDigits, padded c.toNat control, String.toList_append, String.toList_ofList]
    rfl
  refine ⟨.unit c.toNat, printed ▸ written, fun ps => ?_⟩
  rw [text?_unit (fun h => absurd h.1 (by omega)) (fun h => absurd h.1 (by omega)), Char.ofNat_toNat]

theorem spells_escapeChar (c : Char) : Spells c (escapeChar c).toList := by
  have code : ∀ {n}, c.toNat = n → Char.ofNat n = c := fun h => by rw [← h, Char.ofNat_toNat]
  unfold escapeChar
  split_ifs with quote backslash lineFeed carriageReturn tab backspace formFeed control
  · exact quote ▸ spells_short (by decide)
  · exact backslash ▸ spells_short (by decide)
  · exact lineFeed ▸ spells_short (by decide)
  · exact carriageReturn ▸ spells_short (by decide)
  · exact tab ▸ spells_short (by decide)
  · exact code backspace ▸ spells_short (by decide)
  · exact code formFeed ▸ spells_short (by decide)
  · exact spells_control control
  · have plain := Piece.WrittenAs.plain quote backslash (Nat.not_lt.mp control)
    exact ⟨.char c, by simpa using plain, fun _ => by rw [text?]⟩

theorem exists_pieces (cs : List Char) :
    ∃ ps, PiecesWrittenAs ps (String.join (cs.map escapeChar)).toList ∧ text? ps = some cs := by
  induction cs with
  | nil => exact ⟨[], .nil, rfl⟩
  | cons c rest ih =>
    obtain ⟨ps, written, spelled⟩ := ih
    obtain ⟨p, first, front⟩ := spells_escapeChar c
    refine ⟨p :: ps, ?_, by rw [front, spelled]; rfl⟩
    rw [List.map_cons, String.join_cons, String.toList_append]
    exact .cons first written

theorem written_quote (text : Option String) : (Token.string text).WrittenAs (quote text).toList := by
  cases text with
  | none =>
    have lone := @Piece.WrittenAs.unit 'd' '8' '0' '0' 13 8 0 0 rfl rfl rfl rfl
    exact .string (.cons lone .nil)
  | some text =>
    obtain ⟨ps, written, spelled⟩ := exists_pieces text.toList
    have whole := Token.WrittenAs.string written
    rw [spelled, Option.map_some, String.ofList_toList] at whole
    simpa [quote] using whole

/-! ## Values -/

theorem written_compactItems {rest : List Json} (v : Json) (h : ∀ w ∈ v :: rest, w.WrittenAs w.compact) :
    TokensWrittenAs (v.tokens ++ laterItems rest) (compactItems (v :: rest)).toList := by
  induction rest generalizing v with
  | nil => simpa [laterItems, compactItems, WrittenAs] using h v List.mem_cons_self
  | cons w rest ih =>
    have later := ih w fun u hu => h u (List.mem_cons_of_mem _ hu)
    simpa [laterItems, compactItems] using
      TokensWrittenAs.append (h v List.mem_cons_self) (Token.WrittenAs.comma.followed later)

theorem written_compactMembers {rest : List (Option String × Json)} (m : Option String × Json)
    (h : ∀ n ∈ m :: rest, n.2.WrittenAs n.2.compact) :
    TokensWrittenAs (.string m.1 :: .colon :: (m.2.tokens ++ laterMembers rest))
      (compactMembers (m :: rest)).toList := by
  induction rest generalizing m with
  | nil =>
    have value := Token.WrittenAs.colon.followed (h m List.mem_cons_self)
    simpa [laterMembers, compactMembers] using (written_quote m.1).followed value
  | cons n rest ih =>
    have later := ih n fun u hu => h u (List.mem_cons_of_mem _ hu)
    have value := TokensWrittenAs.append (h m List.mem_cons_self) (Token.WrittenAs.comma.followed later)
    simpa [laterMembers, compactMembers] using
      (written_quote m.1).followed (Token.WrittenAs.colon.followed value)

theorem WellFormed.written_compact {v : Json} (h : v.WellFormed) : v.WrittenAs v.compact := by
  induction h with
  | null => exact Token.WrittenAs.null.alone
  | bool b =>
    cases b with
    | true => exact Token.WrittenAs.true.alone
    | false => exact Token.WrittenAs.false.alone
  | @number literal number =>
    have written := Token.WrittenAs.number number
    rw [String.ofList_toList] at written
    exact written.alone
  | string text => exact (written_quote text).alone
  | @array items _ ih =>
    cases items with
    | nil => exact Token.WrittenAs.openArray.followed Token.WrittenAs.closeArray.alone
    | cons v rest =>
      have inside := (written_compactItems v ih).append Token.WrittenAs.closeArray.alone
      simpa [WrittenAs, tokens, compact] using Token.WrittenAs.openArray.followed inside
  | @object members _ ih =>
    cases members with
    | nil => exact Token.WrittenAs.openObject.followed Token.WrittenAs.closeObject.alone
    | cons m rest =>
      have inside := (written_compactMembers m ih).append Token.WrittenAs.closeObject.alone
      simpa [WrittenAs, tokens, compact] using Token.WrittenAs.openObject.followed inside

end Legv8.Json
