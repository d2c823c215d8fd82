import Legv8.Proofs.Program.Reading

/-! # Listings

A listing is a program text as people write it: a numeral or nothing on each line, blanks around it, and a
comment behind. Whatever the spelling of its numerals, its comments and its line ends, a listing is read as
the words that stand on it. Reading goes line by line, so that a text which ends with a line end can be read
apart from what follows it. -/
namespace Legv8

/-- The error of a text as it is behind some other lines. -/
def ProgramError.behind (lines : Nat) : ProgramError → ProgramError
  | .invalidWord line text => .invalidWord (line + lines) text
  | other => other

namespace Program.Hex

/-! ## Listings -/

inductive CommentMark where
  | hash
  | slashes

def CommentMark.text : CommentMark → List Char
  | hash => ['#']
  | slashes => ['/', '/']

structure Comment where
  mark : CommentMark
  remark : List Char
  one_line : '\n' ∉ remark

def Comment.text (c : Comment) : List Char := c.mark.text ++ c.remark

/-- A line without its end. The blanks may be any but a line feed. -/
structure Line where
  before : List Char
  numeral? : Option { n : Numeral // n.value < UInt32.size }
  after : List Char
  comment? : Option Comment
  blank : ∀ c ∈ before ++ after, Text.isBlank c = true ∧ c ≠ '\n'

inductive LineEnd where
  | lineFeed
  | returnAndLineFeed

/-- What a line end puts in front of its line feed. -/
def LineEnd.beforeFeed : LineEnd → List Char
  | lineFeed => []
  | returnAndLineFeed => ['\r']

namespace Line

def text (l : Line) : List Char :=
  l.before ++ (l.numeral?.elim [] fun n => n.1.text) ++ l.after ++ l.comment?.elim [] Comment.text

def word? (l : Line) : Option Word := l.numeral?.map fun n => n.1.value.toUInt32

end Line

/-- Lines that are ended, and a last one that is not. -/
structure Listing where
  ended : List (Line × LineEnd)
  last : Line

namespace Listing

def text (l : Listing) : List Char :=
  (l.ended.flatMap fun (line, ending) => line.text ++ ending.beforeFeed ++ ['\n']) ++ l.last.text

def words (l : Listing) : List Word := (l.ended.map (·.1.word?) ++ [l.last.word?]).reduceOption

end Listing

/-! ## What the lines of a listing hold -/

theorem unmarked_of_isBlank {c : Char} (blank : Text.isBlank c = true) : c ≠ '#' ∧ c ≠ '/' :=
  ⟨fun hash => absurd (hash ▸ blank) (by decide), fun slash => absurd (slash ▸ blank) (by decide)⟩

theorem Numeral.free_of_mem_text {n : Numeral} {c : Char} (h : c ∈ n.text) :
    Text.isBlank c = false ∧ c ≠ '#' ∧ c ≠ '/' := by
  have marks : ∀ mark : RadixMark, ∀ c ∈ mark.text, Text.isBlank c = false ∧ c ≠ '#' ∧ c ≠ '/' := by
    intro mark
    cases mark with
    | absent => exact List.forall_mem_nil _
    | lower | upper =>
      exact List.forall_mem_cons.mpr ⟨by decide, List.forall_mem_singleton.mpr (by decide)⟩
  rcases List.mem_append.mp h with mark | body
  · exact marks n.mark c mark
  · obtain ⟨g, _, rfl⟩ := List.mem_map.mp body
    have free := (char_notMem g).1
    simp only [List.mem_cons, not_or] at free
    exact ⟨(char_notMem g).2, free.2.2.2.2.1, free.2.2.2.1⟩

namespace Line

variable (l : Line)

/-- The numeral of a line as it stands there. -/
def written : List Char := l.numeral?.elim [] fun n => n.1.text

theorem free_of_mem_written {c : Char} (h : c ∈ l.written) : Text.isBlank c = false ∧ c ≠ '#' ∧ c ≠ '/' := by
  unfold written at h
  cases spelled : l.numeral? with
  | none =>
    rw [spelled] at h
    cases h
  | some n =>
    rw [spelled] at h
    exact Numeral.free_of_mem_text h

theorem startsComment : l.comment?.elim [] Comment.text = [] ∨
    StartsComment (l.comment?.elim [] Comment.text) := by
  cases l.comment? with
  | none => exact .inl rfl
  | some c =>
    obtain ⟨mark, remark, _⟩ := c
    cases mark with
    | hash => exact .inr (.inl (List.prefix_append ['#'] remark))
    | slashes => exact .inr (.inr (List.prefix_append ['/', '/'] remark))

/-- The code of a line is its numeral as it stands there. -/
theorem code_text : code l.text = l.written := by
  have free : ∀ c ∈ l.before ++ l.written ++ l.after, c ≠ '#' ∧ c ≠ '/' := by
    intro c hc
    rcases List.mem_append.mp hc with front | after
    · rcases List.mem_append.mp front with before | written
      · exact unmarked_of_isBlank (l.blank c (List.mem_append_left _ before)).1
      · exact (l.free_of_mem_written written).2
    · exact unmarked_of_isBlank (l.blank c (List.mem_append_right _ after)).1
  have trimmed : Text.Trimmed (l.before ++ l.written ++ l.after) l.written := by
    refine ⟨⟨l.before, l.after, rfl, fun c hc => (l.blank c hc).1⟩, ?_⟩
    rintro c (first | last)
    · exact (l.free_of_mem_written (List.mem_of_head? first)).1
    · exact (l.free_of_mem_written (List.mem_of_getLast? last)).1
  exact (congrArg Text.trim (stripComment_append free l.startsComment)).trans trimmed.trim_eq

theorem content?_text : content? l.text = some l.word? := by
  rw [content?_eq_some_iff, code_text, written, word?]
  cases l.numeral? with
  | none => exact .nothing
  | some n => exact .word n.1 _ (UInt32.toNat_ofNat_of_lt' n.2).symm

/-- The line with a carriage return behind it, which is a blank or belongs to the comment. -/
def withReturn (l : Line) : Line :=
  match l.comment? with
  | none => { l with
      after := l.after ++ ['\r']
      blank := by
        intro c hc
        rw [← List.append_assoc, List.mem_append, List.mem_singleton] at hc
        rcases hc with old | rfl
        · exact l.blank c old
        · decide }
  | some c => { l with comment? := some { c with
      remark := c.remark ++ ['\r']
      one_line := by simp [c.one_line] } }

theorem text_withReturn : l.withReturn.text = l.text ++ ['\r'] := by
  unfold withReturn text
  cases h : l.comment? with
  | none => simp
  | some c => simp [Comment.text]

theorem word?_withReturn : l.withReturn.word? = l.word? := by
  unfold withReturn
  split <;> rfl

/-- A line holds its word whichever way it ends. -/
theorem content?_ended (ending : LineEnd) : content? (l.text ++ ending.beforeFeed) = some l.word? := by
  cases ending with
  | lineFeed => rw [LineEnd.beforeFeed, List.append_nil, content?_text]
  | returnAndLineFeed => rw [LineEnd.beforeFeed, ← text_withReturn, content?_text, word?_withReturn]

theorem lineFeed_notMem : '\n' ∉ l.text := by
  intro mem
  simp only [text, List.mem_append, or_assoc] at mem
  rcases mem with before | written | after | comment
  · exact (l.blank _ (List.mem_append_left _ before)).2 rfl
  · exact absurd (l.free_of_mem_written written).1 (by decide)
  · exact (l.blank _ (List.mem_append_right _ after)).2 rfl
  · cases h : l.comment? with
    | none =>
      rw [h] at comment
      cases comment
    | some c =>
      rw [h] at comment
      rcases List.mem_append.mp comment with mark | remark
      · revert mark
        cases c.mark <;> decide
      · exact c.one_line remark

end Line

/-! ## Reading -/

/-- The lines of a listing hold its words. -/
theorem forall₂_content? (ended : List (Line × LineEnd)) (last : Line) :
    List.Forall₂ (fun line content => content? line = some content)
      (((ended.flatMap fun (line, ending) => line.text ++ ending.beforeFeed ++ ['\n']) ++ last.text).splitOn '\n')
      (ended.map (·.1.word?) ++ [last.word?]) := by
  induction ended with
  | nil =>
    rw [List.flatMap_nil, List.nil_append, List.splitOn_eq_singleton last.lineFeed_notMem]
    exact .cons last.content?_text .nil
  | cons first rest ih =>
    obtain ⟨line, ending⟩ := first
    have whole : '\n' ∉ line.text ++ ending.beforeFeed := by
      intro mem
      rcases List.mem_append.mp mem with text | feed
      · exact line.lineFeed_notMem text
      · revert feed
        cases ending <;> decide
    rw [List.flatMap_cons, List.append_assoc, List.append_assoc, List.singleton_append,
      List.splitOn_append_cons_self_of_not_mem whole]
    exact .cons (line.content?_ended ending) ih

theorem parse_listing (l : Listing) : parse (String.ofList l.text) = .ok l.words := by
  rw [parse, String.toList_ofList, lines_eq_splitOn, parseLines_eq_ok_iff]
  exact ⟨_, forall₂_content? l.ended l.last, rfl⟩

/-- The words so far stand in front of the rest. -/
theorem parseLines_eq_map (n : Nat) (ls : List (List Char)) (words : List Word) :
    parseLines n ls words = (parseLines n ls []).map (words.reverse ++ ·) := by
  induction ls generalizing n words with
  | nil => exact congrArg Except.ok (List.append_nil _).symm
  | cons line rest ih =>
    rw [parseLines_cons, parseLines_cons]
    cases content? line with
    | none => rfl
    | some content =>
      dsimp only
      rw [ih (n + 1) (content.toList ++ words), ih (n + 1) (content.toList ++ [])]
      cases parseLines (n + 1) rest [] with
      | ok read => simp [Except.map]
      | error err => rfl

/-- The number of the first line matters to errors only. -/
theorem parseLines_behind (n k : Nat) (ls : List (List Char)) (words : List Word) :
    parseLines (n + k) ls words = (parseLines n ls words).mapError (ProgramError.behind k) := by
  induction ls generalizing n words with
  | nil => rfl
  | cons line rest ih =>
    rw [parseLines_cons, parseLines_cons]
    cases content? line with
    | none => rfl
    | some content =>
      dsimp only
      rw [Nat.add_right_comm, ih]

/-- Lines in front of others are read first. -/
theorem parseLines_append (n : Nat) (ls later : List (List Char)) (words : List Word) :
    parseLines n (ls ++ later) words =
      match parseLines n ls words with
      | .ok read => parseLines (n + ls.length) later read.reverse
      | .error err => .error err := by
  induction ls generalizing n words with
  | nil => exact congrArg (parseLines n later) (List.reverse_reverse words).symm
  | cons line rest ih =>
    rw [List.cons_append, parseLines_cons, parseLines_cons]
    cases content? line with
    | none => rfl
    | some content =>
      dsimp only
      rw [ih, List.length_cons, Nat.add_assoc, Nat.add_comm 1]

theorem length_splitOn (c : Char) (cs : List Char) : (cs.splitOn c).length = cs.count c + 1 := by
  induction cs with
  | nil => rfl
  | cons d rest ih =>
    rw [List.splitOn_cons_eq_if_modifyHead, List.count_cons]
    split
    · rw [List.length_cons, ih]
    · rw [List.length_modifyHead, ih]

/-- A text that is empty or ends with a line feed has as many whole lines as line feeds. -/
theorem lines_of_ended {front : List Char} (ends : front = [] ∨ front.getLast? = some '\n') :
    ∃ whole : List (List Char), whole.length = front.count '\n' ∧
      ∀ back, lines (front ++ back) = whole ++ lines back := by
  rcases ends with rfl | last
  · exact ⟨[], rfl, fun back => rfl⟩
  · obtain ⟨init, rfl⟩ := List.getLast?_eq_some_iff.mp last
    refine ⟨init.splitOn '\n', ?_, fun back => ?_⟩
    · rw [length_splitOn, List.count_append]
      rfl
    · rw [lines_eq_splitOn, lines_eq_splitOn, List.append_assoc, List.singleton_append,
        List.splitOn_append_cons_self]

/-- A text that is empty or ends with a line feed can be read apart from what follows. -/
theorem parse_append {front : String} (ends : front = "" ∨ front.toList.getLast? = some '\n') (back : String) :
    parse (front ++ back) =
      match parse front, parse back with
      | .ok first, .ok second => .ok (first ++ second)
      | .ok _, .error err => .error (err.behind (front.toList.count '\n'))
      | .error err, _ => .error err := by
  have ended : front.toList = [] ∨ front.toList.getLast? = some '\n' :=
    ends.imp_left fun empty => by rw [empty, String.toList_empty]
  obtain ⟨whole, count, split⟩ := lines_of_ended ended
  -- behind its last line end the front has an empty line, which holds nothing
  have alone : parse front = parseLines 1 whole [] := by
    rw [parse, ← List.append_nil front.toList, split, parseLines_append]
    cases parseLines 1 whole [] with
    | ok read => exact congrArg Except.ok (List.reverse_reverse read)
    | error err => rfl
  rw [alone, parse, parse, String.toList_append, split, parseLines_append]
  cases parseLines 1 whole [] with
  | ok first =>
    dsimp only
    rw [parseLines_behind, parseLines_eq_map, List.reverse_reverse, count]
    cases parseLines 1 (lines back.toList) [] <;> rfl
  | error err => rfl

/-- Every listing is read as its words, however they are spelled and whatever stands around them, and a text
that is empty or ends with a line feed can be read apart from what follows: the words of both stand one
after the other, an error in front is the error of the whole, and one behind is reported as many lines
further down as there are in front. -/
theorem listings_are_read :
    (∀ l : Listing, parse (String.ofList l.text) = .ok l.words) ∧
      (∀ front back : String, front = "" ∨ front.toList.getLast? = some '\n' →
        parse (front ++ back) =
          match parse front, parse back with
          | .ok first, .ok second => .ok (first ++ second)
          | .ok _, .error err => .error (err.behind (front.toList.count '\n'))
          | .error err, _ => .error err) :=
  ⟨parse_listing, fun _ back ends => parse_append ends back⟩

/-- A marked numeral with an underscore and a comment, a line with a comment only and a last line without an
end; and two texts of which the second is refused at its second line. -/
theorem listings_are_read_threeLines :
    let marked : Numeral := ⟨.upper, [.digit 0 false, .underscore, .digit 13 false, .digit 14 true], by decide⟩
    let bare : Numeral := ⟨.absent, [.digit 7 false], by decide⟩
    let l : Listing :=
      { ended :=
          [(⟨[' '], some ⟨marked, by decide⟩, ['\t'], some ⟨.hash, [' ', 'a'], by decide⟩,
              by simp [Text.isBlank]⟩, .returnAndLineFeed),
            (⟨[], none, [], some ⟨.slashes, ['#'], by decide⟩, by simp⟩, .lineFeed)]
        last := ⟨[], some ⟨bare, by decide⟩, [], none, by simp⟩ }
    String.ofList l.text = " 0X0_dE\t# a\r\n//#\n7" ∧ parse " 0X0_dE\t# a\r\n//#\n7" = .ok [0xDE, 7] ∧
      ("1\n\n" = "" ∨ "1\n\n".toList.getLast? = some '\n') ∧
      parse ("1\n\n" ++ "2\nzz") = .error (.invalidWord 4 "zz") := by
  intro marked bare l
  obtain ⟨read, cut⟩ := listings_are_read
  have spelled : String.ofList l.text = " 0X0_dE\t# a\r\n//#\n7" := by decide +kernel
  have ends : "1\n\n" = "" ∨ "1\n\n".toList.getLast? = some '\n' := by decide +kernel
  exact ⟨spelled, spelled ▸ (read l).trans (by decide +kernel), ends, (cut _ _ ends).trans (by decide +kernel)⟩

end Program.Hex

end Legv8
