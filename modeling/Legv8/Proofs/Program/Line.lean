import Legv8.Proofs.Program.Numeral
import Mathlib.Data.List.TakeWhile

/-! # Lines of a program text

The code of a line is what stands in front of its first comment marker, without the blanks at both ends.
It is nothing or a word; a line whose code is neither cannot be read. -/
namespace Legv8.Text

/-- `inner` is what stands between the blanks at both ends of a text. -/
structure Trimmed (outer inner : List Char) : Prop where
  blanks : ∃ before after, outer = before ++ inner ++ after ∧ ∀ c ∈ before ++ after, isBlank c = true
  ends : ∀ c, inner.head? = some c ∨ inner.getLast? = some c → isBlank c = false

theorem dropWhile_isBlank {cs : List Char} (h : ∀ c, cs.head? = some c → isBlank c = false) :
    cs.dropWhile isBlank = cs := by
  cases cs with
  | nil => rfl
  | cons c rest => exact List.dropWhile_cons_of_neg (by simp [h c rfl])

theorem Trimmed.trim_eq {outer inner : List Char} (h : Trimmed outer inner) : trim outer = inner := by
  obtain ⟨⟨before, after, rfl, blank⟩, ends⟩ := h
  have behind : ∀ c ∈ after.reverse, isBlank c = true := fun c hc =>
    blank c (List.mem_append_right before (List.mem_reverse.mp hc))
  have front : (before ++ inner ++ after).dropWhile isBlank = if inner = [] then [] else inner ++ after := by
    rw [List.append_assoc, List.dropWhile_append_of_pos fun c hc => blank c (List.mem_append_left after hc)]
    cases inner with
    | nil => exact List.dropWhile_eq_nil_iff.mpr fun c hc => blank c (List.mem_append_right before hc)
    | cons c rest => exact dropWhile_isBlank fun d hd => ends d (.inl hd)
  rw [trim, front]
  split
  · next empty => rw [empty]; rfl
  · rw [List.reverse_append, List.dropWhile_append_of_pos behind,
      dropWhile_isBlank fun d hd => ends d (.inr (List.head?_reverse ▸ hd)), List.reverse_reverse]

theorem trimmed_trim (outer : List Char) : Trimmed outer (trim outer) := by
  have blank : ∀ (cs : List Char), ∀ c ∈ cs.takeWhile isBlank, isBlank c = true :=
    fun cs => List.all_eq_true.mp List.all_takeWhile
  have stops : ∀ (cs : List Char) c, (cs.dropWhile isBlank).head? = some c → isBlank c = false := by
    intro cs c hc
    have stop := List.head?_dropWhile_not isBlank cs
    rwa [hc] at stop
  have back : outer.dropWhile isBlank =
      trim outer ++ ((outer.dropWhile isBlank).reverse.takeWhile isBlank).reverse := by
    rw [trim, ← List.reverse_append, List.takeWhile_append_dropWhile, List.reverse_reverse]
  refine ⟨⟨outer.takeWhile isBlank, ((outer.dropWhile isBlank).reverse.takeWhile isBlank).reverse, ?_, ?_⟩, ?_⟩
  · rw [List.append_assoc, ← back, List.takeWhile_append_dropWhile]
  · intro c hc
    rcases List.mem_append.mp hc with before | after
    · exact blank _ c before
    · exact blank _ c (List.mem_reverse.mp after)
  · rintro c (first | last)
    · refine stops outer c ?_
      rw [back, List.head?_append, first]
      rfl
    · refine stops (outer.dropWhile isBlank).reverse c ?_
      rwa [trim, List.getLast?_reverse] at last

end Legv8.Text

namespace Legv8.Program.Hex

/-! ## Comments -/

/-- A comment starts here. -/
def StartsComment (cs : List Char) : Prop := ['#'] <+: cs ∨ ['/', '/'] <+: cs

/-- `head` is what stands in front of the first comment of a line. -/
structure Uncommented (line head : List Char) : Prop where
  comment : ∃ tail, line = head ++ tail ∧ (tail = [] ∨ StartsComment tail)
  first : ∀ front rest, line = front ++ rest → StartsComment rest → head.length ≤ front.length

theorem uncommented_stripComment (line : List Char) : Uncommented line (stripComment line) := by
  fun_induction stripComment line with
  | case1 => exact ⟨⟨[], rfl, .inl rfl⟩, fun _ _ _ _ => Nat.zero_le _⟩
  | case2 rest =>
    exact ⟨⟨_, rfl, .inr (.inl (List.prefix_append ['#'] rest))⟩, fun _ _ _ _ => Nat.zero_le _⟩
  | case3 rest =>
    exact ⟨⟨_, rfl, .inr (.inr (List.prefix_append ['/', '/'] rest))⟩, fun _ _ _ _ => Nat.zero_le _⟩
  | case4 c rest hash slashes ih =>
    obtain ⟨⟨tail, split, comment⟩, first⟩ := ih
    refine ⟨⟨tail, congrArg (c :: ·) split, comment⟩, fun front back whole starts => ?_⟩
    cases front with
    | nil =>
      exfalso
      rw [List.nil_append] at whole
      subst whole
      rcases starts with ⟨more, marked⟩ | ⟨more, marked⟩
      · cases marked
        exact hash rfl
      · cases marked
        exact slashes more rfl rfl
    | cons d front =>
      exact Nat.succ_le_succ (first front back (List.cons.inj whole).2 starts)

theorem Uncommented.unique {line head other : List Char} (h : Uncommented line head)
    (h' : Uncommented line other) : head = other := by
  have shortest : ∀ {a b}, Uncommented line a → Uncommented line b → b.length ≤ a.length := by
    intro a b ha hb
    obtain ⟨tail, split, rfl | starts⟩ := ha.comment
    · obtain ⟨rest, whole, _⟩ := hb.comment
      rw [List.append_nil] at split
      rw [← split, whole, List.length_append]
      exact Nat.le_add_right _ _
    · exact hb.first a tail split starts
  obtain ⟨tail, split, _⟩ := h.comment
  obtain ⟨rest, whole, _⟩ := h'.comment
  exact List.append_inj_left (split.symm.trans whole) (Nat.le_antisymm (shortest h' h) (shortest h h'))

theorem stripComment_eq_iff {line head : List Char} : stripComment line = head ↔ Uncommented line head :=
  ⟨fun h => h ▸ uncommented_stripComment line, fun h => (uncommented_stripComment line).unique h⟩

/-- A text without marker characters stays in front of a comment. -/
theorem stripComment_append {head comment : List Char} (free : ∀ c ∈ head, c ≠ '#' ∧ c ≠ '/')
    (ends : comment = [] ∨ StartsComment comment) : stripComment (head ++ comment) = head := by
  induction head with
  | nil =>
    rcases ends with rfl | ⟨rest, rfl⟩ | ⟨rest, rfl⟩
    · rfl
    · rfl
    · rfl
  | cons c rest ih =>
    obtain ⟨hash, slash⟩ := free c List.mem_cons_self
    rw [List.cons_append, stripComment, ih fun d hd => free d (List.mem_cons_of_mem c hd)]
    · exact hash
    · exact fun _ here => absurd here slash

/-! ## What a line holds -/

/-- What the code of a line may be: nothing, a numeral, or a numeral with one plus sign behind its radix
mark and in front of its digits. -/
inductive Means : List Char → Option Word → Prop where
  | nothing : Means [] none
  | word (n : Numeral) (w : Word) : n.value = w.toNat → Means n.text (some w)
  | plusWord (n : Numeral) (underscores : Nat) (w : Word) :
    n.value = w.toNat → Means (n.plusText underscores) (some w)

/-- `code` is what a line holds besides a comment and the blanks at both ends. -/
def IsCode (line code : List Char) : Prop := ∃ head, Uncommented line head ∧ Text.Trimmed head code

/-- The code of a line, as a word if it is not empty. -/
def content? (line : List Char) : Option (Option Word) :=
  if code line = [] then some none else (word? (code line)).map some

theorem code_eq_iff {line cs : List Char} : code line = cs ↔ IsCode line cs := by
  constructor
  · rintro rfl
    exact ⟨stripComment line, uncommented_stripComment line, Text.trimmed_trim _⟩
  · rintro ⟨head, uncommented, trimmed⟩
    rw [code, stripComment_eq_iff.mpr uncommented, trimmed.trim_eq]

theorem content?_eq_some_iff {line : List Char} {content : Option Word} :
    content? line = some content ↔ Means (code line) content := by
  unfold content?
  generalize code line = cs
  constructor
  · intro h
    split at h
    · next empty =>
      cases h
      rw [empty]
      exact .nothing
    · obtain ⟨w, read, rfl⟩ := Option.map_eq_some_iff.mp h
      obtain ⟨n, spelled, rfl | ⟨underscores, rfl⟩⟩ := word?_eq_some_iff.mp read
      · exact .word n w spelled
      · exact .plusWord n underscores w spelled
  · intro means
    have spelled : ∀ {cs w}, word? cs = some w →
        (if cs = [] then some none else (word? cs).map some) = some (some w) := by
      intro cs w read
      have some_ : cs ≠ [] := fun empty => by
        rw [empty] at read
        cases read
      rw [if_neg some_, read]
      rfl
    cases means with
    | nothing => rfl
    | word n w value => exact spelled (word?_eq_some_iff.mpr ⟨n, value, .inl rfl⟩)
    | plusWord n underscores w value => exact spelled (word?_eq_some_iff.mpr ⟨n, value, .inr ⟨underscores, rfl⟩⟩)

end Legv8.Program.Hex
