import Legv8.Proofs.Refinement.Simulation

/-! # Who is in flight

As long as the sequential machine goes on and takes no branch at an instruction that waits for execution,
the instructions in flight are its next ones, in order. So on a run that gets far enough, what a pipeline
holds at any place past decode, and in decode itself, is known from its position alone. -/
namespace Legv8

/-- The slots of a view, oldest first. -/
def View.slots (v : View) : List Slot := v.front ++ v.back

theorem View.length_front (v : View) : v.front.length = v.accessed.length + v.executed.length := by
  rw [View.front, List.length_append, List.length_map, List.length_map]

theorem View.length_words (v : View) : v.words.length = v.front.length + v.issued.length := by
  simp only [View.words, View.front, List.length_append, List.length_map]

namespace Flowing

variable {s : Sequential} {v : View}

theorem tracks_slots (h : Flowing s v) : Tracks (·.core.pc = v.core.pc) s v.slots :=
  tracks_append.mpr (h.tracks.mono h.idle fun _ _ at_ => at_.tracks)

/-- A slot is the instruction of the step at its position, unless the machine stops before or takes a branch
at a slot before it that has not been executed. -/
theorem agrees (h : Flowing s v) {i : Nat} {x : Slot} (hx : v.slots[i]? = some x) (reaches : s.Reaches i)
    (straight : ∀ j < i, v.front.length ≤ j →
      (s.after (j + 1)).core.pc = (s.after j).core.pc + 4) : x.Agrees (s.after i) := by
  have live := reaches.stop h.idle h.live
  obtain ⟨bound, held⟩ := List.getElem?_eq_some_iff.mp hx
  have length : (v.slots.take i).length = i := by rw [List.length_take, Nat.min_eq_left (Nat.le_of_lt bound)]
  have split : v.slots = v.slots.take i ++ x :: v.slots.drop (i + 1) := by
    rw [← held, ← List.drop_eq_getElem_cons, List.take_append_drop]
  have slots := h.tracks_slots
  rw [split, tracks_append] at slots
  have here := slots.behind (by rw [length]; exact reaches) (by rw [length]; exact live) ?_
  · rw [length] at here
    exact (here live).1
  · intro j y hy
    have early : j < i := by
      rw [← length]
      exact (List.getElem?_eq_some_iff.mp hy).1
    rw [List.getElem?_take_of_lt early] at hy
    rcases Nat.lt_or_ge j v.front.length with settled | late
    · rw [View.slots, List.getElem?_append_left settled] at hy
      exact .inl (settled_front v y (List.mem_of_getElem? hy))
    · exact .inr (straight j early late)

/-- The words past decode are those of the next steps. -/
theorem word_eq (h : Flowing s v) {i : Nat} (bound : i < v.words.length) (reaches : s.Reaches i)
    (straight : ∀ j < i, v.front.length ≤ j →
      (s.after (j + 1)).core.pc = (s.after j).core.pc + 4) : v.words[i] = (s.after i).entry.word := by
  have words : v.slots.map (·.toInFlight.word) = v.words ++ v.fetched.map (·.word) := by
    simp only [View.slots, View.front, View.back, View.words, List.map_append, List.map_map,
      List.append_assoc]
    rfl
  have found : (v.slots.map (·.toInFlight.word))[i]? = some v.words[i] := by
    rw [words, List.getElem?_append_left bound, List.getElem?_eq_getElem bound]
  rw [List.getElem?_map] at found
  obtain ⟨x, hx, word⟩ := Option.map_eq_some_iff.mp found
  rw [← word, (h.agrees hx reaches straight).toInFlight]

/-- The oldest instruction that has only been fetched is the step behind all words past decode. -/
theorem entry_eq (h : Flowing s v) {e : Fetched} {rest : List Fetched} (oldest : v.fetched = e :: rest)
    (reaches : s.Reaches v.words.length)
    (straight : ∀ j < v.words.length, v.front.length ≤ j →
      (s.after (j + 1)).core.pc = (s.after j).core.pc + 4) : (s.after v.words.length).entry = e := by
  have slot : v.slots[v.words.length]? = some (.fetched e) := by
    have length : (v.front ++ v.issued.map Slot.issued).length = v.words.length := by
      rw [List.length_append, List.length_map, View.length_words]
    rw [View.slots, View.back, ← List.append_assoc, ← length,
      List.getElem?_append_right (Nat.le_refl _), Nat.sub_self, oldest]
    rfl
  exact h.agrees slot reaches straight

/-- The oldest instruction that has been issued is what the machine executes behind all that has been. -/
theorem executes_issued (h : Flowing s v) {y : Issued} {rest : List Issued} (oldest : v.issued = y :: rest)
    (reaches : s.Reaches v.front.length) :
    (s.after v.front.length).Issues { y with reserved := false } ∧
      (s.after v.front.length).alu.execute { y with reserved := false } = v.alu.execute y := by
  have at_ := h.tracks.elim (settled_front v) reaches (reaches.stop h.idle h.live)
  have slots := at_.tracks
  rw [View.back, oldest] at slots
  refine ⟨(slots (reaches.stop h.idle h.live)).1, ?_⟩
  rw [at_.alu, Alu.execute_reserved]

end Flowing

end Legv8
