import Legv8.Json.Standard
import Legv8.Proofs.Json.Codec
import Legv8.Proofs.Json.Parsing
import Legv8.Proofs.Json.Printing

/-! # The standard codec keeps to its documentation

The standard codec reads a text as the value that it spells and prints one of the texts of a value. It puts
the members of an object in place from the first to the last one; a field that no other member names may as
well be put in place at the end. -/
namespace Legv8.Json

/-! ## Members of an object -/

namespace Record

variable {α : Type} {record : Record α}

/-- Puts members in place whose names all have a text. -/
def putNamed (record : Record α) (seen : List String) (members : List (String × Json)) : α → Option α :=
  record.putMembers seen (members.map fun (name, v) => (some name, v))

section Cons

variable {seen : List String} {v : Json} {rest : List (String × Json)}

theorem putNamed_unknown {name : String} (unknown : name ∉ record.names) :
    record.putNamed seen ((name, v) :: rest) = record.putNamed seen rest := by
  funext a
  rw [putNamed, List.map_cons, putMembers, find?_of_notMem unknown]
  rfl

variable {field : Field α} (known : field ∈ record.fields)
include known

theorem putNamed_repeated (repeated : field.name ∈ seen) :
    record.putNamed seen ((field.name, v) :: rest) = fun _ => none := by
  funext a
  rw [putNamed, List.map_cons, putMembers, find?_of_mem known]
  exact if_pos (List.contains_iff_mem.mpr repeated)

theorem putNamed_known (fresh : field.name ∉ seen) : record.putNamed seen ((field.name, v) :: rest) =
    fun a => (field.put v a).bind (record.putNamed (field.name :: seen) rest) := by
  funext a
  rw [putNamed, List.map_cons, putMembers, find?_of_mem known]
  dsimp only
  rw [if_neg (mt List.contains_iff_mem.mp fresh)]
  cases field.put v a <;> rfl

end Cons

/-- Only the names that are still to come matter among those that were seen. -/
theorem putNamed_congr {seen seen' : List String} {members : List (String × Json)}
    (same : ∀ name ∈ members.map Prod.fst, name ∈ seen ↔ name ∈ seen') :
    record.putNamed seen members = record.putNamed seen' members := by
  induction members generalizing seen seen' with
  | nil => rfl
  | cons m rest ih =>
    obtain ⟨name, v⟩ := m
    rw [List.map_cons, List.forall_mem_cons] at same
    obtain ⟨here, later⟩ := same
    by_cases known : name ∈ record.names
    · obtain ⟨field, hf, rfl⟩ := List.mem_map.mp known
      by_cases repeated : field.name ∈ seen
      · rw [putNamed_repeated hf repeated, putNamed_repeated hf (here.mp repeated)]
      · rw [putNamed_known hf repeated, putNamed_known hf (mt here.mpr repeated)]
        have grown := @ih (field.name :: seen) (field.name :: seen') fun name hn => by
          rw [List.mem_cons, List.mem_cons, later name hn]
        rw [grown]
    · rw [putNamed_unknown known, putNamed_unknown known, ih later]

/-- A field that the members do not name may be put in place before or after them. -/
theorem putNamed_interchangeable {field : Field α} (known : field ∈ record.fields) (v : Json)
    {members : List (String × Json)} (alone : field.name ∉ members.map Prod.fst) (seen : List String) :
    Interchangeable (record.putNamed seen members) (field.put v) := by
  induction members generalizing seen with
  | nil => exact (Interchangeable.some _).symm
  | cons m rest ih =>
    obtain ⟨name, w⟩ := m
    rw [List.map_cons, List.mem_cons, not_or] at alone
    obtain ⟨different, later⟩ := alone
    by_cases other : name ∈ record.names
    · obtain ⟨field', hf, rfl⟩ := List.mem_map.mp other
      by_cases repeated : field'.name ∈ seen
      · rw [putNamed_repeated hf repeated]
        exact (Interchangeable.fun_none _).symm
      · rw [putNamed_known hf repeated]
        have apart := record.apart.forall hf known (ne_of_apply_ne Field.name (Ne.symm different))
        exact (apart.interchangeable w v).bind (ih later _)
    · rw [putNamed_unknown other]
      exact ih later seen

end Record

/-! ## The codec -/

theorem toUInt64?_ofNat (n : UInt64) : (ofNat n.toNat).toUInt64? = some n := by
  rw [ofNat, toUInt64?, Text.numberBelow?_decimal n.toNat_lt]
  simp

theorem Codec.standard_documented : Codec.standard.Documented where
  fromText_eq form v text written := by
    change (parse? text).bind form.read = form.read v
    rw [parse?_eq_some_iff.mpr written, Option.bind_some]
  written_toText _ _ wellFormed := wellFormed.written_compact
  read_bool _ := rfl
  write_bool _ := rfl
  read_uint64 := toUInt64?_ofNat
  write_uint64 _ := rfl
  read_null _ := rfl
  read_present form v present := by
    cases v with
    | null => exact absurd rfl present
    | _ => rfl
  write_none _ := rfl
  write_some _ _ := rfl
  read_empty _ := rfl
  read_unknown record name v members unknown := congrFun (Record.putNamed_unknown unknown) record.default
  read_known record field v members known alone := by
    have same : record.putNamed [field.name] members = record.putNamed [] members :=
      Record.putNamed_congr fun name hn => by
        rw [List.mem_singleton]
        exact iff_of_false (fun h => alone (h ▸ hn)) List.not_mem_nil
    change record.putNamed [] ((field.name, v) :: members) record.default =
      (record.putNamed [] members record.default).bind (field.put v)
    -- the field is put in place first, and the law has it put in place last
    rw [Record.putNamed_known known List.not_mem_nil, same]
    exact (Record.putNamed_interchangeable known v alone [] record.default).symm
  write_record _ _ := rfl

end Legv8.Json
