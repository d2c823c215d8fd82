import Legv8.Json.Codec
import Legv8.Proofs.Json.Grammar
import Mathlib.Data.List.Nodup
import Mathlib.Data.List.Pairwise
import Mathlib.Data.List.Perm.Basic

/-! # Codecs that keep to their documentation

A codec reads every text of a value alike, and it reads an object by its members: one after the other is
skipped or put in place, and a record of defaults is what the empty object means. Fields lie apart, so the
order of the members never matters as long as no known name is repeated. What an object means is then what
its known members mean, wherever they stand and whatever else stands among them. -/
namespace Legv8.Json

/-! ## Updates in any order -/

/-- Updates that may be made in either order, failures included. -/
def Interchangeable {α : Type} (f g : α → Option α) : Prop := ∀ a, (f a).bind g = (g a).bind f

namespace Interchangeable

variable {α : Type}

theorem symm {f g : α → Option α} (h : Interchangeable f g) : Interchangeable g f := fun a => (h a).symm

theorem fun_none (f : α → Option α) : Interchangeable f fun _ => none := fun a => by cases f a <;> rfl

theorem some (f : α → Option α) : Interchangeable f some := fun a => by cases h : f a <;> simp [h]

theorem bind {f f' g : α → Option α} (h : Interchangeable f g) (h' : Interchangeable f' g) :
    Interchangeable (fun a => (f a).bind f') g := by
  intro a
  calc
    ((f a).bind f').bind g = (f a).bind fun b => (f' b).bind g := Option.bind_assoc ..
    _ = (f a).bind fun b => (g b).bind f' := congrArg _ (funext h')
    _ = ((f a).bind g).bind f' := (Option.bind_assoc ..).symm
    _ = ((g a).bind f).bind f' := by rw [h a]
    _ = (g a).bind fun b => (f b).bind f' := Option.bind_assoc ..

end Interchangeable

theorem Field.Apart.interchangeable {α : Type} {s t : Field α} (h : s.Apart t) (v w : Json) :
    Interchangeable (s.put v) (t.put w) := by
  intro a
  unfold put
  cases s.form.read v <;> cases t.form.read w <;> simp [h _ _ a]

instance {α : Type} : Std.Symm (Field.Apart (α := α)) := ⟨fun _ _ h x y a => (h y x a).symm⟩

/-! ## Documented behaviour -/

/-- What the documentation of a codec says about it. -/
structure Codec.Documented (codec : Codec) : Prop where
  /-- A text is read as the value that it spells. -/
  fromText_eq : ∀ {α : Type} (form : Form α) {v : Json} {text : String}, v.WrittenAs text →
    codec.fromText form text = form.read v
  /-- A value is written as one of its texts. -/
  written_toText : ∀ {α : Type} (form : Form α) (a : α), (form.write a).WellFormed →
    (form.write a).WrittenAs (codec.toText form a)
  read_bool : ∀ b, codec.bool.read (.bool b) = some b
  write_bool : ∀ b, codec.bool.write b = .bool b
  /-- Every number of 64 bits is read from its digits. -/
  read_uint64 : ∀ n : UInt64, codec.uint64.read (.ofNat n.toNat) = some n
  write_uint64 : ∀ n : UInt64, codec.uint64.write n = .ofNat n.toNat
  read_null : ∀ {α : Type} (form : Form α), (codec.optional form).read .null = some none
  read_present : ∀ {α : Type} (form : Form α) {v : Json}, v ≠ .null →
    (codec.optional form).read v = (form.read v).map some
  write_none : ∀ {α : Type} (form : Form α), (codec.optional form).write none = .null
  write_some : ∀ {α : Type} (form : Form α) (a : α), (codec.optional form).write (some a) = form.write a
  /-- Fields that are not given keep their defaults. -/
  read_empty : ∀ {α : Type} (record : Record α),
    (codec.record record).read (.ofMembers []) = some record.default
  /-- A member whose name is not known is skipped. -/
  read_unknown : ∀ {α : Type} (record : Record α) {name : String} (v : Json)
    (members : List (String × Json)), name ∉ record.names →
    (codec.record record).read (.ofMembers ((name, v) :: members)) =
      (codec.record record).read (.ofMembers members)
  /-- A member whose name is that of a field is put in place, if no other member has the name. -/
  read_known : ∀ {α : Type} (record : Record α) {field : Field α} (v : Json)
    (members : List (String × Json)), field ∈ record.fields → field.name ∉ members.map Prod.fst →
    (codec.record record).read (.ofMembers ((field.name, v) :: members)) =
      ((codec.record record).read (.ofMembers members)).bind (field.put v)
  /-- A record is written with all of its fields. -/
  write_record : ∀ {α : Type} (record : Record α) (a : α), (codec.record record).write a =
    .ofMembers (record.fields.map fun field => (field.name, field.form.write (field.get a)))

/-! ## Members in any order -/

namespace Record

variable {α : Type} (record : Record α)

/-- What a member puts in place, which is nothing if its name is not known. -/
def put (m : String × Json) : α → Option α :=
  match record.fields.find? (·.name == m.1) with
  | some field => field.put m.2
  | none => some

/-- The defaults, with what the members put in their place. -/
def overlay (members : List (String × Json)) : Option α :=
  members.foldr (fun m a => a.bind (record.put m)) (some record.default)

/-- No known name is repeated. -/
def Unrepeated (members : List (String × Json)) : Prop :=
  members.Pairwise fun m n => m.1 = n.1 → m.1 ∉ record.names

variable {record}

theorem find?_of_mem {field : Field α} (known : field ∈ record.fields) :
    record.fields.find? (·.name == field.name) = some field := by
  cases found : record.fields.find? (·.name == field.name) with
  | none => simpa using List.find?_eq_none.mp found field known
  | some other =>
    have same : other.name = field.name := by simpa using List.find?_some found
    rw [List.inj_on_of_nodup_map record.nodup (List.mem_of_find?_eq_some found) known same]

theorem find?_of_notMem {name : String} (unknown : name ∉ record.names) :
    record.fields.find? (·.name == name) = none := by
  rw [List.find?_eq_none]
  intro field known same
  exact unknown (List.mem_map.mpr ⟨field, known, by simpa using same⟩)

theorem put_of_mem {field : Field α} (known : field ∈ record.fields) (v : Json) :
    record.put (field.name, v) = field.put v := by
  simp only [put, find?_of_mem known]

theorem put_of_notMem {name : String} (unknown : name ∉ record.names) (v : Json) :
    record.put (name, v) = some := by
  simp only [put, find?_of_notMem unknown]

theorem put_interchangeable {m n : String × Json} (h : m.1 = n.1 → m.1 ∉ record.names) :
    Interchangeable (record.put m) (record.put n) := by
  obtain ⟨name, v⟩ := m
  obtain ⟨name', w⟩ := n
  by_cases first : name ∈ record.names
  · by_cases second : name' ∈ record.names
    · obtain ⟨field, hf, rfl⟩ := List.mem_map.mp first
      obtain ⟨field', hf', rfl⟩ := List.mem_map.mp second
      have different : field ≠ field' := by
        rintro rfl
        exact h rfl first
      rw [put_of_mem hf, put_of_mem hf']
      exact (record.apart.forall hf hf' different).interchangeable v w
    · rw [put_of_notMem second]
      exact .some _
  · rw [put_of_notMem first]
    exact (Interchangeable.some _).symm

section Order

variable {members members' : List (String × Json)}

theorem Unrepeated.perm (unrepeated : record.Unrepeated members) (placed : members.Perm members') :
    record.Unrepeated members' :=
  (placed.pairwise_iff fun apart same => same ▸ apart same.symm).mp unrepeated

/-- The order of the members does not matter. -/
theorem overlay_perm (unrepeated : record.Unrepeated members) (placed : members.Perm members') :
    record.overlay members = record.overlay members' := by
  induction placed with
  | nil => rfl
  | cons m _ ih => exact congrArg (·.bind (record.put m)) (ih unrepeated.of_cons)
  | swap m n rest =>
    have apart := put_interchangeable (List.rel_of_pairwise_cons unrepeated List.mem_cons_self)
    calc ((record.overlay rest).bind (record.put m)).bind (record.put n)
      _ = (record.overlay rest).bind fun a => (record.put m a).bind (record.put n) := Option.bind_assoc ..
      _ = (record.overlay rest).bind fun a => (record.put n a).bind (record.put m) :=
        congrArg _ (funext apart.symm)
      _ = ((record.overlay rest).bind (record.put n)).bind (record.put m) := (Option.bind_assoc ..).symm
  | trans first _ ih ih' => exact (ih unrepeated).trans (ih' (unrepeated.perm first))

end Order

/-- Members whose names are not known change nothing. -/
theorem overlay_append (given : List (String × Json)) {others : List (String × Json)}
    (unknown : ∀ m ∈ others, m.1 ∉ record.names) :
    record.overlay (given ++ others) = record.overlay given := by
  have nothing : record.overlay others = some record.default := by
    induction others with
    | nil => rfl
    | cons m rest ih =>
      have skipped := ih fun n hn => unknown n (List.mem_cons_of_mem m hn)
      rw [overlay, List.foldr_cons, ← overlay, skipped, put_of_notMem (unknown m List.mem_cons_self)]
      rfl
  rw [overlay, List.foldr_append, ← overlay, nothing]
  rfl

end Record

/-- The value is an object with the given members in any order, and any others whose names are not known. -/
def Gives (known : List String) (given : List (String × Json)) (v : Json) : Prop :=
  ∃ others members, v = .ofMembers members ∧ members.Perm (given ++ others) ∧ ∀ m ∈ others, m.1 ∉ known

theorem Gives.refl (known : List String) (given : List (String × Json)) :
    Gives known given (.ofMembers given) :=
  ⟨[], given, rfl, by rw [List.append_nil], nofun⟩

namespace Codec.Documented

variable {codec : Codec} (documented : codec.Documented) {α : Type} {record : Record α}
include documented

theorem read_ofMembers {members : List (String × Json)} (unrepeated : record.Unrepeated members) :
    (codec.record record).read (.ofMembers members) = record.overlay members := by
  induction members with
  | nil => exact documented.read_empty record
  | cons m rest ih =>
    obtain ⟨name, v⟩ := m
    have later : record.overlay ((name, v) :: rest) = (record.overlay rest).bind (record.put (name, v)) := rfl
    by_cases known : name ∈ record.names
    · obtain ⟨field, hf, rfl⟩ := List.mem_map.mp known
      have alone : field.name ∉ rest.map Prod.fst := by
        intro repeated
        obtain ⟨n, hn, same⟩ := List.mem_map.mp repeated
        exact List.rel_of_pairwise_cons unrepeated hn same.symm known
      rw [documented.read_known record v rest hf alone, ih unrepeated.of_cons, later, Record.put_of_mem hf]
    · rw [documented.read_unknown record v rest known, ih unrepeated.of_cons, later,
        Record.put_of_notMem known, Option.bind_fun_some]

/-- An object means what its known members mean, wherever they stand. -/
theorem read_of_gives (record : Record α) {given : List (String × Json)} {v : Json}
    (gives : Gives record.names given v) (distinct : (given.map Prod.fst).Nodup) :
    (codec.record record).read v = record.overlay given := by
  obtain ⟨others, members, rfl, placed, unknown⟩ := gives
  have unrepeated : record.Unrepeated (given ++ others) := by
    refine List.pairwise_append.mpr ⟨?_, ?_, ?_⟩
    · exact (List.pairwise_map.mp distinct).imp fun different same => absurd same different
    · exact List.pairwise_of_forall_mem_list fun m hm _ _ _ => unknown m hm
    · exact fun m _ n hn same => same ▸ unknown n hn
  rw [documented.read_ofMembers (unrepeated.perm placed.symm), ← Record.overlay_perm unrepeated placed.symm,
    Record.overlay_append given unknown]

end Codec.Documented

end Legv8.Json
