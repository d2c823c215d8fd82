import Legv8.Config.Standard
import Legv8.Proofs.Json.Standard
import Mathlib.Data.Option.Defs

/-! # Configurations from documents

What a configuration text may give is any choice of the sections, and of the settings in them. However the
members are ordered, and whatever other members stand among them, the text comes to the default
configuration with the given settings in place, checked as a whole. The text of a whole configuration is
one such document, so it comes to that configuration. All this holds with any codec that keeps to its
documentation. -/
namespace Legv8.Config

/-! ## What a document gives -/

structure GeneralPart where
  tracing : Option Bool
  startPc : Option UInt64

structure MemoryPart where
  size : Option UInt64

structure ClockPart where
  intervalMs : Option UInt64
  /-- No budget at all can be given too. -/
  maxCycles : Option (Option UInt64)

/-- The sections that are given, with the settings given in them. -/
structure Document where
  general : Option GeneralPart
  memory : Option MemoryPart
  clock : Option ClockPart

/-- The defaults, with what is given in their place. -/
def Document.config (d : Document) : Config where
  tracing := (d.general.bind GeneralPart.tracing).getD Config.default.tracing
  startPc := (d.general.bind GeneralPart.startPc).getD Config.default.startPc
  memorySize := (d.memory.bind MemoryPart.size).getD Config.default.memorySize
  intervalMs := (d.clock.bind ClockPart.intervalMs).getD Config.default.intervalMs
  maxCycles := (d.clock.bind ClockPart.maxCycles).getD Config.default.maxCycles

/-! ## How it is written -/

/-- The member of something that may be given. -/
def member {α : Type} (name : String) (write : α → Json) (given : Option α) : List (String × Json) :=
  given.toList.map fun a => (name, write a)

def writeNumber (n : UInt64) : Json := .ofNat n.toNat

def writeBudget (n : Option UInt64) : Json := .ofOptionNat (n.map UInt64.toNat)

def GeneralPart.members (s : GeneralPart) : List (String × Json) :=
  member "trace_instructions" Json.bool s.tracing ++ member "start_pc" writeNumber s.startPc

def MemoryPart.members (s : MemoryPart) : List (String × Json) := member "size_bytes" writeNumber s.size

def ClockPart.members (s : ClockPart) : List (String × Json) :=
  member "interval_ms" writeNumber s.intervalMs ++ member "max_cycles" writeBudget s.maxCycles

/-- The section is left out, or it is an object with what is given in it. -/
def GivesSection {σ : Type} (known : List String) (members : σ → List (String × Json)) :
    Option σ → Option Json → Prop :=
  Option.Rel fun s => Json.Gives known (members s)

/-- The value is an object of nested objects that give what the document gives. -/
def Document.Describes (d : Document) (v : Json) : Prop :=
  ∃ general memory clock,
    GivesSection ["trace_instructions", "start_pc"] GeneralPart.members d.general general ∧
    GivesSection ["size_bytes"] MemoryPart.members d.memory memory ∧
    GivesSection ["interval_ms", "max_cycles"] ClockPart.members d.clock clock ∧
    Json.Gives ["general", "memory", "clock"]
      (member "general" id general ++ member "memory" id memory ++ member "clock" id clock) v

/-- The document that gives everything. -/
def document (c : Config) : Document where
  general := some ⟨some c.tracing, some c.startPc⟩
  memory := some ⟨some c.memorySize⟩
  clock := some ⟨some c.intervalMs, some c.maxCycles⟩

theorem sublist_member {α : Type} (name : String) (write : α → Json) (given : Option α) :
    ((member name write given).map Prod.fst).Sublist [name] := by
  cases given with
  | none => exact List.nil_sublist _
  | some a => exact List.Sublist.refl _

section Codec

variable {codec : Json.Codec} (documented : codec.Documented)
include documented

/-! ## Sections -/

theorem read_budget (n : Option UInt64) : (codec.optional codec.uint64).read (writeBudget n) = some n := by
  cases n with
  | none => exact documented.read_null codec.uint64
  | some n =>
    have present : writeBudget (some n) ≠ .null := by simp [writeBudget, Json.ofOptionNat, Json.ofNat]
    rw [documented.read_present _ present]
    exact congrArg _ (documented.read_uint64 n)

/-- A section is its defaults with what is given in their place. -/
theorem read_general {s : Option GeneralPart} {v : Option Json}
    (h : GivesSection ["trace_instructions", "start_pc"] GeneralPart.members s v) :
    v.elim (some .default) (codec.record (GeneralSection.record codec)).read = some
      { tracing := (s.bind GeneralPart.tracing).getD GeneralSection.default.tracing
        startPc := (s.bind GeneralPart.startPc).getD GeneralSection.default.startPc } := by
  cases h with
  | none => rfl
  | @some s v h =>
    have names := (sublist_member "trace_instructions" Json.bool s.tracing).append
      (sublist_member "start_pc" writeNumber s.startPc)
    have distinct := names.nodup (by decide)
    rw [← List.map_append] at distinct
    rw [Option.elim_some, documented.read_of_gives (GeneralSection.record codec) h distinct]
    obtain ⟨_ | b, _ | n⟩ := s <;>
      simp [Json.Record.overlay, Json.Record.put, GeneralSection.record, GeneralPart.members, member,
        Json.Field.put, writeNumber, documented.read_bool, documented.read_uint64]

theorem read_memory {s : Option MemoryPart} {v : Option Json}
    (h : GivesSection ["size_bytes"] MemoryPart.members s v) :
    v.elim (some .default) (codec.record (MemorySection.record codec)).read = some
      { memorySize := (s.bind MemoryPart.size).getD MemorySection.default.memorySize } := by
  cases h with
  | none => rfl
  | @some s v h =>
    have distinct := (sublist_member "size_bytes" writeNumber s.size).nodup (by decide)
    rw [Option.elim_some, documented.read_of_gives (MemorySection.record codec) h distinct]
    obtain ⟨_ | n⟩ := s <;>
      simp [Json.Record.overlay, Json.Record.put, MemorySection.record, MemoryPart.members, member,
        Json.Field.put, writeNumber, documented.read_uint64]

theorem read_clock {s : Option ClockPart} {v : Option Json}
    (h : GivesSection ["interval_ms", "max_cycles"] ClockPart.members s v) :
    v.elim (some .default) (codec.record (ClockSection.record codec)).read = some
      { intervalMs := (s.bind ClockPart.intervalMs).getD ClockSection.default.intervalMs
        maxCycles := (s.bind ClockPart.maxCycles).getD ClockSection.default.maxCycles } := by
  cases h with
  | none => rfl
  | @some s v h =>
    have names := (sublist_member "interval_ms" writeNumber s.intervalMs).append
      (sublist_member "max_cycles" writeBudget s.maxCycles)
    have distinct := names.nodup (by decide)
    rw [← List.map_append] at distinct
    rw [Option.elim_some, documented.read_of_gives (ClockSection.record codec) h distinct]
    obtain ⟨_ | n, _ | budget⟩ := s <;>
      simp [Json.Record.overlay, Json.Record.put, ClockSection.record, ClockPart.members, member,
        Json.Field.put, writeNumber, documented.read_uint64, read_budget documented]

/-! ## Configurations -/

omit documented in
/-- The sections that are given take the place of the sections by default. -/
theorem overlay_sections {general memory clock : Option Json} {g : GeneralSection} {m : MemorySection}
    {c : ClockSection}
    (hg : general.elim (some .default) (codec.record (GeneralSection.record codec)).read = some g)
    (hm : memory.elim (some .default) (codec.record (MemorySection.record codec)).read = some m)
    (hc : clock.elim (some .default) (codec.record (ClockSection.record codec)).read = some c) :
    (record codec).overlay
        (member "general" id general ++ member "memory" id memory ++ member "clock" id clock) =
      some { toGeneralSection := g, toMemorySection := m, toClockSection := c } := by
  cases general <;> cases memory <;> cases clock <;>
    simp only [Option.elim_none, Option.elim_some, Option.some.injEq] at hg hm hc <;>
    simp [Json.Record.overlay, Json.Record.put, record, member, Json.Field.put, default, hg, hm, hc]

/-- A described value is the default configuration with what is given in its place. -/
theorem read_of_describes {d : Document} {v : Json} (h : d.Describes v) :
    (form codec).read v = some d.config := by
  obtain ⟨general, memory, clock, hgeneral, hmemory, hclock, whole⟩ := h
  have names := ((sublist_member "general" id general).append (sublist_member "memory" id memory)).append
    (sublist_member "clock" id clock)
  have distinct := names.nodup (by decide)
  rw [← List.map_append, ← List.map_append] at distinct
  rw [form, documented.read_of_gives (record codec) whole distinct,
    overlay_sections (read_general documented hgeneral) (read_memory documented hmemory)
      (read_clock documented hclock)]
  rfl

/-! ## Texts -/

theorem read_of_described {d : Document} {v : Json} {text : String} (described : d.Describes v)
    (written : v.WrittenAs text) : read codec text = d.config.validate.map fun _ => d.config := by
  rw [read, documented.fromText_eq _ written, read_of_describes documented described]
  dsimp only
  cases d.config.validate <;> rfl

/-- A configuration is written with all of its settings. -/
theorem write_eq (c : Config) : (form codec).write c =
    .ofMembers
      [("general", .ofMembers [("trace_instructions", .bool c.tracing), ("start_pc", writeNumber c.startPc)]),
        ("memory", .ofMembers [("size_bytes", writeNumber c.memorySize)]),
        ("clock", .ofMembers
          [("interval_ms", writeNumber c.intervalMs), ("max_cycles", writeBudget c.maxCycles)])] := by
  have budget : (codec.optional codec.uint64).write c.maxCycles = writeBudget c.maxCycles := by
    cases c.maxCycles with
    | none => exact documented.write_none codec.uint64
    | some n => exact (documented.write_some codec.uint64 n).trans (documented.write_uint64 n)
  simp only [form, documented.write_record, record, GeneralSection.record, MemorySection.record,
    ClockSection.record, List.map_cons, List.map_nil, documented.write_bool, documented.write_uint64, budget,
    writeNumber]

theorem document_describes (c : Config) : c.document.Describes ((form codec).write c) := by
  rw [write_eq documented]
  exact ⟨_, _, _, .some (.refl _ _), .some (.refl _ _), .some (.refl _ _), .refl _ _⟩

theorem wellFormed_write (c : Config) : ((form codec).write c).WellFormed := by
  rw [write_eq documented]
  refine Json.wellFormed_ofMembers fun m hm => ?_
  simp only [List.mem_cons, List.not_mem_nil, or_false] at hm
  rcases hm with rfl | rfl | rfl <;> refine Json.wellFormed_ofMembers ?_
  · simp [Json.WellFormed.bool, Json.wellFormed_ofNat, writeNumber]
  · simp [Json.wellFormed_ofNat, writeNumber]
  · simp [Json.wellFormed_ofNat, Json.wellFormed_ofOptionNat, writeNumber, writeBudget]

end Codec

/-- With a codec that keeps to its documentation, a text comes to the defaults with what it gives in their
place, if that can run at all, and otherwise to the reason why it cannot. So a configuration that can run is
what its own text comes to. -/
theorem documents_overlay_defaults {codec : Json.Codec} (documented : codec.Documented) :
    (∀ (d : Document) (v : Json) (text : String), d.Describes v → v.WrittenAs text →
      read codec text = d.config.validate.map fun _ => d.config) ∧
      ∀ c : Config, c.validate = .ok () → read codec (write codec c) = .ok c := by
  constructor
  · intro d v text described written
    exact read_of_described documented described written
  · intro c valid
    have itself : c.document.config = c := rfl
    have written := documented.written_toText (form codec) c (wellFormed_write documented c)
    rw [write, read_of_described documented (document_describes documented c) written, itself, valid]
    rfl

set_option maxRecDepth 2000 in
/-- Blanks, escapes and a lone surrogate, sections in another order, and unknown members at both levels, read
with the standard codec. -/
theorem scrambled_document_overlays_defaults :
    let d : Document := ⟨some ⟨some true, none⟩, none, some ⟨some 18446744073709551615, some none⟩⟩
    let text := " \x7b\"\\u0063lock\":\t\x7b\"max_cycles\":null," ++
      "\"unit\": [-1.50e+3, \x7b\"\": \"\\ud800\"\x7d],\n \"interval_ms\":18446744073709551615\x7d, " ++
      "\"clocks\":\x7b\x7d,\"general\" :\x7b\"trace_instructions\":true\x7d\x7d\r\n"
    (∃ v, d.Describes v ∧ v.WrittenAs text) ∧ parse text = .ok d.config ∧
      d.config.validate = .ok () ∧ parse d.config.toJson.compact = .ok d.config := by
  intro d text
  let unit := ("unit", Json.array [.number "-1.50e+3", .object [(some "", .string none)]])
  let budget := ("max_cycles", Json.null)
  let interval := ("interval_ms", Json.number "18446744073709551615")
  let clock := ("clock", Json.ofMembers [budget, unit, interval])
  let clocks := ("clocks", Json.object [])
  let general := ("general", Json.ofMembers [("trace_instructions", .bool true)])
  have inner : Json.Gives ["interval_ms", "max_cycles"] [interval, budget] clock.2 :=
    ⟨[unit], _, rfl, @List.perm_append_comm _ [budget, unit] [interval], by decide⟩
  have outer : Json.Gives ["general", "memory", "clock"] [general, clock]
      (.ofMembers [clock, clocks, general]) :=
    ⟨[clocks], _, rfl, @List.perm_append_comm _ [clock, clocks] [general], by decide⟩
  have described : d.Describes (.ofMembers [clock, clocks, general]) :=
    ⟨some general.2, none, some clock.2, .some (.refl _ _), .none, .some inner, outer⟩
  have written : Json.WrittenAs (.ofMembers [clock, clocks, general]) text := by
    refine Json.parse?_eq_some_iff.mp ?_
    subst text clock clocks general unit budget interval
    rfl
  obtain ⟨overlays, round⟩ := documents_overlay_defaults Json.Codec.standard_documented
  exact ⟨⟨_, described, written⟩, overlays d _ text described written, rfl, round d.config rfl⟩

end Legv8.Config
