import Legv8.Isa.Instruction

/-!
# Assembly text

Branch offsets are printed in words, as encoded; memory offsets in bytes.
-/
namespace Legv8

def Instruction.text (i : Instruction) : String :=
  let name := i.op.mnemonic
  let rd := Register.name i.rd
  let rn := Register.name i.rn
  let offset := Text.signedDecimal i.imm.toInt64.toInt
  match i.op.format with
  | .system => name
  | .im => name ++ " " ++ rd ++ ", #" ++ Text.hex i.imm.toNat ++ ", LSL " ++ Text.decimal (i.hw * 16)
  | .r => name ++ " " ++ rd ++ ", " ++ rn ++ ", " ++ Register.name i.rm
  | .i => name ++ " " ++ rd ++ ", " ++ rn ++ ", #" ++ Text.decimal i.imm.toNat
  | .d => name ++ " " ++ rd ++ ", [" ++ rn ++ ", #" ++ offset ++ "]"
  | .b => name ++ " #" ++ offset
  | .cb => name ++ " " ++ rd ++ ", #" ++ offset

namespace Word

/-- The assembly text of a word; a word outside the subset is shown as data. -/
def assembly (w : Word) : String :=
  match Instruction.decode? w with
  | some i => i.text
  | none => ".word " ++ Text.hexPadded 8 w.toNat

/-- One line of a listing: address, word and assembly text. -/
def listingLine (address : Nat) (w : Word) : String :=
  Text.hexPadded 4 address ++ ": " ++ Text.hexDigits 8 w.toNat ++ "  " ++ w.assembly

end Word

/-- The listing of consecutive words from address `base`. -/
def listing (base : Nat) : List Word → List String
  | [] => []
  | w :: rest => w.listingLine base :: listing (base + Word.size) rest

end Legv8
