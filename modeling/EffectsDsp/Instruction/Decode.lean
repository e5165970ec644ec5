/-
  EffectsDsp.Instruction.Decode

  Decoding of instruction words. The lowest five bits select the opcode and with it
  the fields of the other 27. Words with unknown opcodes or wrong selector bits are
  refused. `Operation.encode` puts the operands of an operation back in place.
-/

import EffectsDsp.Instruction.Operation
import EffectsDsp.Numeral

namespace EffectsDsp

/-! ## Fields of each instruction -/

namespace Field

/-- A field whose bits have no meaning. -/
def unused (width : Nat) : Field :=
  ⟨.unused, width, .ignored⟩

/-- A coefficient in the given format. -/
def coefficient (width : Nat) (fmt : QFormat) : Field :=
  ⟨.coefficient, width, .real fmt⟩

/-- The bits that the field keeps of a word's, if it accepts them. -/
def accept? (f : Field) (bits : UInt32) : Option UInt32 :=
  match f.kind with
  | .ignored => some 0
  | .constant expected => if bits = expected then some bits else none
  | _ => some bits

end Field

namespace Mnemonic

/-- The opcode of the instruction. -/
def opcode : Mnemonic → UInt32
  | rda => 0x00
  | rmpa => 0x01
  | wra => 0x02
  | wrap => 0x03
  | rdax => 0x04
  | rdfx | ldax => 0x05
  | wrax => 0x06
  | wrhx => 0x07
  | wrlx => 0x08
  | maxx | absa => 0x09
  | mulx => 0x0a
  | log => 0x0b
  | exp => 0x0c
  | sof => 0x0d
  | and | clr => 0x0e
  | or => 0x0f
  | xor | not => 0x10
  | skp | nop => 0x11
  | wlds | wldr => 0x12
  | jam => 0x13
  | choRda | choSof | choRdal | choReserved => 0x14

/-- The fields of the instruction, from bit 5 upwards. -/
def fields : Mnemonic → List Field
  | rda | wra | wrap =>
    [⟨.address, 16, .unsigned⟩, .coefficient 11 .coefficient11]
  | rmpa =>
    [.unused 16, .coefficient 11 .coefficient11]
  | rdax | rdfx | ldax | wrax | wrhx | wrlx | maxx | absa =>
    [⟨.register, 6, .unsigned⟩, .unused 5, .coefficient 16 .coefficient16]
  | mulx =>
    [⟨.register, 6, .unsigned⟩, .unused 21]
  | log | exp =>
    [⟨.offset, 11, .real .wideOffset⟩, .coefficient 16 .coefficient16]
  | sof =>
    [⟨.offset, 11, .real .unitOffset⟩, .coefficient 16 .coefficient16]
  | and | clr | or | xor | not =>
    [.unused 3, ⟨.mask, 24, .binary⟩]
  | skp | nop =>
    [.unused 16, ⟨.distance, 6, .unsigned⟩, ⟨.flags, 5, .flags⟩]
  | wlds =>
    [⟨.amplitude, 15, .unsigned⟩, ⟨.frequency, 9, .unsigned⟩, ⟨.oscillator, 1, .unsigned⟩,
      ⟨.selector, 2, .constant 0⟩]
  | wldr =>
    [⟨.amplitude, 2, .unsigned⟩, .unused 6, ⟨.frequency, 16, .real .fraction16⟩,
      ⟨.oscillator, 1, .unsigned⟩, ⟨.selector, 2, .constant 1⟩]
  | jam =>
    [.unused 1, ⟨.oscillator, 1, .unsigned⟩, ⟨.selector, 1, .constant 1⟩, .unused 24]
  | choRda | choSof | choRdal | choReserved =>
    [⟨.address, 16, .binary⟩, ⟨.oscillator, 2, .unsigned⟩, .unused 1, ⟨.flags, 6, .flags⟩,
      ⟨.subcommand, 2, .unsigned⟩]

/-- The instruction that the opcode of `word` selects, before its operands are looked
    at. The two oscillator loads share an opcode and differ in the two highest bits. -/
def ofWord? (word : UInt32) : Option Mnemonic :=
  match (word &&& 0x1f).toNat with
  | 0x00 => some rda
  | 0x01 => some rmpa
  | 0x02 => some wra
  | 0x03 => some wrap
  | 0x04 => some rdax
  | 0x05 => some rdfx
  | 0x06 => some wrax
  | 0x07 => some wrhx
  | 0x08 => some wrlx
  | 0x09 => some maxx
  | 0x0a => some mulx
  | 0x0b => some log
  | 0x0c => some exp
  | 0x0d => some sof
  | 0x0e => some and
  | 0x0f => some or
  | 0x10 => some xor
  | 0x11 => some skp
  | 0x12 => some (if word >>> 30 = 0 then wlds else wldr)
  | 0x13 => some jam
  | 0x14 => some choRda
  | _ => none

end Mnemonic

/-! ## Operands -/

/-- The operands that `fields` cut from `bits`, the first from the lowest bits. None if
    a field refuses its bits. -/
def Operand.cut? : List Field → UInt32 → Option (List Operand)
  | [], _ => some []
  | f :: fields, bits => do
    let kept ← f.accept? (bits &&& lowMask f.width)
    let operands ← cut? fields (bits >>> UInt32.ofNat f.width)
    some ({ f with bits := kept } :: operands)

/-- The operands side by side, the first in the lowest bits. -/
def Operand.join : List Operand → UInt32
  | [] => 0
  | a :: operands => (a.bits &&& lowMask a.width) ||| (join operands <<< UInt32.ofNat a.width)

/-! ## Operations -/

/-- Why a word or a program is refused. -/
inductive DecodeError where
  | unknownOpcode (word : UInt32)
  /-- The selector bits of `word` fit no instruction with its opcode. -/
  | badSelector (word : UInt32) (mnemonic : Mnemonic)
  /-- The instruction at `index` has no meaning. -/
  | reserved (index : Nat) (word : UInt32)
  | tooLong (limit : Nat)
  deriving DecidableEq, Repr

namespace DecodeError

def message : DecodeError → String
  | unknownOpcode word =>
    "unknown opcode " ++ Numeral.hex 2 (word &&& 0x1f).toNat ++ " in word " ++
      Numeral.hex 8 word.toNat
  | badSelector word mnemonic =>
    "word " ++ Numeral.hex 8 word.toNat ++ " has invalid selector bits for " ++ mnemonic.name
  | reserved index word =>
    "instruction " ++ toString index ++ " (" ++ Numeral.hex 8 word.toNat ++
      ") uses a reserved encoding"
  | tooLong limit =>
    "program has more than " ++ toString limit ++ " instructions"

end DecodeError

namespace Operation

/-- The mnemonic that the operands of an instruction make of it: an alias, or the
    sub-command of CHO. -/
def resolved (op : Operation) : Mnemonic :=
  match op.mnemonic with
  | .and => if op.bits .mask = 0 then .clr else .and
  | .xor => if op.bits .mask = lowMask 24 then .not else .xor
  | .rdfx => if op.bits .register = 0 ∧ op.bits .coefficient = 0 then .ldax else .rdfx
  | .maxx => if op.bits .register = 0 ∧ op.bits .coefficient = 0 then .absa else .maxx
  | .skp => if op.bits .distance = 0 ∧ op.bits .flags = 0 then .nop else .skp
  | .choRda =>
    match (op.bits .subcommand).toNat with
    | 0 => .choRda
    | 2 => .choSof
    | 3 => .choRdal
    | _ => .choReserved
  | m => m

/-- The operation that a word encodes. -/
def decode (word : UInt32) : Except DecodeError Operation :=
  match Mnemonic.ofWord? word with
  | none => .error (.unknownOpcode word)
  | some family =>
    match Operand.cut? family.fields (word >>> 5) with
    | none => .error (.badSelector word family)
    | some operands =>
      -- An alias is told by its operands, so they are cut first.
      let op : Operation := { mnemonic := family, operands, word }
      .ok { op with mnemonic := op.resolved }

/-- The operands put back over the opcode. Bits without meaning are zero. -/
def encode (op : Operation) : UInt32 :=
  op.mnemonic.opcode ||| (Operand.join op.operands <<< 5)

end Operation
end EffectsDsp
