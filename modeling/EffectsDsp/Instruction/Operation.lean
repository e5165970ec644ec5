/-
  EffectsDsp.Instruction.Operation

  Operands and operations. An instruction word holds its operands side by side from
  bit 5 upwards; a field says how wide one is, how its bits are read and what the
  instruction uses it for. An operation is a mnemonic with the operands of a word.
-/

import EffectsDsp.Fixed.Basic
import EffectsDsp.Instruction.Mnemonic

namespace EffectsDsp

/-- What an instruction uses an operand for. -/
inductive Role where
  /-- Delay memory address or offset. -/
  | address
  /-- Register address. -/
  | register
  /-- Multiplier. -/
  | coefficient
  /-- Added constant. -/
  | offset
  | mask
  | flags
  /-- Number of instructions to skip. -/
  | distance
  | frequency
  | amplitude
  | oscillator
  | subcommand
  /-- Bits that tell two instructions with one opcode apart. -/
  | selector
  | unused
  deriving DecidableEq, Repr

/-- How the bits of an operand are read. -/
inductive FieldKind where
  | unsigned
  /-- A signed fixed-point number in the given format. -/
  | real (fmt : QFormat)
  | binary
  | flags
  /-- Bits that must have the given value. -/
  | constant (bits : UInt32)
  /-- Bits without meaning, which count as zero. -/
  | ignored
  deriving DecidableEq, Repr

namespace FieldKind

/-- The written form. -/
def text : FieldKind → String
  | unsigned => "Unsigned"
  | real fmt => "Real " ++ fmt.text
  | binary => "RawBinary"
  | flags => "Flags"
  | constant bits => "Constant " ++ toString bits.toNat
  | ignored => "Ignored"

end FieldKind

/-- One field of an instruction word. -/
structure Field where
  role : Role
  width : Nat
  kind : FieldKind
  deriving DecidableEq, Repr

/-- A field with its bits, moved down to bit zero. -/
structure Operand extends Field where
  bits : UInt32
  deriving DecidableEq, Repr

namespace Operand

/-- The fixed-point value; an operand of another kind is a number of units. -/
def real (a : Operand) : Fixed :=
  match a.kind with
  | .real fmt => Fixed.ofQ a.bits fmt
  | _ => Fixed.ofRaw a.bits.toInt32

/-- The bits read as a two's complement number of the field's width. -/
def signed (a : Operand) : Int32 :=
  signExtend a.bits a.width

end Operand

/-- A decoded instruction. -/
structure Operation where
  mnemonic : Mnemonic
  operands : List Operand
  /-- The word that was decoded. -/
  word : UInt32
  deriving DecidableEq, Repr

namespace Operation

/-- The first operand with the given role. -/
def operand? (op : Operation) (role : Role) : Option Operand :=
  op.operands.find? (·.role == role)

/-- The bits of the operand with the given role, zero if there is none. -/
def bits (op : Operation) (role : Role) : UInt32 :=
  match op.operand? role with
  | some a => a.bits
  | none => 0

/-- The value of the operand with the given role, zero if there is none. -/
def real (op : Operation) (role : Role) : Fixed :=
  match op.operand? role with
  | some a => a.real
  | none => Fixed.zero

/-- A skip without distance ends a program. -/
def isTerminator (op : Operation) : Bool :=
  (op.mnemonic == .skp || op.mnemonic == .nop) && op.bits .distance == 0

end Operation
end EffectsDsp
