/-
  EffectsDsp.Instruction.Program

  Program images. A program ends before the first skip without distance or with the
  image; a fault before that end refuses the whole image.
-/

import EffectsDsp.Instruction.Decode

namespace EffectsDsp

/-- The operations of a program, executed from index zero on for every sample. -/
abbrev Program := Array Operation

namespace Program

/-- The program memory of the chip, in instructions. -/
def chipLimit : Nat := 128

/-- Appends the operations of an image to those decoded so far, whose number is the
    index of the next word. -/
def extend (limit : Nat) : List UInt32 → Program → Except DecodeError Program
  | [], program => .ok program
  | word :: words, program =>
    match Operation.decode word with
    | .error e => .error e
    | .ok op =>
      if op.isTerminator then .ok program
      else if op.mnemonic = .choReserved then .error (.reserved program.size word)
      else if program.size = limit then .error (.tooLong limit)
      else extend limit words (program.push op)

/-- The program in an image, which may have at most `limit` operations. -/
def ofWords (limit : Nat) (words : List UInt32) : Except DecodeError Program :=
  extend limit words #[]

/-- The operations of all words, terminators and reserved ones included. -/
def ofRawWords (words : List UInt32) : Except DecodeError Program :=
  (words.mapM Operation.decode).map List.toArray

end Program
end EffectsDsp
