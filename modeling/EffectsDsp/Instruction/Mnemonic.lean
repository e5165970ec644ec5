/-
  EffectsDsp.Instruction.Mnemonic

  The instruction set: the mnemonics, and which of them are spellings of another
  instruction with particular operands.
-/

namespace EffectsDsp

/-- What an instruction does. Aliases have mnemonics of their own. -/
inductive Mnemonic where
  | rda
  | rmpa
  | wra
  | wrap
  | rdax
  | rdfx
  /-- RDFX from register zero with coefficient zero. -/
  | ldax
  | wrax
  | wrhx
  | wrlx
  | maxx
  /-- MAXX with register zero and coefficient zero. -/
  | absa
  | mulx
  | log
  | exp
  | sof
  | and
  /-- AND with an empty mask. -/
  | clr
  | or
  | xor
  /-- XOR with all 24 bits. -/
  | not
  | skp
  /-- SKP without conditions and without distance. -/
  | nop
  | wlds
  | wldr
  | jam
  | choRda
  | choSof
  | choRdal
  /-- CHO with the sub-command that has no meaning. -/
  | choReserved
  deriving DecidableEq, Repr

namespace Mnemonic

/-- The written form. -/
def name : Mnemonic → String
  | rda => "RDA"
  | rmpa => "RMPA"
  | wra => "WRA"
  | wrap => "WRAP"
  | rdax => "RDAX"
  | rdfx => "RDFX"
  | ldax => "LDAX"
  | wrax => "WRAX"
  | wrhx => "WRHX"
  | wrlx => "WRLX"
  | maxx => "MAXX"
  | absa => "ABSA"
  | mulx => "MULX"
  | log => "LOG"
  | exp => "EXP"
  | sof => "SOF"
  | and => "AND"
  | clr => "CLR"
  | or => "OR"
  | xor => "XOR"
  | not => "NOT"
  | skp => "SKP"
  | nop => "NOP"
  | wlds => "WLDS"
  | wldr => "WLDR"
  | jam => "JAM"
  | choRda => "CHO RDA"
  | choSof => "CHO SOF"
  | choRdal => "CHO RDAL"
  | choReserved => "CHO ???"

/-- The instruction that an alias spells; every other mnemonic is its own. -/
def canonical : Mnemonic → Mnemonic
  | ldax => rdfx
  | absa => maxx
  | clr => and
  | not => xor
  | nop => skp
  | m => m

end Mnemonic
end EffectsDsp
