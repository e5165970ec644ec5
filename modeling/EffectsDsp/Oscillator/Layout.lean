/-
  EffectsDsp.Oscillator.Layout

  How oscillators are stored. Phases are stored as their bit patterns.
-/

import EffectsDsp.Layout.Basic
import EffectsDsp.Oscillator.Bank

namespace EffectsDsp

def Phase.coding : Coding UInt64 Phase where
  encode := bits
  decode := Phase.mk
  decode_encode _ := rfl

def Phase.layout : Layout Phase :=
  .view (.scalar .u64) coding

def Sine.coding : Coding (Phase × Phase × Int32 × Int32) Sine where
  encode s := (s.angle, s.latched, s.rate, s.amplitude)
  decode := fun (angle, latched, rate, amplitude) => { angle, latched, rate, amplitude }
  decode_encode _ := rfl

def Sine.layout : Layout Sine :=
  .view (.pair Phase.layout (.pair Phase.layout (.pair (.scalar .i32) (.scalar .i32)))) coding

def Ramp.coding : Coding (Int32 × Int32 × Int32 × Int32) Ramp where
  encode r := (r.counter, r.latched, r.rate, r.amplitude)
  decode := fun (counter, latched, rate, amplitude) => { counter, latched, rate, amplitude }
  decode_encode _ := rfl

def Ramp.layout : Layout Ramp :=
  .view (.pair (.scalar .i32) (.pair (.scalar .i32) (.pair (.scalar .i32) (.scalar .i32))))
    coding

def LfoBank.coding : Coding (Vector Sine 2 × Vector Ramp 2) LfoBank where
  encode bank := (bank.sine, bank.ramp)
  decode := fun (sine, ramp) => { sine, ramp }
  decode_encode _ := rfl

def LfoBank.layout : Layout LfoBank :=
  .view (.pair (.array 2 Sine.layout) (.array 2 Ramp.layout)) coding

end EffectsDsp
