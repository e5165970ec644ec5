/-
  EffectsDsp.Layout.Scalar

  Scalars: values that occupy a fixed number of bytes. Integers are written with
  their lowest byte first. A truth value is written as eight equal bits and read by
  majority, so that three flipped bits do not change it.
-/

import EffectsDsp.Layout.LittleEndian

namespace EffectsDsp

/-- A way to write values of `α` in `size` bytes, of which nothing is lost. -/
structure Scalar (α : Type) where
  size : Nat
  encode : α → List UInt8
  decode : List UInt8 → α
  length_encode : ∀ a, (encode a).length = size
  decode_encode : ∀ a, decode (encode a) = a

namespace Scalar

/-- Values that a number of `size` bytes stands for. -/
def ofNumber {α : Type} (size : Nat) (toNat : α → Nat) (ofNat : Nat → α)
    (h : ∀ a, ofNat (toNat a % Nat.pow 256 size) = a) : Scalar α where
  size := size
  encode a := LittleEndian.bytes size (toNat a)
  decode bs := ofNat (LittleEndian.value bs)
  length_encode _ := LittleEndian.length_bytes ..
  decode_encode a := by rw [LittleEndian.value_bytes, h]

def u8 : Scalar UInt8 :=
  ofNumber 1 UInt8.toNat UInt8.ofNat fun a => by
    have h : a.toNat % Nat.pow 256 1 = a.toNat := Nat.mod_eq_of_lt a.toNat_lt
    rw [h, UInt8.ofNat_toNat]

def u16 : Scalar UInt16 :=
  ofNumber 2 UInt16.toNat UInt16.ofNat fun a => by
    have h : a.toNat % Nat.pow 256 2 = a.toNat := Nat.mod_eq_of_lt a.toNat_lt
    rw [h, UInt16.ofNat_toNat]

def u32 : Scalar UInt32 :=
  ofNumber 4 UInt32.toNat UInt32.ofNat fun a => by
    have h : a.toNat % Nat.pow 256 4 = a.toNat := Nat.mod_eq_of_lt a.toNat_lt
    rw [h, UInt32.ofNat_toNat]

def u64 : Scalar UInt64 :=
  ofNumber 8 UInt64.toNat UInt64.ofNat fun a => by
    have h : a.toNat % Nat.pow 256 8 = a.toNat := Nat.mod_eq_of_lt a.toNat_lt
    rw [h, UInt64.ofNat_toNat]

def i8 : Scalar Int8 :=
  ofNumber 1 (·.toUInt8.toNat) (fun n => (UInt8.ofNat n).toInt8) fun a => by
    have h : a.toUInt8.toNat % Nat.pow 256 1 = a.toUInt8.toNat :=
      Nat.mod_eq_of_lt a.toUInt8.toNat_lt
    rw [h, UInt8.ofNat_toNat, Int8.toInt8_toUInt8]

def i16 : Scalar Int16 :=
  ofNumber 2 (·.toUInt16.toNat) (fun n => (UInt16.ofNat n).toInt16) fun a => by
    have h : a.toUInt16.toNat % Nat.pow 256 2 = a.toUInt16.toNat :=
      Nat.mod_eq_of_lt a.toUInt16.toNat_lt
    rw [h, UInt16.ofNat_toNat, Int16.toInt16_toUInt16]

def i32 : Scalar Int32 :=
  ofNumber 4 (·.toUInt32.toNat) (fun n => (UInt32.ofNat n).toInt32) fun a => by
    have h : a.toUInt32.toNat % Nat.pow 256 4 = a.toUInt32.toNat :=
      Nat.mod_eq_of_lt a.toUInt32.toNat_lt
    rw [h, UInt32.ofNat_toNat, Int32.toInt32_toUInt32]

def i64 : Scalar Int64 :=
  ofNumber 8 (·.toUInt64.toNat) (fun n => (UInt64.ofNat n).toInt64) fun a => by
    have h : a.toUInt64.toNat % Nat.pow 256 8 = a.toUInt64.toNat :=
      Nat.mod_eq_of_lt a.toUInt64.toNat_lt
    rw [h, UInt64.ofNat_toNat, Int64.toInt64_toUInt64]

/-- The number of bits that are set in a byte. -/
def bitCount (b : UInt8) : Nat :=
  (List.range 8).countP b.toNat.testBit

def bool : Scalar Bool where
  size := 1
  encode b := [if b then 0xff else 0x00]
  decode bs := decide (4 ≤ bitCount (bs.headD 0))
  length_encode _ := rfl
  decode_encode b := by cases b <;> decide

end Scalar
end EffectsDsp
