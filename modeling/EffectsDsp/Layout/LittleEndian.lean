/-
  EffectsDsp.Layout.LittleEndian

  Numbers as bytes, the lowest first.
-/

namespace EffectsDsp.LittleEndian

/-- The lowest `n` bytes of `v`. -/
def bytes : Nat → Nat → List UInt8
  | 0, _ => []
  | n + 1, v => UInt8.ofNat v :: bytes n (v / 256)

/-- The number that the bytes write. -/
def value : List UInt8 → Nat
  | [] => 0
  | b :: bs => b.toNat + 256 * value bs

@[simp] theorem length_bytes (n v : Nat) : (bytes n v).length = n := by
  induction n generalizing v with
  | zero => rfl
  | succ n ih => simp [bytes, ih]

theorem value_bytes (n v : Nat) : value (bytes n v) = v % Nat.pow 256 n := by
  induction n generalizing v with
  | zero => exact (Nat.mod_one v).symm
  | succ n ih =>
    have head : (UInt8.ofNat v).toNat = v % 256 := by simp
    simp only [bytes, value, ih, head]
    have next : Nat.pow 256 (n + 1) = 256 * Nat.pow 256 n := Nat.mul_comm ..
    rw [next, Nat.mod_mul]

end EffectsDsp.LittleEndian
