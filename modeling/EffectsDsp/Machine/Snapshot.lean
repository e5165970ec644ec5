/-
  EffectsDsp.Machine.Snapshot

  Snapshots of the machine: a magic number and every field of the state, apart from
  the saturation mode, which belongs to the host. A snapshot is restored as a whole
  or not at all, and only into a machine with delay memory of the same length.
-/

import EffectsDsp.Machine.Basic
import EffectsDsp.Oscillator.Layout
import EffectsDsp.RegisterFile.Layout

namespace EffectsDsp

namespace Diagnostics

def coding : Coding
    (UInt64 × UInt64 × UInt64 × UInt64 × UInt64 × UInt64 × UInt64 × UInt64 × Vector Bool 4)
    Diagnostics where
  encode d :=
    (d.readOutOfBounds, d.writeOutOfBounds, d.accOverflows, d.paccOverflows,
      d.leftOverflows, d.rightOverflows, d.sampleOverflows, d.invalidLfoParams, d.invalidLfo)
  decode := fun (readOutOfBounds, writeOutOfBounds, accOverflows, paccOverflows,
      leftOverflows, rightOverflows, sampleOverflows, invalidLfoParams, invalidLfo) =>
    { readOutOfBounds, writeOutOfBounds, accOverflows, paccOverflows, leftOverflows,
      rightOverflows, sampleOverflows, invalidLfoParams, invalidLfo }
  decode_encode _ := rfl

def layout : Layout Diagnostics :=
  .view
    (.pair (.scalar .u64) <| .pair (.scalar .u64) <| .pair (.scalar .u64) <|
      .pair (.scalar .u64) <| .pair (.scalar .u64) <| .pair (.scalar .u64) <|
      .pair (.scalar .u64) <| .pair (.scalar .u64) <| .array 4 (.scalar .bool))
    coding

end Diagnostics

/-- Why a snapshot is refused. -/
inductive SnapshotError where
  | badMagic
  | truncated (e : OutOfData)
  | trailingData (remaining : Nat)
  | delaySizeMismatch (expected found : Nat)
  deriving DecidableEq, Repr

def SnapshotError.message : SnapshotError → String
  | badMagic => "not a machine state snapshot"
  | truncated e => e.message
  | trailingData remaining =>
    "snapshot has " ++ toString remaining ++ " bytes of trailing data"
  | delaySizeMismatch expected found =>
    "snapshot delay memory holds " ++ toString found ++ " samples, expected " ++
      toString expected

namespace Machine

def coding : Coding
    (UInt64 × Fixed × Fixed × Fixed × RegisterFile × Array Int32 × UInt64 × Bool × LfoBank ×
      Diagnostics × Bool)
    Machine where
  encode m :=
    (m.ip, m.acc, m.pacc, m.lr, m.regs, m.delay, m.delayPtr, m.runFlag, m.lfos, m.diagnostics,
      m.saturating)
  decode := fun (ip, acc, pacc, lr, regs, delay, delayPtr, runFlag, lfos, diagnostics,
      saturating) =>
    { ip, acc, pacc, lr, regs, delay, delayPtr, runFlag, lfos, diagnostics, saturating }
  decode_encode _ := rfl

def layout : Layout Machine :=
  .view
    (.pair (.scalar .u64) <| .pair Fixed.layout <| .pair Fixed.layout <| .pair Fixed.layout <|
      .pair RegisterFile.layout <| .pair (.sequence (.scalar .i32) 0) <| .pair (.scalar .u64) <|
      .pair (.scalar .bool) <| .pair LfoBank.layout <| .pair Diagnostics.layout <|
      .transient Bool)
    coding

/-- The first bytes of every snapshot: `FV1S`. -/
def magic : List UInt8 := [0x46, 0x56, 0x31, 0x53]

def snapshot (m : Machine) : List UInt8 :=
  magic ++ layout.write m

/-- The state in a snapshot, where what it does not store comes from `m`. -/
def restored (m : Machine) (bytes : List UInt8) : Except SnapshotError Machine :=
  match magic.isPrefixOf? bytes with
  | none => .error .badMagic
  | some body =>
    let r := layout.read m body
    match r.failure with
    | some e => .error (.truncated e)
    | none =>
      if ¬ r.rest.isEmpty then .error (.trailingData r.rest.length)
      else if r.target.delay.size ≠ m.delay.size then
        .error (.delaySizeMismatch m.delay.size r.target.delay.size)
      else
        .ok { r.target with
          acc := r.target.value r.target.acc
          pacc := r.target.value r.target.pacc }

/-- Restores a snapshot; a refused one leaves the machine as it is. -/
def restore (m : Machine) (bytes : List UInt8) : Except SnapshotError Unit × Machine :=
  match m.restored bytes with
  | .ok m' => (.ok (), m')
  | .error e => (.error e, m)

end Machine
end EffectsDsp
