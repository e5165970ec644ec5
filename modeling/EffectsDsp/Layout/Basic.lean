/-
  EffectsDsp.Layout.Basic

  Layouts of values as flat bytes. A layout says how a value is written, without any
  framing, and how bytes are read into an existing value of the same shape. Reading
  stops where the bytes end: what was read so far stays in the target, and so does
  every part that is not stored at all.
-/

import EffectsDsp.Layout.Scalar

namespace EffectsDsp

/-- The bytes ended before the value was complete. -/
structure OutOfData where
  needed : Nat
  remaining : Nat
  deriving DecidableEq, Repr

def OutOfData.message (e : OutOfData) : String :=
  "snapshot truncated: needed " ++ toString e.needed ++ " bytes, " ++
    toString e.remaining ++ " remaining"

/-- The next `n` bytes and the bytes behind them. -/
def takeBytes (n : Nat) (bytes : List UInt8) : Except OutOfData (List UInt8 × List UInt8) :=
  let head := bytes.take n
  if head.length = n then .ok (head, bytes.drop n)
  else .error ⟨n, bytes.length⟩

/-- What reading leaves behind. -/
structure Reading (α : Type) where
  /-- The target, which is partly read if reading failed. -/
  target : α
  /-- The bytes that were not read. -/
  rest : List UInt8
  failure : Option OutOfData
  deriving DecidableEq, Repr

def Reading.map {α β : Type} (r : Reading α) (f : α → β) : Reading β :=
  { target := f r.target, rest := r.rest, failure := r.failure }

/-- Values of `β` kept as values of `α`, of which every `β` is one. -/
structure Coding (α β : Type) where
  encode : β → α
  decode : α → β
  decode_encode : ∀ b, decode (encode b) = b

/-- How values of a type lie in a sequence of bytes. -/
inductive Layout : Type → Type 1 where
  | scalar {α : Type} (s : Scalar α) : Layout α
  /-- Not stored; the target keeps what it has. -/
  | transient (α : Type) : Layout α
  | pair {α β : Type} (first : Layout α) (second : Layout β) : Layout (α × β)
  /-- A tag byte, zero for the first kind, and a value of that kind. Either kind is read
      into a fresh value, which replaces the target once it is complete. -/
  | either {α β : Type} (first : Layout α) (fresh₁ : α) (second : Layout β) (fresh₂ : β) :
      Layout (α ⊕ β)
  /-- Read into a fresh value, which replaces the target once it is complete. -/
  | whole {α : Type} (inner : Layout α) (fresh : α) : Layout α
  /-- Kept in another form. -/
  | view {α β : Type} (inner : Layout α) (coding : Coding α β) : Layout β
  | array {α : Type} (n : Nat) (element : Layout α) : Layout (Vector α n)
  /-- A length of eight bytes and the elements. Reading resizes the target, with `fill`
      in new places. -/
  | sequence {α : Type} (element : Layout α) (fill : α) : Layout (Array α)

namespace Layout

/-! ## Writing -/

/-- The bytes of a value. -/
def write {α : Type} : Layout α → α → List UInt8
  | scalar s, a => s.encode a
  | transient _, _ => []
  | pair first second, (a, b) => first.write a ++ second.write b
  | either first _ _ _, .inl a => 0 :: first.write a
  | either _ _ second _, .inr b => 1 :: second.write b
  | whole inner _, a => inner.write a
  | view inner coding, b => inner.write (coding.encode b)
  | array _ element, xs => xs.toList.flatMap element.write
  | sequence element _, xs =>
    Scalar.u64.encode (UInt64.ofNat xs.size) ++ xs.toList.flatMap element.write

/-! ## Reading -/

/-- Reads a scalar in place of the target. -/
def readScalar {α : Type} (s : Scalar α) (target : α) (bytes : List UInt8) : Reading α :=
  match takeBytes s.size bytes with
  | .ok (head, rest) => ⟨s.decode head, rest, none⟩
  | .error e => ⟨target, bytes, some e⟩

/-- Reads the elements of a list in order, up to the first that is not complete, behind
    those that `done` holds. -/
def readEach {α : Type} (read : α → List UInt8 → Reading α) :
    List α → List UInt8 → Array α → Reading (Array α)
  | [], bytes, done => ⟨done, bytes, none⟩
  | target :: targets, bytes, done =>
    let r := read target bytes
    match r.failure with
    | none => readEach read targets r.rest (done.push r.target)
    | some e => ⟨done.push r.target ++ targets.toArray, r.rest, some e⟩

theorem size_readEach {α : Type} (read : α → List UInt8 → Reading α) (targets : List α)
    (bytes : List UInt8) (done : Array α) :
    (readEach read targets bytes done).target.size = done.size + targets.length := by
  induction targets generalizing bytes done with
  | nil => rfl
  | cons target targets ih =>
    simp only [readEach]
    split
    · rw [ih]; simp only [Array.size_push, List.length_cons]; omega
    · simp only [Array.size_append, Array.size_push, List.size_toArray, List.length_cons]; omega

/-- The elements of `xs` cut or filled up to the length `n`. -/
def resize {α : Type} (xs : Array α) (n : Nat) (fill : α) : List α :=
  xs.toList.take n ++ List.replicate (n - xs.size) fill

/-- Reads bytes into a target. -/
def read {α : Type} : Layout α → α → List UInt8 → Reading α
  | scalar s, target, bytes => readScalar s target bytes
  | transient _, target, bytes => ⟨target, bytes, none⟩
  | pair first second, (a, b), bytes =>
    let r := first.read a bytes
    match r.failure with
    | none => (second.read b r.rest).map (r.target, ·)
    | some _ => r.map (·, b)
  | either first fresh₁ second fresh₂, target, bytes =>
    let tag := readScalar Scalar.u8 0 bytes
    match tag.failure with
    | some e => ⟨target, bytes, some e⟩
    | none =>
      if tag.target = 0 then
        let r := first.read fresh₁ tag.rest
        match r.failure with
        | none => r.map .inl
        | some e => ⟨target, r.rest, some e⟩
      else
        let r := second.read fresh₂ tag.rest
        match r.failure with
        | none => r.map .inr
        | some e => ⟨target, r.rest, some e⟩
  | whole inner fresh, target, bytes =>
    let r := inner.read fresh bytes
    match r.failure with
    | none => r
    | some e => ⟨target, r.rest, some e⟩
  | view inner coding, target, bytes =>
    (inner.read (coding.encode target) bytes).map coding.decode
  | array n element, target, bytes =>
    let r := readEach element.read target.toList bytes #[]
    ⟨⟨r.target, by simp [r, size_readEach]⟩, r.rest, r.failure⟩
  | sequence element fill, target, bytes =>
    let length := readScalar Scalar.u64 0 bytes
    match length.failure with
    | some e => ⟨target, bytes, some e⟩
    | none =>
      -- A length beyond the bytes that are left is refused before any element is made.
      let n := length.target.toNat
      if length.rest.length < n then ⟨target, length.rest, some ⟨n, length.rest.length⟩⟩
      else readEach element.read (resize target n fill) length.rest #[]

end Layout
end EffectsDsp
