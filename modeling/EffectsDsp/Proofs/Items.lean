/-
  EffectsDsp.Proofs.Items

  Values of any types that are written one behind the other, and read into targets of the
  same types. No frame and no name tells them apart: each value has to read its own bytes
  and no others, whatever its target holds, be it a sequence of another length.

  The result is said without the reading: `overwrite` is the value with the transient fields
  of the target. These have a meaning of their own only where the target survives, which it
  does not in a sequence, and neither in a value that is replaced as a whole.
-/

import EffectsDsp.Proofs.Disturbance
import EffectsDsp.RegisterFile.Layout

namespace EffectsDsp

/-! ## Values over targets -/

namespace Layout

variable {α : Type}

/-- The value, apart from its transient fields, which are those of the target. -/
def overwrite {α : Type} : Layout α → α → α → α
  | scalar _, _, a => a
  | transient _, target, _ => target
  | pair first second, (t, u), (a, b) => (first.overwrite t a, second.overwrite u b)
  | either _ _ _ _, _, a => a
  | whole _ _, _, a => a
  | view inner coding, target, b =>
    coding.decode (inner.overwrite (coding.encode target) (coding.encode b))
  | array _ element, targets, xs => Vector.zipWith element.overwrite targets xs
  | sequence _ _, _, xs => xs

/-- No field is transient in what reading replaces as a whole. -/
def storesReplaced {α : Type} : Layout α → Bool
  | scalar _ => true
  | transient _ => true
  | pair first second => first.storesReplaced && second.storesReplaced
  | either first _ second _ => first.isStored && second.isStored
  | whole inner _ => inner.isStored
  | view inner _ => inner.storesReplaced
  | array _ element => element.storesReplaced
  | sequence element _ => element.isStored

theorem merge_eq_overwrite {layout : Layout α} (h : layout.storesReplaced = true)
    (target a : α) : layout.merge target a = layout.overwrite target a := by
  induction layout with
  | scalar s => rfl
  | transient α => rfl
  | pair first second ihFirst ihSecond =>
    obtain ⟨hfirst, hsecond⟩ := Bool.and_eq_true_iff.mp h
    exact Prod.ext (ihFirst hfirst _ _) (ihSecond hsecond _ _)
  | either first fresh₁ second fresh₂ =>
    have hstored : (either first fresh₁ second fresh₂).isStored = true := h
    exact merge_of_isStored hstored target a
  | whole inner fresh =>
    have hstored : (whole inner fresh).isStored = true := h
    exact merge_of_isStored hstored target a
  | view inner coding ih => exact congrArg coding.decode (ih h _ _)
  | array n element ih =>
    have hmerge : element.merge = element.overwrite := funext fun t => funext fun x => ih h t x
    rw [merge, overwrite, hmerge]
  | sequence element fill =>
    have hstored : (sequence element fill).isStored = true := h
    exact merge_of_isStored hstored target a

theorem storesReplaced_of_isStored {layout : Layout α} (h : layout.isStored = true) :
    layout.storesReplaced = true := by
  induction layout with
  | scalar s => rfl
  | transient α => rfl
  | pair first second ihFirst ihSecond =>
    obtain ⟨hfirst, hsecond⟩ := Bool.and_eq_true_iff.mp h
    exact Bool.and_eq_true_iff.mpr ⟨ihFirst hfirst, ihSecond hsecond⟩
  | either first fresh₁ second fresh₂ => exact h
  | whole inner fresh => exact h
  | view inner coding ih => exact ih h
  | array n element ih => exact ih h
  | sequence element fill => exact h

/-- A type without transient fields is replaced completely. -/
theorem overwrite_of_isStored {layout : Layout α} (h : layout.isStored = true) (target a : α) :
    layout.overwrite target a = a := by
  rw [← merge_eq_overwrite (storesReplaced_of_isStored h), merge_of_isStored h]

end Layout

/-! ## Lists of values -/

/-- A value with the layout that it is stored in. -/
structure Item where
  {α : Type}
  layout : Layout α
  content : α

/-- What reading into a list of targets leaves behind. -/
structure Readings where
  targets : List Item
  /-- The bytes that were not read. -/
  rest : List UInt8
  failure : Option OutOfData

namespace Item

def bytes (x : Item) : List UInt8 :=
  x.layout.write x.content

/-- The bytes of the values, one behind the other. -/
def writeAll (xs : List Item) : List UInt8 :=
  xs.flatMap bytes

/-- Reads into the targets in order, up to the first that is not complete. -/
def readAll : List Item → List UInt8 → Readings
  | [], bytes => ⟨[], bytes, none⟩
  | x :: xs, bytes =>
    let r := x.layout.read x.content bytes
    match r.failure with
    | none =>
      let rs := readAll xs r.rest
      ⟨⟨x.layout, r.target⟩ :: rs.targets, rs.rest, rs.failure⟩
    | some e => ⟨⟨x.layout, r.target⟩ :: xs, r.rest, some e⟩

theorem writeAll_cons (x : Item) (xs : List Item) :
    writeAll (x :: xs) = x.bytes ++ writeAll xs :=
  List.flatMap_cons

theorem readAll_cons_of_reads {α : Type} {layout : Layout α} {target a : α}
    {bytes rest : List UInt8} (h : layout.Reads target bytes a rest) (xs : List Item) :
    readAll (⟨layout, target⟩ :: xs) bytes =
      ⟨⟨layout, a⟩ :: (readAll xs rest).targets, (readAll xs rest).rest,
        (readAll xs rest).failure⟩ := by
  have hread : layout.read target bytes = ⟨a, rest, none⟩ := h
  rw [readAll]
  simp only [hread]

end Item

/-- A value on its way to a target of the same type. -/
structure Transfer where
  {α : Type}
  layout : Layout α
  value : α
  target : α

namespace Transfer

/-- The value that is written. -/
def sent (x : Transfer) : Item :=
  ⟨x.layout, x.value⟩

/-- The target before it is read into. -/
def aim (x : Transfer) : Item :=
  ⟨x.layout, x.target⟩

/-- The target that the value has replaced. -/
def arrived (x : Transfer) : Item :=
  ⟨x.layout, x.layout.overwrite x.target x.value⟩

end Transfer

/-- Values that are written one behind the other are read back in order, into any targets of
    their types and with any bytes behind: each target becomes its value, apart from the
    transient fields, which keep what they hold, and the bytes behind are what is left. The
    values have to fit, which they do if no sequence is longer than its length field can say
    and each of its elements has a byte. -/
theorem values_read_back_in_order (xs : List Transfer)
    (hfits : ∀ x ∈ xs, x.layout.Fits x.value)
    (hstored : ∀ x ∈ xs, x.layout.storesReplaced = true) (rest : List UInt8) :
    Item.readAll (xs.map Transfer.aim) (Item.writeAll (xs.map Transfer.sent) ++ rest) =
      ⟨xs.map Transfer.arrived, rest, none⟩ := by
  induction xs with
  | nil => rfl
  | cons x xs ih =>
    have hrest := ih (fun y hy => hfits y (List.mem_cons_of_mem _ hy))
      fun y hy => hstored y (List.mem_cons_of_mem _ hy)
    have hread : x.layout.Reads x.target
        (x.sent.bytes ++ (Item.writeAll (xs.map Transfer.sent) ++ rest))
        (x.layout.overwrite x.target x.value)
        (Item.writeAll (xs.map Transfer.sent) ++ rest) := by
      rw [← Layout.merge_eq_overwrite (hstored x List.mem_cons_self)]
      exact Layout.readsBack_of_fits (hfits x List.mem_cons_self) x.target _
    rw [List.map_cons, List.map_cons, List.map_cons, Item.writeAll_cons, List.append_assoc]
    rw [Transfer.aim, Item.readAll_cons_of_reads hread, hrest]
    rfl

/-- A record with a transient field and a sequence, and a register behind it, go into targets
    of other lengths and another kind. -/
theorem values_read_back_in_order_mixed :
    let record : Layout (UInt8 × UInt16 × Vector Bool 2 × Array Int16) :=
      .pair (.scalar .u8) <| .pair (.transient UInt16) <| .pair (.array 2 (.scalar .bool)) <|
        .sequence (.scalar .i16) 0
    let xs : List Transfer :=
      [⟨record, (7, 8, #v[true, false], #[-1, 2, 3]), (0, 5, #v[false, false], #[4])⟩,
        ⟨Register.layout, .config (-6), .audio .zero⟩]
    (∀ x ∈ xs, x.layout.Fits x.value) ∧ (∀ x ∈ xs, x.layout.storesReplaced = true) ∧
      Item.readAll (xs.map Transfer.aim) (Item.writeAll (xs.map Transfer.sent) ++ [9, 9]) =
        ⟨[⟨record, (7, 5, #v[true, false], #[-1, 2, 3])⟩, ⟨Register.layout, .config (-6)⟩],
          [9, 9], none⟩ := by
  intro record xs
  have hword : ∀ w ∈ [(-1 : Int16), 2, 3], True ∧ Scalar.i16.encode w ≠ [] :=
    fun w _ => ⟨trivial, Scalar.encode_ne_nil (by decide) w⟩
  have hfits : ∀ x ∈ xs, x.layout.Fits x.value := by
    intro x hx
    rcases List.mem_cons.mp hx with rfl | hx
    · exact ⟨trivial, trivial, fun _ _ => trivial, by decide, hword⟩
    · obtain rfl := List.mem_singleton.mp hx
      exact trivial
  have hstored : ∀ x ∈ xs, x.layout.storesReplaced = true := by
    intro x hx
    rcases List.mem_cons.mp hx with rfl | hx
    · rfl
    · obtain rfl := List.mem_singleton.mp hx
      rfl
  have hflags : (Layout.array 2 (.scalar .bool)).overwrite #v[false, false] #v[true, false] =
      #v[true, false] := Layout.overwrite_of_isStored rfl _ _
  have harrived : xs.map Transfer.arrived =
      [⟨record, (7, 5, #v[true, false], #[-1, 2, 3])⟩, ⟨Register.layout, .config (-6)⟩] := by
    rw [← hflags]
    rfl
  rw [← harrived]
  exact ⟨hfits, hstored, values_read_back_in_order xs hfits hstored [9, 9]⟩

end EffectsDsp
