/-
  EffectsDsp.Proofs.Codec

  Which values a layout can write, and what reading them into a target makes of it. What
  comes out is `merge`, the value with the parts of the target that are not stored; where
  everything is stored the target does not matter.
-/

import EffectsDsp.Proofs.Parsing

namespace EffectsDsp

/-- Scalars that have a size are written as bytes. -/
theorem Scalar.encode_ne_nil {α : Type} {s : Scalar α} (hsize : 0 < s.size) (a : α) :
    s.encode a ≠ [] := by
  intro hnil
  have hlength := s.length_encode a
  rw [hnil, List.length_nil] at hlength
  omega

namespace Layout

/-! ## Values that can be written -/

/-- The sequences in the value are not longer than their length field can say, and their
    elements occupy bytes: a length is checked against the bytes that follow it. -/
def Fits {α : Type} : Layout α → α → Prop
  | scalar _, _ => True
  | transient _, _ => True
  | pair first second, (a, b) => first.Fits a ∧ second.Fits b
  | either first _ _ _, .inl a => first.Fits a
  | either _ _ second _, .inr b => second.Fits b
  | whole inner _, a => inner.Fits a
  | view inner coding, b => inner.Fits (coding.encode b)
  | array _ element, xs => ∀ x ∈ xs.toList, element.Fits x
  | sequence element _, xs =>
    xs.size < UInt64.size ∧ ∀ x ∈ xs.toList, element.Fits x ∧ element.write x ≠ []

/-- The layout has no sequences, which are the only parts that a length field counts. -/
def isFlat {α : Type} : Layout α → Bool
  | scalar _ => true
  | transient _ => true
  | pair first second => first.isFlat && second.isFlat
  | either first _ second _ => first.isFlat && second.isFlat
  | whole inner _ => inner.isFlat
  | view inner _ => inner.isFlat
  | array _ element => element.isFlat
  | sequence _ _ => false

/-- A layout without sequences fits all its values. -/
theorem fits_of_isFlat {α : Type} {layout : Layout α} (h : layout.isFlat = true) (a : α) :
    layout.Fits a := by
  induction layout with
  | scalar s => trivial
  | transient α => trivial
  | pair first second ihFirst ihSecond =>
    obtain ⟨hfirst, hsecond⟩ := Bool.and_eq_true_iff.mp h
    exact ⟨ihFirst hfirst a.1, ihSecond hsecond a.2⟩
  | either first _ second _ ihFirst ihSecond =>
    obtain ⟨hfirst, hsecond⟩ := Bool.and_eq_true_iff.mp h
    cases a with
    | inl a => exact ihFirst hfirst a
    | inr b => exact ihSecond hsecond b
  | whole inner _ ih => exact ih h a
  | view inner coding ih => exact ih h (coding.encode a)
  | array n element ih => exact fun x _ => ih h x
  | sequence element fill ih => cases h

/-! ## Parts that are not stored -/

/-- The value with the parts of the target that the layout does not store. -/
def merge {α : Type} : Layout α → α → α → α
  | scalar _, _, a => a
  | transient _, target, _ => target
  | pair first second, (t, u), (a, b) => (first.merge t a, second.merge u b)
  | either first fresh _ _, _, .inl a => .inl (first.merge fresh a)
  | either _ _ second fresh, _, .inr b => .inr (second.merge fresh b)
  | whole inner fresh, _, a => inner.merge fresh a
  | view inner coding, target, b =>
    coding.decode (inner.merge (coding.encode target) (coding.encode b))
  | array _ element, targets, xs => Vector.zipWith element.merge targets xs
  | sequence element fill, targets, xs =>
    (List.zipWith element.merge (resize targets xs.size fill) xs.toList).toArray

/-- The layout stores all of its values. -/
def isStored {α : Type} : Layout α → Bool
  | scalar _ => true
  | transient _ => false
  | pair first second => first.isStored && second.isStored
  | either first _ second _ => first.isStored && second.isStored
  | whole inner _ => inner.isStored
  | view inner _ => inner.isStored
  | array _ element => element.isStored
  | sequence element _ => element.isStored

/-- Where all is stored the target does not matter. -/
theorem merge_of_isStored {α : Type} {layout : Layout α} (h : layout.isStored = true)
    (target a : α) : layout.merge target a = a := by
  induction layout with
  | scalar s => rfl
  | transient α => cases h
  | pair first second ihFirst ihSecond =>
    obtain ⟨hfirst, hsecond⟩ := Bool.and_eq_true_iff.mp h
    exact Prod.ext (ihFirst hfirst _ _) (ihSecond hsecond _ _)
  | either first _ second _ ihFirst ihSecond =>
    obtain ⟨hfirst, hsecond⟩ := Bool.and_eq_true_iff.mp h
    cases a with
    | inl a => exact congrArg Sum.inl (ihFirst hfirst _ _)
    | inr b => exact congrArg Sum.inr (ihSecond hsecond _ _)
  | whole inner _ ih => exact ih h _ _
  | view inner coding ih =>
    show coding.decode (inner.merge _ (coding.encode a)) = a
    rw [ih h, coding.decode_encode]
  | array n element ih =>
    have hmerge : element.merge = fun _ x => x := funext fun t => funext fun x => ih h t x
    show Vector.zipWith element.merge target a = a
    rw [hmerge]
    ext i hi
    simp only [Vector.getElem_zipWith]
  | sequence element fill ih =>
    have hlength : (resize target a.size fill).length = a.toList.length := by
      rw [length_resize, Array.length_toList]
    show (List.zipWith element.merge (resize target a.size fill) a.toList).toArray = a
    have hall : List.zipWith element.merge (resize target a.size fill) a.toList = a.toList := by
      apply List.ext_getElem
      · rw [List.length_zipWith, hlength, Nat.min_self]
      · intro i hi hi'
        rw [List.getElem_zipWith, ih h]
    rw [hall]

end Layout
end EffectsDsp
