/-
  EffectsDsp.Proofs.Truncation

  Bytes that end within a value. Reading them fails, wherever they end, and says how many
  bytes the part that ran out needs and how many are left.

  What the target holds then depends on how far reading got. Of a record, which has scalars
  and transient fields for its leaves, each leaf is either read or as it was: reading a
  record is reading the list of its leaves (`readAll_leaves`), so that a cut through nested
  arrays and pairs becomes one through a list. A sequence is resized before its elements
  are read, and these then are the leaves of an array.
-/

import Mathlib.Data.List.Forall2
import EffectsDsp.Proofs.Extent
import EffectsDsp.Proofs.Items

namespace EffectsDsp

/-! ## Leaves -/

/-- The same leaf of two records: a scalar, or a field that is not stored. -/
inductive Item.SameLeaf : Item → Item → Prop where
  | scalar {α : Type} (s : Scalar α) (a b : α) : SameLeaf ⟨.scalar s, a⟩ ⟨.scalar s, b⟩
  | transient {α : Type} (a b : α) : SameLeaf ⟨.transient α, a⟩ ⟨.transient α, b⟩

namespace Layout

variable {α : Type}

/-- Scalars and transient fields, put together by pairs and arrays. The fields of a record
    may have names, as long as these say no more than the values do. -/
def IsRecord {α : Type} : Layout α → Prop
  | scalar _ => True
  | transient _ => True
  | pair first second => first.IsRecord ∧ second.IsRecord
  | either _ _ _ _ => False
  | whole _ _ => False
  | view inner coding => inner.IsRecord ∧ ∀ a, coding.encode (coding.decode a) = a
  | array _ element => element.IsRecord
  | sequence _ _ => False

/-- The scalars and transient fields of a record, in the order in which they are read. What
    is no record is a leaf as a whole. -/
def leaves {α : Type} : Layout α → α → List Item
  | scalar s, a => [⟨scalar s, a⟩]
  | transient α, a => [⟨transient α, a⟩]
  | pair first second, (a, b) => first.leaves a ++ second.leaves b
  | either first fresh₁ second fresh₂, a => [⟨either first fresh₁ second fresh₂, a⟩]
  | whole inner fresh, a => [⟨whole inner fresh, a⟩]
  | view inner coding, b => inner.leaves (coding.encode b)
  | array _ element, xs => xs.toList.flatMap element.leaves
  | sequence element fill, xs => [⟨sequence element fill, xs⟩]

theorem sameLeaf_flatMap_leaves {element : Layout α}
    (hleaves : ∀ a b, List.Forall₂ Item.SameLeaf (element.leaves a) (element.leaves b))
    {xs ys : List α} (hlength : xs.length = ys.length) :
    List.Forall₂ Item.SameLeaf (xs.flatMap element.leaves) (ys.flatMap element.leaves) := by
  induction xs generalizing ys with
  | nil =>
    obtain rfl := List.length_eq_zero_iff.mp hlength.symm
    exact .nil
  | cons x xs ih =>
    cases ys with
    | nil => cases hlength
    | cons y ys =>
      rw [List.flatMap_cons, List.flatMap_cons]
      exact List.rel_append (hleaves x y) (ih (Nat.succ.inj hlength))

/-- All records of a layout have the same leaves, which hold different values. -/
theorem sameLeaf_leaves {layout : Layout α} (hrecord : layout.IsRecord) (a b : α) :
    List.Forall₂ Item.SameLeaf (layout.leaves a) (layout.leaves b) := by
  induction layout with
  | scalar s => exact .cons (.scalar s a b) .nil
  | transient α => exact .cons (.transient a b) .nil
  | pair first second ihFirst ihSecond =>
    exact List.rel_append (ihFirst hrecord.1 a.1 b.1) (ihSecond hrecord.2 a.2 b.2)
  | either first fresh₁ second fresh₂ => cases hrecord
  | whole inner fresh => cases hrecord
  | view inner coding ih => exact ih hrecord.1 (coding.encode a) (coding.encode b)
  | array n element ih =>
    apply sameLeaf_flatMap_leaves (ih hrecord)
    rw [Vector.length_toList, Vector.length_toList]
  | sequence element fill => cases hrecord

theorem eq_of_flatMap_leaves {element : Layout α} (hrecord : element.IsRecord)
    (hinjective : ∀ {a b}, element.leaves a = element.leaves b → a = b) {xs ys : List α}
    (hlength : xs.length = ys.length)
    (h : xs.flatMap element.leaves = ys.flatMap element.leaves) : xs = ys := by
  induction xs generalizing ys with
  | nil => exact (List.length_eq_zero_iff.mp hlength.symm).symm
  | cons x xs ih =>
    cases ys with
    | nil => cases hlength
    | cons y ys =>
      rw [List.flatMap_cons, List.flatMap_cons] at h
      obtain ⟨hhead, htail⟩ := List.append_inj h (sameLeaf_leaves hrecord x y).length_eq
      rw [hinjective hhead, ih (Nat.succ.inj hlength) htail]

/-- A record has no content besides its leaves. -/
theorem eq_of_leaves {layout : Layout α} (hrecord : layout.IsRecord) {a b : α}
    (h : layout.leaves a = layout.leaves b) : a = b := by
  induction layout with
  | scalar s =>
    cases h
    rfl
  | transient α =>
    cases h
    rfl
  | pair first second ihFirst ihSecond =>
    have hlength := (sameLeaf_leaves hrecord.1 a.1 b.1).length_eq
    obtain ⟨hfirst, hsecond⟩ := List.append_inj h hlength
    exact Prod.ext (ihFirst hrecord.1 hfirst) (ihSecond hrecord.2 hsecond)
  | either first fresh₁ second fresh₂ => cases hrecord
  | whole inner fresh => cases hrecord
  | view inner coding ih =>
    rw [← coding.decode_encode a, ih hrecord.1 h, coding.decode_encode]
  | array n element ih =>
    have helement : element.IsRecord := hrecord
    have hlength : a.toList.length = b.toList.length := by
      rw [Vector.length_toList, Vector.length_toList]
    exact Vector.toList_inj.mp (eq_of_flatMap_leaves helement (ih helement) hlength h)
  | sequence element fill => cases hrecord

/-- A value is written leaf by leaf. -/
theorem writeAll_leaves (layout : Layout α) (a : α) :
    Item.writeAll (layout.leaves a) = layout.write a := by
  unfold Item.writeAll
  induction layout with
  | scalar s => exact List.append_nil _
  | transient α => rfl
  | pair first second ihFirst ihSecond =>
    rw [leaves, write, List.flatMap_append, ihFirst, ihSecond]
  | either first fresh₁ second fresh₂ => exact List.append_nil _
  | whole inner fresh => exact List.append_nil _
  | view inner coding ih => exact ih (coding.encode a)
  | array n element ih =>
    rw [leaves, write, List.flatMap_assoc]
    simp only [ih]
  | sequence element fill => exact List.append_nil _

end Layout

/-! ## Reading leaf by leaf -/

namespace Item

variable {xs zs : List Item} {bytes rest : List UInt8}

/-- The items behind one that is not complete are not read. -/
theorem readAll_cons_of_failure {α : Type} {layout : Layout α} {target a : α} {e : OutOfData}
    (h : layout.read target bytes = ⟨a, rest, some e⟩) (xs : List Item) :
    readAll (⟨layout, target⟩ :: xs) bytes = ⟨⟨layout, a⟩ :: xs, rest, some e⟩ := by
  rw [readAll]
  simp only [h]

theorem readAll_append_of_read (h : readAll xs bytes = ⟨zs, rest, none⟩) (ys : List Item) :
    readAll (xs ++ ys) bytes =
      ⟨zs ++ (readAll ys rest).targets, (readAll ys rest).rest, (readAll ys rest).failure⟩ := by
  induction xs generalizing bytes zs with
  | nil =>
    cases h
    rfl
  | cons x xs ih =>
    obtain ⟨layout, target⟩ := x
    rcases hread : layout.read target bytes with ⟨a, mid, _ | e⟩
    · rcases hall : readAll xs mid with ⟨as, left, failure⟩
      rw [readAll_cons_of_reads hread, hall] at h
      cases h
      rw [List.cons_append, readAll_cons_of_reads hread, ih hall, List.cons_append]
    · rw [readAll_cons_of_failure hread] at h
      cases h

theorem readAll_append_of_failure {e : OutOfData} (h : readAll xs bytes = ⟨zs, rest, some e⟩)
    (ys : List Item) : readAll (xs ++ ys) bytes = ⟨zs ++ ys, rest, some e⟩ := by
  induction xs generalizing bytes zs with
  | nil => cases h
  | cons x xs ih =>
    obtain ⟨layout, target⟩ := x
    rcases hread : layout.read target bytes with ⟨a, mid, _ | e'⟩
    · rcases hall : readAll xs mid with ⟨as, left, failure⟩
      rw [readAll_cons_of_reads hread, hall] at h
      cases h
      rw [List.cons_append, readAll_cons_of_reads hread, ih hall, List.cons_append]
    · rw [readAll_cons_of_failure hread] at h
      cases h
      exact readAll_cons_of_failure hread (xs ++ ys)

end Item

namespace Layout

variable {α : Type}

/-- If the elements are read leaf by leaf, so is the list of them. -/
theorem readAll_flatMap_leaves {element : Layout α}
    (hread : ∀ target bytes, Item.readAll (element.leaves target) bytes =
      ⟨element.leaves (element.read target bytes).target, (element.read target bytes).rest,
        (element.read target bytes).failure⟩)
    (targets : List α) (bytes : List UInt8) (done : Array α) :
    ∃ xs : List α, (readEach element.read targets bytes done).target = done ++ xs.toArray ∧
      Item.readAll (targets.flatMap element.leaves) bytes =
        ⟨xs.flatMap element.leaves, (readEach element.read targets bytes done).rest,
          (readEach element.read targets bytes done).failure⟩ := by
  -- The loop moves what is read to `done`, where the list keeps its head in place.
  induction targets generalizing bytes done with
  | nil => exact ⟨[], Array.append_empty.symm, rfl⟩
  | cons target targets ih =>
    have hfirst := hread target bytes
    unfold readEach
    rw [List.flatMap_cons]
    rcases hx : element.read target bytes with ⟨x, mid, _ | e⟩
    · obtain ⟨xs, hxs, hall⟩ := ih mid (done.push x)
      rw [hx] at hfirst
      refine ⟨x :: xs, hxs.trans List.push_append_toArray, ?_⟩
      rw [Item.readAll_append_of_read hfirst, hall, List.flatMap_cons]
    · -- The element that ran out is partly read, and those behind it stay.
      rw [hx] at hfirst
      refine ⟨x :: targets, List.push_append_toArray, ?_⟩
      rw [Item.readAll_append_of_failure hfirst, List.flatMap_cons]

/-- A record is read leaf by leaf. -/
theorem readAll_leaves {layout : Layout α} (hrecord : layout.IsRecord) (target : α)
    (bytes : List UInt8) :
    Item.readAll (layout.leaves target) bytes =
      ⟨layout.leaves (layout.read target bytes).target, (layout.read target bytes).rest,
        (layout.read target bytes).failure⟩ := by
  induction layout generalizing bytes with
  | scalar s =>
    rcases hread : (scalar s).read target bytes with ⟨a, rest, _ | e⟩
    · exact Item.readAll_cons_of_reads hread []
    · exact Item.readAll_cons_of_failure hread []
  | transient α => rfl
  | pair first second ihFirst ihSecond =>
    obtain ⟨t, u⟩ := target
    have hfirst := ihFirst hrecord.1 t bytes
    rw [leaves, read]
    rcases hx : first.read t bytes with ⟨x, mid, _ | e⟩
    · rw [hx] at hfirst
      rw [Item.readAll_append_of_read hfirst, ihSecond hrecord.2]
      rfl
    · rw [hx] at hfirst
      rw [Item.readAll_append_of_failure hfirst]
      rfl
  | either first fresh₁ second fresh₂ => cases hrecord
  | whole inner fresh => cases hrecord
  | view inner coding ih =>
    -- The leaves of a view are found by encoding, also after its value was decoded.
    have hinner := ih hrecord.1 (coding.encode target) bytes
    have hleaves : ∀ a, (view inner coding).leaves (coding.decode a) = inner.leaves a := by
      intro a
      rw [leaves, hrecord.2]
    rw [read, Reading.map, hleaves]
    exact hinner
  | array n element ih =>
    obtain ⟨xs, hxs, hall⟩ := readAll_flatMap_leaves (ih hrecord) target.toList bytes #[]
    rw [Array.empty_append] at hxs
    have htarget : ((array n element).read target bytes).target.toList = xs :=
      congrArg Array.toList hxs
    rw [leaves, leaves, htarget]
    exact hall
  | sequence element fill => cases hrecord

end Layout

/-! ## Cuts through a list -/

namespace Item

/-- The number of bytes before the item with this index. -/
def offset (xs : List Item) (i : Nat) : Nat :=
  (writeAll (xs.take i)).length

/-- What reading leaves where `head` is all that is left of the bytes of the values. -/
structure CutOff (values targets : List Item) (head : List UInt8) (rs : Readings) : Prop where
  length_eq : rs.targets.length = values.length
  /-- A stored value is read if its last byte is there. -/
  read : ∀ i x, values[i]? = some x → x.layout.isStored = true →
    offset values (i + 1) ≤ head.length → rs.targets[i]? = some x
  /-- Any other target is as it was. -/
  kept : ∀ i x, values[i]? = some x →
    x.layout.isStored = false ∨ head.length < offset values (i + 1) →
    rs.targets[i]? = targets[i]?
  /-- The bytes of the value that ran out are not read. -/
  unread : ∃ i x, values[i]? = some x ∧
    offset values i ≤ head.length ∧ head.length < offset values (i + 1) ∧
    rs.rest = head.drop (offset values i) ∧ rs.failure = some ⟨x.bytes.length, rs.rest.length⟩

theorem offset_cons (x : Item) (xs : List Item) (i : Nat) :
    offset (x :: xs) (i + 1) = x.bytes.length + offset xs i := by
  unfold offset
  rw [List.take_succ_cons, writeAll_cons, List.length_append]

theorem offset_zero (xs : List Item) : offset xs 0 = 0 :=
  rfl

/-- A cut within the first value leaves all targets as they were. -/
theorem cutOff_of_short {values targets : List Item} {value target : Item} {head : List UInt8}
    (hlength : targets.length = values.length) (hshort : head.length < value.bytes.length) :
    CutOff (value :: values) (target :: targets) head
      ⟨target :: targets, head, some ⟨value.bytes.length, head.length⟩⟩ where
  length_eq := by rw [List.length_cons, List.length_cons, hlength]
  read i x _ _ hoffset := by
    rw [offset_cons] at hoffset
    omega
  kept _ _ _ _ := rfl
  unread := by
    refine ⟨0, value, rfl, Nat.zero_le _, ?_, rfl, rfl⟩
    rw [offset_cons, offset_zero]
    omega

/-- A cut behind an item is one through the others. -/
theorem CutOff.cons {values targets : List Item} {head : List UInt8} {rs : Readings}
    (h : CutOff values targets head rs) {value target : Item} (result : Item)
    (hresult : result = if value.layout.isStored then value else target) :
    CutOff (value :: values) (target :: targets) (value.bytes ++ head)
      ⟨result :: rs.targets, rs.rest, rs.failure⟩ where
  length_eq := by rw [List.length_cons, List.length_cons, h.length_eq]
  read i x hx hstored hoffset := by
    cases i with
    | zero =>
      obtain rfl : value = x := Option.some.inj hx
      rw [hresult, if_pos hstored]
      rfl
    | succ i =>
      rw [offset_cons, List.length_append] at hoffset
      exact h.read i x hx hstored (by omega)
  kept i x hx hkept := by
    cases i with
    | zero =>
      obtain rfl : value = x := Option.some.inj hx
      rw [offset_cons, List.length_append] at hkept
      -- The bytes of the first value are all there, so that only a transient one stays.
      have hstored : ¬ value.layout.isStored = true := by
        rcases hkept with hstored | hshort
        · rw [hstored]
          decide
        · rw [offset_zero] at hshort
          omega
      rw [hresult, if_neg hstored]
      rfl
    | succ i =>
      rw [offset_cons, List.length_append] at hkept
      exact h.kept i x hx (hkept.imp_right fun hshort => by omega)
  unread := by
    obtain ⟨i, x, hx, hle, hlt, hrest, hfailure⟩ := h.unread
    refine ⟨i + 1, x, hx, ?_, ?_, ?_, hfailure⟩
    · rw [offset_cons, List.length_append]
      omega
    · rw [offset_cons, List.length_append]
      omega
    · rw [offset_cons, List.drop_append, hrest]
      simp

/-- Values that are cut off are read up to the cut. -/
theorem cutOff_readAll {values targets : List Item}
    (hleaves : List.Forall₂ SameLeaf values targets) {head tail : List UInt8}
    (htail : tail ≠ []) (h : writeAll values = head ++ tail) :
    CutOff values targets head (readAll targets head) := by
  -- The head loses a leaf with every step, down to the one that it does not hold.
  induction hleaves generalizing head with
  | nil => exact absurd (List.append_eq_nil_iff.mp h.symm).2 htail
  | cons hsame hothers ih =>
    rw [writeAll_cons] at h
    cases hsame with
    | transient a b => exact (ih h).cons _ rfl
    | scalar s a b =>
      have hsize : (Item.mk (.scalar s) a).bytes.length = s.size := s.length_encode a
      by_cases hshort : head.length < s.size
      · -- This is the leaf that ran out.
        have hread : (Layout.scalar s).read b head = ⟨b, head, some ⟨s.size, head.length⟩⟩ :=
          Layout.readScalar_of_short s b hshort
        rw [readAll_cons_of_failure hread, ← hsize]
        rw [← hsize] at hshort
        exact cutOff_of_short hothers.length_eq.symm hshort
      · obtain ⟨first, more, hfirst, rfl⟩ := exists_head (Nat.not_lt.mp hshort)
        rw [List.append_assoc] at h
        obtain ⟨rfl, hmore⟩ := List.append_inj h (hsize.trans hfirst.symm)
        have hfits : (Layout.scalar s).Fits a := trivial
        have hread : (Layout.scalar s).Reads b ((Item.mk (.scalar s) a).bytes ++ more) a more :=
          Layout.readsBack_of_fits hfits b more
        rw [readAll_cons_of_reads hread]
        exact (ih hmore).cons _ rfl

end Item

/-! ## Cut values -/

namespace Layout

variable {α : Type}

/-- Bytes that end too early are refused, with fewer bytes left than are needed. -/
theorem refuses_cut {layout : Layout α} {head tail : List UInt8}
    (hforms : layout.Forms (head ++ tail)) (htail : tail ≠ []) (target : α) :
    ∃ e, (layout.read target head).failure = some e ∧ e.remaining < e.needed := by
  obtain ⟨e, he⟩ := failure_of_cut hforms htail target
  exact ⟨e, he, (isShort_read layout target head e he).1⟩

/-- Records are cut between their leaves, or within one. -/
theorem cutOff_read {layout : Layout α} (hrecord : layout.IsRecord) {value target : α}
    {head tail : List UInt8} (htail : tail ≠ []) (h : layout.write value = head ++ tail) :
    Item.CutOff (layout.leaves value) (layout.leaves target) head
      ⟨layout.leaves (layout.read target head).target, (layout.read target head).rest,
        (layout.read target head).failure⟩ := by
  rw [← readAll_leaves hrecord]
  rw [← writeAll_leaves] at h
  exact Item.cutOff_readAll (sameLeaf_leaves hrecord value target) htail h

end Layout

/-! ### Sequences of scalars -/

namespace Item

variable {α : Type}

/-- A scalar as a leaf. -/
def ofScalar (s : Scalar α) (a : α) : Item :=
  ⟨.scalar s, a⟩

theorem ofScalar_injective (s : Scalar α) : Function.Injective (ofScalar s) := by
  intro a b h
  cases h
  rfl

theorem sameLeaf_map_ofScalar (s : Scalar α) {xs ys : List α} (hlength : xs.length = ys.length) :
    List.Forall₂ SameLeaf (xs.map (ofScalar s)) (ys.map (ofScalar s)) := by
  rw [List.forall₂_map_left_iff, List.forall₂_map_right_iff, List.forall₂_iff_get]
  exact ⟨hlength, fun i hx hy => .scalar s _ _⟩

theorem writeAll_map_ofScalar (s : Scalar α) (xs : List α) :
    writeAll (xs.map (ofScalar s)) = xs.flatMap s.encode :=
  List.flatMap_map ..

theorem offset_map_ofScalar (s : Scalar α) {xs : List α} {i : Nat} (hi : i ≤ xs.length) :
    offset (xs.map (ofScalar s)) i = i * s.size := by
  unfold offset
  rw [← List.map_take, writeAll_map_ofScalar, Layout.length_flatMap_encode, List.length_take,
    Nat.min_eq_left hi]

end Item

namespace Layout

variable {α : Type}

/-- Of scalars that are cut off those are read that are complete. -/
theorem readEach_of_cut {s : Scalar α} {xs targets : List α} (hlength : targets.length = xs.length)
    {head tail : List UInt8} (htail : tail ≠ []) (h : xs.flatMap s.encode = head ++ tail) :
    ∃ ys : List α, (readEach (scalar s).read targets head #[]).target = ys.toArray ∧
      ys.length = xs.length ∧
      ∀ i, i < xs.length →
        ys[i]? = if (i + 1) * s.size ≤ head.length then xs[i]? else targets[i]? := by
  have hrecord : (scalar s).IsRecord := trivial
  have hleaves : ∀ zs : List α, zs.flatMap (scalar s).leaves = zs.map (Item.ofScalar s) :=
    fun zs => List.map_eq_flatMap.symm
  obtain ⟨ys, hys, hall⟩ := readAll_flatMap_leaves (readAll_leaves hrecord) targets head #[]
  rw [hleaves, hleaves] at hall
  rw [← Item.writeAll_map_ofScalar] at h
  have hcut := Item.cutOff_readAll (Item.sameLeaf_map_ofScalar s hlength.symm) htail h
  rw [hall] at hcut
  have hsize : ys.length = xs.length := by
    have hlengths := hcut.length_eq
    rwa [List.length_map, List.length_map] at hlengths
  refine ⟨ys, ?_, hsize, fun i hi => ?_⟩
  · rw [hys, Array.empty_append]
  have hinjective := Option.map_injective (Item.ofScalar_injective s)
  have hvalue : (xs.map (Item.ofScalar s))[i]? = some (Item.ofScalar s xs[i]) := by
    rw [List.getElem?_map, List.getElem?_eq_getElem hi, Option.map_some]
  have hnext : i + 1 ≤ xs.length := hi
  have hoffset := Item.offset_map_ofScalar s hnext
  apply hinjective
  rw [← List.getElem?_map]
  split
  · next hle =>
    rw [← List.getElem?_map, hvalue]
    exact hcut.read i _ hvalue rfl (by rw [hoffset]; exact hle)
  · next hlt =>
    rw [← List.getElem?_map]
    exact hcut.kept i _ hvalue (.inr (by rw [hoffset]; omega))

theorem getElem?_resize (xs : Array α) {n i : Nat} (hi : i < n) (fill : α) :
    (resize xs n fill)[i]? = some (xs[i]?.getD fill) := by
  unfold resize
  rw [List.getElem?_append, List.length_take, Array.length_toList]
  by_cases hold : i < xs.size
  · have hmin : i < min n xs.size := by omega
    rw [if_pos hmin, List.getElem?_take_of_lt hi, Array.getElem?_toList,
      Array.getElem?_eq_getElem hold, Option.getD_some]
  · have hmin : ¬ i < min n xs.size := by omega
    have hnew : i - min n xs.size < n - xs.size := by omega
    rw [if_neg hmin, List.getElem?_replicate, if_pos hnew,
      Array.getElem?_eq_none (Nat.not_lt.mp hold), Option.getD_none]

/-- A sequence that is cut off behind its length is resized, if the bytes that are left can
    hold that many elements, and read up to the cut. -/
theorem read_sequence_of_cut {s : Scalar α} {fill : α} {value : Array α}
    (hsize : value.size < UInt64.size) {head tail : List UInt8} (htail : tail ≠ [])
    (h : (sequence (scalar s) fill).write value = head ++ tail) (hlength : 8 ≤ head.length)
    (target : Array α) :
    (head.length - 8 < value.size →
        (sequence (scalar s) fill).read target head =
          ⟨target, head.drop 8, some ⟨value.size, head.length - 8⟩⟩) ∧
      (value.size ≤ head.length - 8 →
        ((sequence (scalar s) fill).read target head).target.size = value.size ∧
          ∀ i, i < value.size →
            ((sequence (scalar s) fill).read target head).target[i]? =
              if 8 + (i + 1) * s.size ≤ head.length then value[i]?
              else some (target[i]?.getD fill)) := by
  obtain ⟨count, body, hcount, rfl⟩ := exists_head hlength
  rw [write, List.append_assoc] at h
  obtain ⟨rfl, hbody⟩ := List.append_inj h ((Scalar.u64.length_encode _).trans hcount.symm)
  have hleft : (Scalar.u64.encode (UInt64.ofNat value.size) ++ body).length - 8 = body.length := by
    rw [List.length_append, hcount]
    omega
  have hdecode : (Scalar.u64.decode (Scalar.u64.encode (UInt64.ofNat value.size))).toNat =
      value.size := by
    rw [Scalar.u64.decode_encode, UInt64.toNat_ofNat_of_lt' hsize]
  rw [hleft, read, readScalar_of_length Scalar.u64 0 hcount]
  simp only [hdecode]
  constructor
  · intro hshort
    rw [if_pos hshort, List.drop_left' hcount]
  · intro hlong
    have htargets : (resize target value.size fill).length = value.toList.length := by
      rw [length_resize, Array.length_toList]
    obtain ⟨ys, hys, hlengths, helements⟩ := readEach_of_cut htargets htail hbody
    rw [if_neg (Nat.not_lt.mpr hlong), hys]
    refine ⟨hlengths, fun i hi => ?_⟩
    rw [List.getElem?_toArray, helements i hi, Array.getElem?_toList, getElem?_resize target hi,
      List.length_append, hcount]
    simp only [Nat.add_le_add_iff_left]

/-- A value whose bytes end too early is never taken for one that is complete. Reading any
    strict beginning of the bytes of a value fails, into any target, and asks for more bytes
    than are left; so it does with bytes that only have the form of a value. A record is read
    up to the leaf that ran out, whose bytes are what is left, and keeps all that comes
    behind. A sequence of scalars is resized once its length is found to be possible, and
    then read up to the cut. -/
theorem cut_values_refused {α : Type} (head : List UInt8) (target : α) (targets : Array α) :
    (∀ (layout : Layout α) (value : α), layout.Counted value →
        head <+: layout.write value → head ≠ layout.write value →
        ∃ e, (layout.read target head).failure = some e ∧ e.remaining < e.needed) ∧
      (∀ (layout : Layout α) (bytes : List UInt8), layout.Forms bytes →
        head <+: bytes → head ≠ bytes →
        ∃ e, (layout.read target head).failure = some e ∧ e.remaining < e.needed) ∧
      (∀ (layout : Layout α) (value : α), layout.IsRecord →
        head <+: layout.write value → head ≠ layout.write value →
        Item.CutOff (layout.leaves value) (layout.leaves target) head
          ⟨layout.leaves (layout.read target head).target, (layout.read target head).rest,
            (layout.read target head).failure⟩) ∧
      ∀ (s : Scalar α) (fill : α) (value : Array α), value.size < UInt64.size →
        head <+: (sequence (scalar s) fill).write value →
        head ≠ (sequence (scalar s) fill).write value → 8 ≤ head.length →
        (head.length - 8 < value.size →
            (sequence (scalar s) fill).read targets head =
              ⟨targets, head.drop 8, some ⟨value.size, head.length - 8⟩⟩) ∧
          (value.size ≤ head.length - 8 →
            ((sequence (scalar s) fill).read targets head).target.size = value.size ∧
              ∀ i, i < value.size →
                ((sequence (scalar s) fill).read targets head).target[i]? =
                  if 8 + (i + 1) * s.size ≤ head.length then value[i]?
                  else some (targets[i]?.getD fill)) := by
  refine ⟨?_, ?_, ?_, ?_⟩
  · intro layout value hcounted hbegins hne
    obtain ⟨tail, htail, hbytes⟩ := exists_tail hbegins hne
    have hforms := forms_write hcounted
    rw [hbytes] at hforms
    exact refuses_cut hforms htail target
  · intro layout bytes hforms hbegins hne
    obtain ⟨tail, htail, rfl⟩ := exists_tail hbegins hne
    exact refuses_cut hforms htail target
  · intro layout value hrecord hbegins hne
    obtain ⟨tail, htail, hbytes⟩ := exists_tail hbegins hne
    exact cutOff_read hrecord htail hbytes
  · intro s fill value hsize hbegins hne hlength
    obtain ⟨tail, htail, hbytes⟩ := exists_tail hbegins hne
    exact read_sequence_of_cut hsize htail hbytes hlength targets

/-- A record that is cut within its last word, and a sequence that is cut within its second
    element. -/
theorem cut_values_refused_within :
    let record : Layout (UInt8 × UInt16 × Vector UInt16 2) :=
      .pair (.scalar .u8) <| .pair (.transient UInt16) <| .array 2 (.scalar .u16)
    let value : UInt8 × UInt16 × Vector UInt16 2 := (7, 8, #v[258, 3])
    let target : UInt8 × UInt16 × Vector UInt16 2 := (0, 5, #v[1, 1])
    let words : Layout (Array Int16) := .sequence (.scalar .i16) 0
    let head : List UInt8 := [3, 0, 0, 0, 0, 0, 0, 0, 0xff, 0xff, 2]
    record.IsRecord ∧ record.Counted value ∧
      [7, 2, 1, 3] <+: record.write value ∧ [7, 2, 1, 3] ≠ record.write value ∧
      (∃ e, (record.read target [7, 2, 1, 3]).failure = some e ∧ e.remaining < e.needed) ∧
      (record.read target [7, 2, 1, 3]).target = (7, 5, #v[258, 1]) ∧
      head <+: words.write #[-1, 2, 3] ∧ head ≠ words.write #[-1, 2, 3] ∧
      ∀ i, i < 3 → (words.read #[4, 4] head).target[i]? = (#[-1, 4, 0] : Array Int16)[i]? := by
  intro record value target words head
  have hrecord : record.IsRecord := ⟨trivial, trivial, trivial⟩
  have hcounted : record.Counted value := counted_of_fits (fits_of_isFlat rfl value)
  have hbegins : [7, 2, 1, 3] <+: record.write value := by decide
  have hne : [7, 2, 1, 3] ≠ record.write value := by decide
  have hbegins' : head <+: words.write #[-1, 2, 3] := by decide
  have hne' : head ≠ words.write #[-1, 2, 3] := by decide
  obtain ⟨hrefused, -, hrecords, -⟩ := cut_values_refused [7, 2, 1, 3] target #[]
  obtain ⟨-, -, -, hwords⟩ := cut_values_refused head (0 : Int16) #[4, 4]
  have hcut := hrecords record value hrecord hbegins hne
  have hleaves : record.leaves (record.read target [7, 2, 1, 3]).target =
      record.leaves (7, 5, #v[258, 1]) := by
    apply List.ext_getElem?
    intro i
    match i with
    | 0 => exact hcut.read 0 ⟨.scalar .u8, 7⟩ rfl rfl (by decide)
    | 1 => exact hcut.kept 1 ⟨.transient UInt16, 8⟩ rfl (.inl rfl)
    | 2 => exact hcut.read 2 ⟨.scalar .u16, 258⟩ rfl rfl (by decide)
    | 3 => exact hcut.kept 3 ⟨.scalar .u16, 3⟩ rfl (.inr (by decide))
    | i + 4 => exact List.getElem?_eq_none (hcut.length_eq ▸ Nat.le_add_left 4 i)
  obtain ⟨-, helements⟩ :=
    (hwords .i16 0 #[-1, 2, 3] (by decide) hbegins' hne' (by decide)).2 (by decide)
  have hwritten : ∀ i, i < 3 →
      (if 8 + (i + 1) * Scalar.i16.size ≤ head.length then #[-1, 2, 3][i]?
        else some (#[4, 4][i]?.getD 0)) = (#[-1, 4, 0] : Array Int16)[i]? := by decide
  refine ⟨hrecord, hcounted, hbegins, hne, hrefused record value hcounted hbegins hne,
    eq_of_leaves hrecord hleaves, hbegins', hne', fun i hi => ?_⟩
  rw [← hwritten i hi]
  exact helements i hi

end Layout
end EffectsDsp
