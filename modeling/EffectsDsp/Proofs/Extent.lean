/-
  EffectsDsp.Proofs.Extent

  How far reading goes. Where it succeeds it stops behind the value, and neither the target
  nor the bytes that follow have a say in where that is (`reads_append`). Behind bytes of the
  form of a value it therefore stops where they end (`rest_of_reads`), and within them it
  does not succeed (`failure_of_cut`): nothing frames the parts of a layout, and still no
  value ends early.
  A value that was read from any bytes is written in as many (`length_write_of_reads`).

  Where reading fails it asks for more bytes than are left (`isShort_read`).
-/

import EffectsDsp.Proofs.Disturbance

namespace EffectsDsp

/-- If reading failed, more bytes were asked for than are left. -/
def Reading.IsShort {α : Type} (r : Reading α) : Prop :=
  ∀ e, r.failure = some e → e.remaining < e.needed ∧ e.remaining = r.rest.length

namespace Layout

variable {α : Type}

/-! ## What stands behind -/

theorem readsEach_append {element : Layout α} {more : List UInt8}
    (hread : ∀ {target bytes a rest}, element.Reads target bytes a rest →
      ∀ other, ∃ b, element.Reads other (bytes ++ more) b (rest ++ more))
    {targets others xs : List α} {bytes rest : List UInt8}
    (h : element.ReadsEach targets bytes xs rest) (hlength : others.length = targets.length) :
    ∃ ys, element.ReadsEach others (bytes ++ more) ys (rest ++ more) := by
  induction targets generalizing others bytes xs with
  | nil =>
    obtain rfl := List.length_eq_zero_iff.mp hlength
    obtain ⟨-, rfl⟩ := h
    exact ⟨[], rfl, rfl⟩
  | cons target targets ih =>
    cases others with
    | nil => cases hlength
    | cons other others =>
      obtain ⟨x, mid, zs, rfl, hx, hzs⟩ := h
      obtain ⟨y, hy⟩ := hread hx other
      obtain ⟨ys, hys⟩ := ih hzs (Nat.succ.inj hlength)
      exact ⟨y :: ys, y, _, ys, rfl, hy, hys⟩

/-- Reading that succeeds does so for every target and whatever stands behind, and goes
    as far. -/
theorem reads_append {layout : Layout α} {target a : α} {bytes rest : List UInt8}
    (h : layout.Reads target bytes a rest) (other : α) (more : List UInt8) :
    ∃ b, layout.Reads other (bytes ++ more) b (rest ++ more) := by
  induction layout generalizing bytes rest with
  | scalar s =>
    obtain ⟨head, hlength, rfl, rfl⟩ := reads_scalar.mp h
    exact ⟨_, reads_scalar.mpr ⟨head, hlength, List.append_assoc .., rfl⟩⟩
  | transient α =>
    obtain ⟨-, rfl⟩ := reads_transient.mp h
    exact ⟨other, reads_transient.mpr ⟨rfl, rfl⟩⟩
  | pair first second ihFirst ihSecond =>
    obtain ⟨mid, hfirst, hsecond⟩ := reads_pair.mp h
    obtain ⟨x, hx⟩ := ihFirst hfirst other.1
    obtain ⟨y, hy⟩ := ihSecond hsecond other.2
    exact ⟨(x, y), reads_pair.mpr ⟨mid ++ more, hx, hy⟩⟩
  | either first fresh₁ second fresh₂ ihFirst ihSecond =>
    obtain ⟨tag, body, rfl, ⟨htag, x, hx, -⟩ | ⟨htag, y, hy, -⟩⟩ := reads_either.mp h
    · obtain ⟨b, hb⟩ := ihFirst hx fresh₁
      exact ⟨.inl b, reads_either.mpr ⟨tag, _, rfl, .inl ⟨htag, b, hb, rfl⟩⟩⟩
    · obtain ⟨b, hb⟩ := ihSecond hy fresh₂
      exact ⟨.inr b, reads_either.mpr ⟨tag, _, rfl, .inr ⟨htag, b, hb, rfl⟩⟩⟩
  | whole inner fresh ih =>
    obtain ⟨b, hb⟩ := ih (reads_whole.mp h) fresh
    exact ⟨b, reads_whole.mpr hb⟩
  | view inner coding ih =>
    obtain ⟨x, hx, -⟩ := reads_view.mp h
    obtain ⟨b, hb⟩ := ih hx (coding.encode other)
    exact ⟨coding.decode b, reads_view.mpr ⟨b, hb, rfl⟩⟩
  | array n element ih =>
    have hlength : other.toList.length = target.toList.length := by
      rw [Vector.length_toList, Vector.length_toList]
    obtain ⟨ys, hys⟩ := readsEach_append ih (reads_array.mp h) hlength
    have hys' : ys.length = n := by rw [length_of_readsEach hys, Vector.length_toList]
    exact ⟨⟨ys.toArray, hys'⟩, reads_array.mpr hys⟩
  | sequence element fill ih =>
    obtain ⟨head, body, hhead, rfl, hshort, helements⟩ := reads_sequence.mp h
    have hlength : (resize other (Scalar.u64.decode head).toNat fill).length =
        (resize target (Scalar.u64.decode head).toNat fill).length := by
      rw [length_resize, length_resize]
    obtain ⟨ys, hys⟩ := readsEach_append ih helements hlength
    -- More bytes can only help a length to be possible.
    refine ⟨ys.toArray, reads_sequence.mpr ⟨head, _, hhead, List.append_assoc .., ?_, hys⟩⟩
    rw [List.length_append]
    omega

/-! ## Forms -/

/-- The bytes have the form of a value. Those that a value is written as have it, and so have
    bytes that no value is written as, such as those of a format that cannot be
    represented. -/
def Forms {α : Type} : Layout α → List UInt8 → Prop
  | scalar s, bytes => bytes.length = s.size
  | transient _, bytes => bytes = []
  | pair first second, bytes =>
    ∃ head tail, bytes = head ++ tail ∧ first.Forms head ∧ second.Forms tail
  | either first _ second _, bytes =>
    ∃ tag body, bytes = tag :: body ∧
      (tag = 0 ∧ first.Forms body ∨ tag ≠ 0 ∧ second.Forms body)
  | whole inner _, bytes => inner.Forms bytes
  | view inner _, bytes => inner.Forms bytes
  | array n element, bytes =>
    ∃ parts : List (List UInt8),
      bytes = parts.flatten ∧ parts.length = n ∧ ∀ part ∈ parts, element.Forms part
  | sequence element _, bytes =>
    ∃ (head : List UInt8) (parts : List (List UInt8)),
      bytes = head ++ parts.flatten ∧ head.length = 8 ∧
        (Scalar.u64.decode head).toNat = parts.length ∧ ∀ part ∈ parts, element.Forms part

theorem rest_of_readsEach_flatten {element : Layout α} {parts : List (List UInt8)}
    {targets xs : List α} {rest left : List UInt8}
    (hread : ∀ part ∈ parts, ∀ {target b rest left},
      element.Reads target (part ++ rest) b left → left = rest)
    (hlength : targets.length = parts.length)
    (h : element.ReadsEach targets (parts.flatten ++ rest) xs left) : left = rest := by
  induction parts generalizing targets xs with
  | nil =>
    obtain rfl := List.length_eq_zero_iff.mp hlength
    obtain ⟨-, hrest⟩ := h
    exact hrest.symm
  | cons part parts ih =>
    cases targets with
    | nil => cases hlength
    | cons target targets =>
      obtain ⟨y, mid, ys, rfl, hy, hys⟩ := h
      rw [List.flatten_cons, List.append_assoc] at hy
      obtain rfl := hread part List.mem_cons_self hy
      exact ih (fun z hz => hread z (List.mem_cons_of_mem _ hz)) (Nat.succ.inj hlength) hys

/-- What is read from bytes of the form of a value ends where these do. -/
theorem rest_of_reads {layout : Layout α} {bytes : List UInt8} (hforms : layout.Forms bytes)
    {target a : α} {rest left : List UInt8} (h : layout.Reads target (bytes ++ rest) a left) :
    left = rest := by
  induction layout generalizing bytes rest left with
  | scalar s =>
    obtain ⟨head, hlength, hbytes, -⟩ := reads_scalar.mp h
    exact (List.append_inj_right hbytes (hforms.trans hlength.symm)).symm
  | transient α =>
    obtain rfl : bytes = [] := hforms
    obtain ⟨-, hrest⟩ := reads_transient.mp h
    exact hrest.symm
  | pair first second ihFirst ihSecond =>
    obtain ⟨head, tail, rfl, hfirst, hsecond⟩ := hforms
    obtain ⟨mid, hx, hy⟩ := reads_pair.mp h
    rw [List.append_assoc] at hx
    -- The second part is read from where its own bytes begin.
    obtain rfl := ihFirst hfirst hx
    exact ihSecond hsecond hy
  | either first fresh₁ second fresh₂ ihFirst ihSecond =>
    obtain ⟨tag, body, rfl, ⟨rfl, hfirst⟩ | ⟨htag, hsecond⟩⟩ := hforms
    · obtain ⟨x, hx, -⟩ := reads_either_first.mp h
      exact ihFirst hfirst hx
    · obtain ⟨y, hy, -⟩ := (reads_either_second htag).mp h
      exact ihSecond hsecond hy
  | whole inner fresh ih => exact ih hforms (reads_whole.mp h)
  | view inner coding ih =>
    obtain ⟨x, hx, -⟩ := reads_view.mp h
    exact ih hforms hx
  | array n element ih =>
    obtain ⟨parts, rfl, hlength, hparts⟩ := hforms
    have htargets : target.toList.length = parts.length := by
      rw [Vector.length_toList, hlength]
    exact rest_of_readsEach_flatten (fun part hpart => ih (hparts part hpart)) htargets
      (reads_array.mp h)
  | sequence element fill ih =>
    obtain ⟨head, parts, rfl, hhead, hlength, hparts⟩ := hforms
    rw [List.append_assoc] at h
    obtain ⟨-, helements⟩ := (reads_sequence_append hhead).mp h
    have htargets : (resize target (Scalar.u64.decode head).toNat fill).length =
        parts.length := by
      rw [length_resize, hlength]
    exact rest_of_readsEach_flatten (fun part hpart => ih (hparts part hpart)) htargets
      helements

theorem forms_of_readsEach {element : Layout α}
    (hread : ∀ {target bytes a rest}, element.Reads target bytes a rest →
      ∃ head, bytes = head ++ rest ∧ element.Forms head)
    {targets xs : List α} {bytes rest : List UInt8}
    (h : element.ReadsEach targets bytes xs rest) :
    ∃ parts : List (List UInt8), bytes = parts.flatten ++ rest ∧
      parts.length = targets.length ∧ ∀ part ∈ parts, element.Forms part := by
  induction targets generalizing bytes xs with
  | nil =>
    obtain ⟨-, rfl⟩ := h
    exact ⟨[], rfl, rfl, List.forall_mem_nil _⟩
  | cons target targets ih =>
    obtain ⟨x, mid, ys, rfl, hx, hys⟩ := h
    obtain ⟨head, rfl, hhead⟩ := hread hx
    obtain ⟨parts, rfl, hlength, hparts⟩ := ih hys
    refine ⟨head :: parts, ?_, congrArg Nat.succ hlength, List.forall_mem_cons.mpr ⟨hhead, hparts⟩⟩
    rw [List.flatten_cons, List.append_assoc]

/-- What was read has the form of a value. -/
theorem forms_of_reads {layout : Layout α} {target a : α} {bytes rest : List UInt8}
    (h : layout.Reads target bytes a rest) :
    ∃ head, bytes = head ++ rest ∧ layout.Forms head := by
  induction layout generalizing bytes rest with
  | scalar s =>
    obtain ⟨head, hlength, rfl, -⟩ := reads_scalar.mp h
    exact ⟨head, rfl, hlength⟩
  | transient α =>
    obtain ⟨-, rfl⟩ := reads_transient.mp h
    exact ⟨[], rfl, rfl⟩
  | pair first second ihFirst ihSecond =>
    obtain ⟨mid, hx, hy⟩ := reads_pair.mp h
    obtain ⟨head, rfl, hhead⟩ := ihFirst hx
    obtain ⟨tail, rfl, htail⟩ := ihSecond hy
    exact ⟨head ++ tail, (List.append_assoc ..).symm, head, tail, rfl, hhead, htail⟩
  | either first fresh₁ second fresh₂ ihFirst ihSecond =>
    obtain ⟨tag, body, rfl, ⟨htag, x, hx, -⟩ | ⟨htag, y, hy, -⟩⟩ := reads_either.mp h
    · obtain ⟨head, rfl, hhead⟩ := ihFirst hx
      exact ⟨tag :: head, rfl, tag, head, rfl, .inl ⟨htag, hhead⟩⟩
    · obtain ⟨head, rfl, hhead⟩ := ihSecond hy
      exact ⟨tag :: head, rfl, tag, head, rfl, .inr ⟨htag, hhead⟩⟩
  | whole inner fresh ih => exact ih (reads_whole.mp h)
  | view inner coding ih =>
    obtain ⟨x, hx, -⟩ := reads_view.mp h
    exact ih hx
  | array n element ih =>
    obtain ⟨parts, rfl, hlength, hparts⟩ := forms_of_readsEach ih (reads_array.mp h)
    rw [Vector.length_toList] at hlength
    exact ⟨parts.flatten, rfl, parts, rfl, hlength, hparts⟩
  | sequence element fill ih =>
    obtain ⟨head, body, hhead, rfl, -, helements⟩ := reads_sequence.mp h
    obtain ⟨parts, rfl, hlength, hparts⟩ := forms_of_readsEach ih helements
    rw [length_resize] at hlength
    exact ⟨head ++ parts.flatten, (List.append_assoc ..).symm, head, parts, rfl, hhead,
      hlength.symm, hparts⟩

/-- The sequences in the value are not longer than their length field can say. -/
def Counted {α : Type} : Layout α → α → Prop
  | scalar _, _ => True
  | transient _, _ => True
  | pair first second, (a, b) => first.Counted a ∧ second.Counted b
  | either first _ _ _, .inl a => first.Counted a
  | either _ _ second _, .inr b => second.Counted b
  | whole inner _, a => inner.Counted a
  | view inner coding, b => inner.Counted (coding.encode b)
  | array _ element, xs => ∀ x ∈ xs.toList, element.Counted x
  | sequence element _, xs => xs.size < UInt64.size ∧ ∀ x ∈ xs.toList, element.Counted x

/-- A value is written in the form of its layout. -/
theorem forms_write {layout : Layout α} {a : α} (hcounted : layout.Counted a) :
    layout.Forms (layout.write a) := by
  have hparts : ∀ {β : Type} {element : Layout β} {xs : List β},
      (∀ x ∈ xs, element.Forms (element.write x)) →
        ∀ part ∈ xs.map element.write, element.Forms part := by
    intro β element xs hall part hpart
    obtain ⟨x, hx, rfl⟩ := List.mem_map.mp hpart
    exact hall x hx
  induction layout with
  | scalar s => exact s.length_encode a
  | transient α => rfl
  | pair first second ihFirst ihSecond =>
    exact ⟨_, _, rfl, ihFirst hcounted.1, ihSecond hcounted.2⟩
  | either first fresh₁ second fresh₂ ihFirst ihSecond =>
    cases a with
    | inl a => exact ⟨0, _, rfl, .inl ⟨rfl, ihFirst hcounted⟩⟩
    | inr b => exact ⟨1, _, rfl, .inr ⟨by decide, ihSecond hcounted⟩⟩
  | whole inner fresh ih => exact ih hcounted
  | view inner coding ih => exact ih hcounted
  | array n element ih =>
    refine ⟨a.toList.map element.write, List.flatMap_def, ?_, ?_⟩
    · rw [List.length_map, Vector.length_toList]
    · exact hparts fun x hx => ih (hcounted x hx)
  | sequence element fill ih =>
    obtain ⟨hsize, hall⟩ := hcounted
    refine ⟨Scalar.u64.encode (UInt64.ofNat a.size), a.toList.map element.write, ?_,
      Scalar.u64.length_encode _, ?_, hparts fun x hx => ih (hall x hx)⟩
    · rw [write, List.flatMap_def]
    · rw [Scalar.u64.decode_encode, UInt64.toNat_ofNat_of_lt' hsize, List.length_map,
        Array.length_toList]

/-- The sequences of a value that fits are counted. -/
theorem counted_of_fits {layout : Layout α} {a : α} (hfits : layout.Fits a) :
    layout.Counted a := by
  induction layout with
  | scalar s => trivial
  | transient α => trivial
  | pair first second ihFirst ihSecond => exact ⟨ihFirst hfits.1, ihSecond hfits.2⟩
  | either first fresh₁ second fresh₂ ihFirst ihSecond =>
    cases a with
    | inl a => exact ihFirst hfits
    | inr b => exact ihSecond hfits
  | whole inner fresh ih => exact ih hfits
  | view inner coding ih => exact ih hfits
  | array n element ih => exact fun x hx => ih (hfits x hx)
  | sequence element fill ih => exact ⟨hfits.1, fun x hx => ih (hfits.2 x hx).1⟩

/-! ## Cuts -/

/-- Bytes of the form of a value are not read if some of them are missing. -/
theorem failure_of_cut {layout : Layout α} {head tail : List UInt8}
    (hforms : layout.Forms (head ++ tail)) (htail : tail ≠ []) (target : α) :
    ∃ e, (layout.read target head).failure = some e := by
  rcases hfailure : (layout.read target head).failure with _ | e
  · -- What was read would be read again before the tail.
    obtain ⟨b, hb⟩ := reads_append (reads_of_failure hfailure) target tail
    rw [← List.append_nil (head ++ tail)] at hb
    obtain ⟨-, hnil⟩ := List.append_eq_nil_iff.mp (rest_of_reads hforms hb)
    exact absurd hnil htail
  · exact ⟨e, rfl⟩

/-- The bytes of a value cannot be cut. -/
theorem failure_of_cut_write {layout : Layout α} {a : α} (hcounted : layout.Counted a)
    {head tail : List UInt8} (htail : tail ≠ []) (h : layout.write a = head ++ tail)
    (target : α) : ∃ e, (layout.read target head).failure = some e := by
  have hforms := forms_write hcounted
  rw [h] at hforms
  exact failure_of_cut hforms htail target

/-! ## Values written again -/

theorem length_flatMap_encode (s : Scalar α) (xs : List α) :
    (xs.flatMap s.encode).length = xs.length * s.size := by
  induction xs with
  | nil => exact (Nat.zero_mul _).symm
  | cons x xs ih =>
    rw [List.flatMap_cons, List.length_append, s.length_encode, ih, List.length_cons,
      Nat.succ_mul, Nat.add_comm]

/-- What a view makes of the values that are read has as many bytes as they have. -/
def KeepsLength {α : Type} : Layout α → Prop
  | scalar _ => True
  | transient _ => True
  | pair first second => first.KeepsLength ∧ second.KeepsLength
  | either first _ second _ => first.KeepsLength ∧ second.KeepsLength
  | whole inner _ => inner.KeepsLength
  | view inner coding =>
    inner.KeepsLength ∧
      ∀ a, (inner.write (coding.encode (coding.decode a))).length = (inner.write a).length
  | array _ element => element.KeepsLength
  | sequence element _ => element.KeepsLength

theorem length_flatMap_of_readsEach {element : Layout α} {targets xs : List α}
    {bytes rest : List UInt8}
    (hread : ∀ {target bytes a rest}, element.Reads target bytes a rest →
      bytes.length = (element.write a).length + rest.length)
    (h : element.ReadsEach targets bytes xs rest) :
    bytes.length = (xs.flatMap element.write).length + rest.length := by
  induction targets generalizing bytes xs with
  | nil =>
    obtain ⟨rfl, rfl⟩ := h
    simp
  | cons target targets ih =>
    obtain ⟨x, mid, ys, rfl, hx, hys⟩ := h
    have hmid := ih hys
    have hbytes := hread hx
    rw [List.flatMap_cons, List.length_append]
    omega

/-- A value is written in as many bytes as it was read from. -/
theorem length_write_of_reads {layout : Layout α} (hkeeps : layout.KeepsLength) {target a : α}
    {bytes rest : List UInt8} (h : layout.Reads target bytes a rest) :
    bytes.length = (layout.write a).length + rest.length := by
  induction layout generalizing bytes rest with
  | scalar s =>
    obtain ⟨head, hlength, rfl, rfl⟩ := reads_scalar.mp h
    rw [write, s.length_encode, List.length_append, hlength]
  | transient α =>
    obtain ⟨rfl, rfl⟩ := reads_transient.mp h
    simp [write]
  | pair first second ihFirst ihSecond =>
    obtain ⟨hfirst, hsecond⟩ := hkeeps
    obtain ⟨mid, hx, hy⟩ := reads_pair.mp h
    have hbytes := ihFirst hfirst hx
    have hmid := ihSecond hsecond hy
    rw [write, List.length_append]
    omega
  | either first fresh₁ second fresh₂ ihFirst ihSecond =>
    obtain ⟨hfirst, hsecond⟩ := hkeeps
    obtain ⟨tag, body, rfl, ⟨-, x, hx, rfl⟩ | ⟨-, y, hy, rfl⟩⟩ := reads_either.mp h
    · have hbody := ihFirst hfirst hx
      rw [write, List.length_cons, List.length_cons]
      omega
    · have hbody := ihSecond hsecond hy
      rw [write, List.length_cons, List.length_cons]
      omega
  | whole inner fresh ih => exact ih hkeeps (reads_whole.mp h)
  | view inner coding ih =>
    obtain ⟨hinner, hcoding⟩ := hkeeps
    obtain ⟨x, hx, rfl⟩ := reads_view.mp h
    -- What is written may differ from what was read, but not in its length.
    rw [write, hcoding]
    exact ih hinner hx
  | array n element ih =>
    exact length_flatMap_of_readsEach (ih hkeeps) (reads_array.mp h)
  | sequence element fill ih =>
    obtain ⟨head, body, hhead, rfl, -, helements⟩ := reads_sequence.mp h
    have hbody := length_flatMap_of_readsEach (ih hkeeps) helements
    have hcount : (Scalar.u64.encode (UInt64.ofNat a.size)).length = 8 :=
      Scalar.u64.length_encode _
    rw [write, List.length_append, List.length_append, hhead, hcount, hbody, Nat.add_assoc]

/-- Reading goes on behind as many bytes as the value is written in. -/
theorem rest_eq_drop {layout : Layout α} (hkeeps : layout.KeepsLength) {target a : α}
    {bytes rest : List UInt8} (h : layout.Reads target bytes a rest) :
    rest = bytes.drop (layout.write a).length := by
  have hlength := length_write_of_reads hkeeps h
  obtain ⟨head, rfl, -⟩ := forms_of_reads h
  have hhead : head.length = (layout.write a).length := by
    rw [List.length_append] at hlength
    omega
  rw [← hhead, List.drop_left]

/-- Each element is read behind as many bytes as those before it are written in. -/
theorem reads_getElem {element : Layout α} (hkeeps : element.KeepsLength) {targets xs : List α}
    {bytes rest : List UInt8} (h : element.ReadsEach targets bytes xs rest) {i : Nat}
    (hi : i < xs.length) :
    ∃ target left,
      element.Reads target (bytes.drop ((xs.take i).flatMap element.write).length) xs[i] left := by
  induction targets generalizing bytes xs i with
  | nil =>
    obtain ⟨rfl, -⟩ := h
    cases hi
  | cons target targets ih =>
    obtain ⟨x, mid, ys, rfl, hx, hys⟩ := h
    cases i with
    | zero => exact ⟨target, mid, hx⟩
    | succ i =>
      obtain ⟨other, left, hread⟩ := ih hys (Nat.lt_of_succ_lt_succ hi)
      refine ⟨other, left, ?_⟩
      rw [rest_eq_drop hkeeps hx, List.drop_drop] at hread
      rw [List.take_succ_cons, List.flatMap_cons, List.length_append]
      exact hread

/-! ## Failures -/

theorem isShort_readScalar (s : Scalar α) (target : α) (bytes : List UInt8) :
    (readScalar s target bytes).IsShort := by
  intro e he
  by_cases hshort : bytes.length < s.size
  · rw [readScalar_of_short s target hshort] at he ⊢
    cases he
    exact ⟨hshort, rfl⟩
  · obtain ⟨head, body, hlength, rfl⟩ := exists_head (Nat.not_lt.mp hshort)
    rw [readScalar_of_length s target hlength] at he
    cases he

theorem isShort_readEach {read : α → List UInt8 → Reading α}
    (hread : ∀ target bytes, (read target bytes).IsShort) (targets : List α)
    (bytes : List UInt8) (done : Array α) : (readEach read targets bytes done).IsShort := by
  induction targets generalizing bytes done with
  | nil =>
    intro e he
    cases he
  | cons target targets ih =>
    have hfirst := hread target bytes
    unfold readEach
    generalize read target bytes = r at hfirst ⊢
    rcases r with ⟨x, mid, _ | e⟩
    · exact ih mid _
    · exact hfirst

theorem isShort_read (layout : Layout α) (target : α) (bytes : List UInt8) :
    (layout.read target bytes).IsShort := by
  induction layout generalizing bytes with
  | scalar s => exact isShort_readScalar s target bytes
  | transient α =>
    intro e he
    cases he
  | pair first second ihFirst ihSecond =>
    have hfirst := ihFirst target.1 bytes
    rw [read]
    generalize first.read target.1 bytes = r at hfirst ⊢
    rcases r with ⟨x, mid, _ | e⟩
    · exact ihSecond target.2 mid
    · exact hfirst
  | either first fresh₁ second fresh₂ ihFirst ihSecond =>
    cases bytes with
    | nil =>
      intro e he
      rw [read, readScalar_of_short Scalar.u8 0 (by decide)] at he ⊢
      cases he
      exact ⟨by decide, rfl⟩
    | cons tag body =>
      rw [read, readScalar_u8_cons]
      by_cases htag : tag = 0
      · have hfirst := ihFirst fresh₁ body
        simp only [if_pos htag]
        generalize first.read fresh₁ body = r at hfirst ⊢
        rcases r with ⟨x, left, _ | e⟩ <;> exact hfirst
      · have hsecond := ihSecond fresh₂ body
        simp only [if_neg htag]
        generalize second.read fresh₂ body = r at hsecond ⊢
        rcases r with ⟨y, left, _ | e⟩ <;> exact hsecond
  | whole inner fresh ih =>
    have hinner := ih fresh bytes
    rw [read]
    generalize inner.read fresh bytes = r at hinner ⊢
    rcases r with ⟨x, left, _ | e⟩ <;> exact hinner
  | view inner coding ih => exact ih (coding.encode target) bytes
  | array n element ih => exact isShort_readEach ih target.toList bytes #[]
  | sequence element fill ih =>
    by_cases hlength : bytes.length < 8
    · rw [read, readScalar_of_short Scalar.u64 0 hlength]
      intro e he
      cases he
      exact ⟨hlength, rfl⟩
    · obtain ⟨head, body, hhead, rfl⟩ := exists_head (Nat.not_lt.mp hlength)
      rw [read, readScalar_of_length Scalar.u64 0 hhead]
      by_cases hshort : body.length < (Scalar.u64.decode head).toNat
      · simp only [if_pos hshort]
        intro e he
        cases he
        exact ⟨hshort, rfl⟩
      · simp only [if_neg hshort]
        exact isShort_readEach ih _ _ #[]

end Layout
end EffectsDsp
