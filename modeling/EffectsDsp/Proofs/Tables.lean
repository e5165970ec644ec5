/-
  EffectsDsp.Proofs.Tables

  Tables of configuration texts. A table has its keys in ascending order, which is the order of
  characters and also the order of the bytes that encode them (`keyBytes_lt`): a code point has
  its highest bits in its first byte, and more bytes only if it is larger.

  What a text writes is a list of fields in the order of the text, and the table is made of them
  one by one. Only the order of fields with a common key can be seen in it (`ofEntries_perm`).
-/

import Mathlib.Tactic.SplitIfs
import EffectsDsp.Toml.Document

namespace EffectsDsp.Toml

/-! ## Bytes of keys -/

theorem ofNat_cons_lt_iff {m n : Nat} (hm : m < 256) (hn : n < 256) {xs ys : List UInt8} :
    UInt8.ofNat m :: xs < UInt8.ofNat n :: ys ↔ m < n ∨ m = n ∧ xs < ys := by
  rw [List.cons_lt_cons_iff, UInt8.lt_iff_toNat_lt, ← UInt8.toNat_inj,
    UInt8.toNat_ofNat_of_lt' hm, UInt8.toNat_ofNat_of_lt' hn]

/-- Of two characters the smaller one has the smaller encoding, whatever follows. -/
theorem utf8EncodeChar_append_lt {c d : Char} (h : c < d) (xs ys : List UInt8) :
    String.utf8EncodeChar c ++ xs < String.utf8EncodeChar d ++ ys := by
  have hlt : c.val.toNat < d.val.toNat := h
  have hmax : d.val.toNat < 1114112 := d.valid.elim (fun hlow => by omega) fun hhigh => hhigh.2
  -- The digits to base 64 are taken off one by one.
  have htwo : ∀ n, n / 4096 = n / 64 / 64 := fun n => (Nat.div_div_eq_div_mul n 64 64).symm
  have hthree : ∀ n, n / 262144 = n / 64 / 64 / 64 := fun n => by
    rw [Nat.div_div_eq_div_mul, Nat.div_div_eq_div_mul]
  simp only [String.utf8EncodeChar, htwo, hthree]
  generalize c.val.toNat = v at hlt
  generalize d.val.toNat = w at hlt hmax
  -- One to four bytes on both sides: the first bytes tell how many there are.
  split_ifs
  all_goals simp (disch := omega) only [List.cons_append, List.nil_append, ofNat_cons_lt_iff]
  all_goals omega

def keyBytes (key : String) : List UInt8 :=
  key.toUTF8.data.toList

theorem keyBytes_eq (key : String) : keyBytes key = key.toList.flatMap String.utf8EncodeChar := by
  have hbytes : key.toUTF8 = key.toList.utf8Encode := String.utf8Encode_toList.symm
  rw [keyBytes, hbytes]
  simp [List.utf8Encode]

/-- The order of characters is that of bytes. -/
theorem keyBytes_lt {k l : String} (h : k < l) : keyBytes k < keyBytes l := by
  have hchars : k.toList < l.toList := h
  rw [keyBytes_eq, keyBytes_eq]
  generalize k.toList = cs at hchars
  generalize l.toList = ds at hchars
  induction cs generalizing ds with
  | nil =>
    cases ds with
    | nil => exact absurd hchars (List.lt_irrefl [])
    | cons d ds =>
      obtain ⟨b, bs, hbytes⟩ := List.exists_cons_of_ne_nil (String.utf8EncodeChar_ne_nil (c := d))
      rw [List.flatMap_cons, hbytes]
      exact List.nil_lt_cons b _
  | cons c cs ih =>
    cases ds with
    | nil => exact absurd hchars (List.not_lt_nil _)
    | cons d ds =>
      rw [List.flatMap_cons, List.flatMap_cons]
      obtain hless | ⟨rfl, hrest⟩ := List.cons_lt_cons_iff.mp hchars
      · exact utf8EncodeChar_append_lt hless _ _
      · exact List.append_left_lt (ih ds hrest)

namespace Table

/-! ## Ascending keys -/

/-- The keys ascend in the order of their bytes, so that none occurs twice. -/
def Ascending (table : Table) : Prop :=
  table.Pairwise fun a b => keyBytes a.1 < keyBytes b.1

variable {table : Table} {key : String} {v : Value}

theorem Ascending.nodup (h : table.Ascending) : (table.map Prod.fst).Nodup := by
  refine List.pairwise_map.mpr (h.imp fun hless hequal => ?_)
  rw [hequal] at hless
  exact List.lt_irrefl _ hless

theorem mem_of_mem_insert {entry : String × Value} (h : entry ∈ insert key v table) :
    entry = (key, v) ∨ entry ∈ table := by
  induction table with
  | nil => exact .inl (List.mem_singleton.mp h)
  | cons first table ih =>
    obtain ⟨k, w⟩ := first
    rw [insert] at h
    split_ifs at h
    · exact List.mem_cons.mp h
    · obtain hself | hrest := List.mem_cons.mp h
      · exact .inl hself
      · exact .inr (List.mem_cons_of_mem _ hrest)
    · obtain hfirst | hrest := List.mem_cons.mp h
      · exact .inr (List.mem_cons.mpr (.inl hfirst))
      · exact (ih hrest).imp_right (List.mem_cons_of_mem _)

theorem ascending_insert (h : table.Ascending) (key : String) (v : Value) :
    (insert key v table).Ascending := by
  induction table with
  | nil => exact List.pairwise_singleton _ _
  | cons first table ih =>
    obtain ⟨k, w⟩ := first
    obtain ⟨hfirst, hrest⟩ := List.pairwise_cons.mp h
    rw [insert]
    split_ifs with hbelow hequal
    · have hkey : keyBytes key < keyBytes k := keyBytes_lt hbelow
      refine List.pairwise_cons.mpr ⟨fun entry hentry => ?_, h⟩
      obtain rfl | hentry := List.mem_cons.mp hentry
      · exact hkey
      · exact List.lt_trans hkey (hfirst entry hentry)
    · subst hequal
      exact List.pairwise_cons.mpr ⟨hfirst, hrest⟩
    · have hkey : keyBytes k < keyBytes key :=
        keyBytes_lt (Std.lt_of_le_of_ne (String.not_lt.mp hbelow) (Ne.symm hequal))
      refine List.pairwise_cons.mpr ⟨fun entry hentry => ?_, ih hrest⟩
      obtain rfl | hentry := mem_of_mem_insert hentry
      · exact hkey
      · exact hfirst entry hentry

theorem ascending_ofEntries (entries : List (String × Value)) :
    (ofEntries entries).Ascending := by
  have hfold : ∀ table : Table, table.Ascending →
      Ascending (entries.foldl (fun table entry => insert entry.1 entry.2 table) table) := by
    induction entries with
    | nil => exact fun table h => h
    | cons entry entries ih => exact fun table h => ih _ (ascending_insert h entry.1 entry.2)
  exact hfold [] .nil

/-! ## Order of fields -/

/-- A new key is put somewhere. -/
theorem perm_insert (hnew : key ∉ table.map Prod.fst) :
    (insert key v table).Perm ((key, v) :: table) := by
  induction table with
  | nil => exact .refl _
  | cons first table ih =>
    obtain ⟨k, w⟩ := first
    obtain ⟨hne, hrest⟩ := not_or.mp (mt List.mem_cons.mpr hnew)
    rw [insert, if_neg (c := key = k) hne]
    split_ifs
    · exact .refl _
    · exact ((ih hrest).cons _).trans (.swap ..)

theorem perm_ofEntries {entries : List (String × Value)} (h : (entries.map Prod.fst).Nodup) :
    (ofEntries entries).Perm entries := by
  have hfold : ∀ table : Table, (entries.map Prod.fst ++ table.map Prod.fst).Nodup →
      (entries.foldl (fun table entry => insert entry.1 entry.2 table) table).Perm
        (entries ++ table) := by
    clear h
    induction entries with
    | nil => exact fun table _ => .refl _
    | cons entry entries ih =>
      intro table hnodup
      obtain ⟨hnew, hrest⟩ := List.nodup_cons.mp hnodup
      have hput : (insert entry.1 entry.2 table).Perm (entry :: table) :=
        perm_insert fun hmem => hnew (List.mem_append_right _ hmem)
      have hkeys : (entries.map Prod.fst ++ (insert entry.1 entry.2 table).map Prod.fst).Nodup :=
        (((hput.map Prod.fst).append_left _).trans List.perm_middle).nodup_iff.mpr
          (List.nodup_cons.mpr ⟨hnew, hrest⟩)
      exact (ih _ hkeys).trans ((hput.append_left entries).trans List.perm_middle)
  have hperm := hfold [] (by rwa [List.map_nil, List.append_nil])
  rwa [List.append_nil] at hperm

/-- The order of fields with different keys does not matter. -/
theorem ofEntries_perm {entries entries' : List (String × Value)} (h : entries.Perm entries')
    (hnodup : (entries.map Prod.fst).Nodup) : ofEntries entries = ofEntries entries' := by
  have hnodup' : (entries'.map Prod.fst).Nodup := (h.map Prod.fst).nodup_iff.mp hnodup
  have hperm : (ofEntries entries).Perm (ofEntries entries') :=
    (perm_ofEntries hnodup).trans (h.trans (perm_ofEntries hnodup').symm)
  refine hperm.eq_of_pairwise (fun a b _ _ hab hba => ?_) (ascending_ofEntries entries)
    (ascending_ofEntries entries')
  exact absurd (List.lt_trans hab hba) (List.lt_irrefl _)

end Table

/-! ## Texts -/

/-- The fields that a text gives its table, in the order of the text. -/
def Document.fieldsOf? (text : String) : Option (List (String × Value)) := do
  let sections ← Section.ofText? text
  let written := sections.filter fun s => !s.header.isEmpty || !s.entries.isEmpty
  fields? (bound written) none written

theorem Table.ofText?_eq (text : String) :
    ofText? text = (Document.fieldsOf? text).map ofEntries := by
  rw [ofText?, Document.fieldsOf?]
  cases Section.ofText? text with
  | none => rfl
  | some sections =>
    show Document.ofSections? sections = _
    rw [Document.ofSections?]
    exact (Option.map_eq_bind ..).symm

theorem Table.ascending_of_ofText? {text : String} {table : Table} (h : ofText? text = some table) :
    table.Ascending := by
  rw [ofText?_eq] at h
  obtain ⟨fields, -, rfl⟩ := Option.map_eq_some_iff.mp h
  exact ascending_ofEntries fields

end EffectsDsp.Toml
