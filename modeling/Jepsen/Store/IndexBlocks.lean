/-
# Block indices as blocks

A block index that is written and read again has the same root and the same offsets;
what is reserved is not written.
-/

import Jepsen.Store.Sessions

namespace Jepsen.Store

open Jepsen.Library

/-- A long. -/
def IsLong (n : ℤ) : Prop := -2 ^ 63 ≤ n ∧ n < 2 ^ 63

theorem getInt_putInt {n : ℤ} (hn : IsInt n) : getInt (putInt n) = n := by
  have hbytes : ofBytes (toBytes 4 (BitVec.ofInt 32 n).toNat) = (BitVec.ofInt 32 n).toNat :=
    ofBytes_toBytes (BitVec.ofInt 32 n).isLt
  unfold getInt putInt
  rw [hbytes, BitVec.ofNat_toNat, BitVec.setWidth_eq]
  exact BitVec.toInt_ofInt_eq_self (by decide) hn.1 hn.2

theorem getLong_putLong {n : ℤ} (hn : IsLong n) : getLong (putLong n) = n := by
  have hbytes : ofBytes (toBytes 8 (BitVec.ofInt 64 n).toNat) = (BitVec.ofInt 64 n).toNat :=
    ofBytes_toBytes (BitVec.ofInt 64 n).isLt
  unfold getLong putLong
  rw [hbytes, BitVec.ofNat_toNat, BitVec.setWidth_eq]
  exact BitVec.toInt_ofInt_eq_self (by decide) hn.1 hn.2

@[simp]
theorem length_putInt (n : ℤ) : (putInt n).length = blockIdSize := length_toBytes 4 _

@[simp]
theorem length_putLong (n : ℤ) : (putLong n).length = blockOffsetSize := length_toBytes 8 _

/-! ## Mappings -/

/-- The bytes of some mappings. -/
def mappingData (mappings : List (ℤ × ℤ)) : List Byte :=
  mappings.flatMap fun mapping => putInt mapping.1 ++ putLong mapping.2

/-- The ids that have an offset, with it. -/
def BlockIndex.mappings (index : BlockIndex) : List (ℤ × ℤ) :=
  index.blocks.entries.filterMap fun e => e.2.map fun offset => (e.1, offset)

theorem blockIndexData_eq (index : BlockIndex) :
    blockIndexData index = putInt (index.root.getD 0) ++ mappingData index.mappings := by
  unfold blockIndexData mappingData BlockIndex.mappings
  congr 1
  induction index.blocks.entries with
  | nil => rfl
  | cons e entries ih =>
    obtain ⟨id, offset⟩ := e
    cases offset with
    | none => exact ih
    | some offset =>
      rw [List.flatMap_cons, ih]
      rfl

theorem length_mappingData (mappings : List (ℤ × ℤ)) :
    (mappingData mappings).length = (blockIdSize + blockOffsetSize) * mappings.length := by
  unfold mappingData
  induction mappings with
  | nil => rfl
  | cons mapping mappings ih =>
    rw [List.flatMap_cons, List.length_append, ih, List.length_append, length_putInt,
      length_putLong, List.length_cons]
    ring

theorem readMappings_mappingData {mappings : List (ℤ × ℤ)}
    (hmappings : ∀ mapping ∈ mappings, IsInt mapping.1 ∧ IsLong mapping.2) {n : ℕ}
    (hn : mappings.length ≤ n) : readMappings n (mappingData mappings) = some mappings := by
  induction mappings generalizing n with
  | nil =>
    cases n with
    | zero => rfl
    | succ n => rfl
  | cons mapping mappings ih =>
    rw [List.forall_mem_cons] at hmappings
    cases n with
    | zero => exact absurd hn (by simp)
    | succ n =>
      have hdata : mappingData (mapping :: mappings) =
          putInt mapping.1 ++ (putLong mapping.2 ++ mappingData mappings) := by
        unfold mappingData
        rw [List.flatMap_cons, List.append_assoc]
      have hid : (putInt mapping.1 ++ (putLong mapping.2 ++ mappingData mappings)).take blockIdSize
          = putInt mapping.1 := List.take_left' (length_putInt _)
      have hafter : (putInt mapping.1 ++ (putLong mapping.2 ++ mappingData mappings)).drop
          blockIdSize = putLong mapping.2 ++ mappingData mappings :=
        List.drop_left' (length_putInt _)
      have hoffset : (putLong mapping.2 ++ mappingData mappings).take blockOffsetSize =
          putLong mapping.2 := List.take_left' (length_putLong _)
      have hrest : (putInt mapping.1 ++ (putLong mapping.2 ++ mappingData mappings)).drop
          (blockIdSize + blockOffsetSize) = mappingData mappings := by
        rw [← List.drop_drop, hafter]
        exact List.drop_left' (length_putLong _)
      have hlong : ¬ (putInt mapping.1 ++ (putLong mapping.2 ++ mappingData mappings)).length <
          blockIdSize + blockOffsetSize := by
        rw [List.length_append, List.length_append, length_putInt, length_putLong]
        omega
      have hne : putInt mapping.1 ++ (putLong mapping.2 ++ mappingData mappings) ≠ [] := by
        intro hnil
        rw [hnil] at hlong
        exact hlong (by decide)
      rw [hdata]
      cases hall : putInt mapping.1 ++ (putLong mapping.2 ++ mappingData mappings) with
      | nil => exact absurd hall hne
      | cons b bytes =>
        rw [hall] at hid hafter hrest hlong
        unfold readMappings
        rw [if_neg hlong, hid, hafter, hoffset, hrest,
          ih hmappings.2 (Nat.le_of_succ_le_succ hn), getInt_putInt hmappings.1.1,
          getLong_putLong hmappings.1.2, Option.map_some]

/-! ## The index that is read -/

theorem lookup_insertMappings_of_notMem {mappings : List (ℤ × ℤ)} {id : ℤ}
    (hid : ∀ offset, (id, offset) ∉ mappings) (blocks : Assoc ℤ (Option ℤ)) :
    (mappings.foldl (fun blocks p => blocks.insert p.1 (some p.2)) blocks).lookup id =
      blocks.lookup id := by
  induction mappings generalizing blocks with
  | nil => rfl
  | cons mapping mappings ih =>
    have hne : id ≠ mapping.1 := by
      rintro rfl
      exact hid mapping.2 List.mem_cons_self
    rw [List.foldl_cons, ih (fun offset hmem => hid offset (List.mem_cons_of_mem _ hmem)),
      AList.lookup_insert_ne hne]

theorem lookup_insertMappings {mappings : List (ℤ × ℤ)} (hnodup : (mappings.map Prod.fst).Nodup)
    {id offset : ℤ} (hmem : (id, offset) ∈ mappings) (blocks : Assoc ℤ (Option ℤ)) :
    (mappings.foldl (fun blocks p => blocks.insert p.1 (some p.2)) blocks).lookup id =
      some (some offset) := by
  induction mappings generalizing blocks with
  | nil => exact absurd hmem List.not_mem_nil
  | cons mapping mappings ih =>
    rw [List.map_cons, List.nodup_cons] at hnodup
    rw [List.foldl_cons]
    cases List.mem_cons.mp hmem with
    | inl heq =>
      subst heq
      have hnone : ∀ other, (id, other) ∉ mappings := fun other hother =>
        hnodup.1 (List.mem_map.mpr ⟨(id, other), hother, rfl⟩)
      rw [lookup_insertMappings_of_notMem hnone, AList.lookup_insert]
    | inr hlater => exact ih hnodup.2 hlater _

theorem mem_mappings {index : BlockIndex} {id offset : ℤ} :
    (id, offset) ∈ index.mappings ↔ index.blocks.lookup id = some (some offset) := by
  unfold BlockIndex.mappings
  rw [List.mem_filterMap]
  constructor
  · rintro ⟨⟨id', offset'⟩, hmem, heq⟩
    cases offset' with
    | none => cases heq
    | some offset' =>
      cases heq
      exact Assoc.mem_entries_iff.mp hmem
  · intro hlookup
    exact ⟨⟨id, some offset⟩, Assoc.mem_entries_iff.mpr hlookup, rfl⟩

theorem nodup_mappings (index : BlockIndex) : (index.mappings.map Prod.fst).Nodup := by
  have hsub : (index.mappings.map Prod.fst).Sublist (index.blocks.entries.map Sigma.fst) := by
    unfold BlockIndex.mappings
    induction index.blocks.entries with
    | nil => exact List.Sublist.refl _
    | cons e entries ih =>
      obtain ⟨id, offset⟩ := e
      cases offset with
      | none => exact ih.cons id
      | some offset => exact ih.cons_cons id
  exact hsub.nodup (Assoc.keys_nodup index.blocks)

theorem length_mappings_le (index : BlockIndex) :
    index.mappings.length ≤ index.blocks.entries.length := List.length_filterMap_le _ _

theorem length_blockIndexData (index : BlockIndex) :
    (blockIndexData index).length =
      blockIdSize + (blockIdSize + blockOffsetSize) * index.mappings.length := by
  rw [blockIndexData_eq, List.length_append, length_putInt, length_mappingData]

/-- An index block fits if its index does. -/
theorem length_blockIndexData_lt {index : BlockIndex} (hfits : index.Fits) :
    (blockIndexData index).length < 2 ^ 31 := by
  have hle := Nat.mul_le_mul_left (blockIdSize + blockOffsetSize) (length_mappings_le index)
  have hsize := hfits.size
  rw [length_blockIndexData]
  omega

/-- An index that is written and read has the same root, and the same offsets. -/
theorem readBlockIndexBlock_blockIndexData {index : BlockIndex} (hfits : index.Fits)
    (hoffsets : ∀ id offset, index.blocks.lookup id = some (some offset) → IsLong offset) :
    ∃ index', readBlockIndexBlock (blockIndexData index) = some index' ∧
      index'.root = index.root ∧
      ∀ id, index'.blocks.lookup id =
        (index.blocks.lookup id).bind fun offset => offset.map some := by
  have hmappings : ∀ mapping ∈ index.mappings, IsInt mapping.1 ∧ IsLong mapping.2 := by
    intro mapping hmem
    have hlookup := mem_mappings.mp hmem
    refine ⟨hfits.ids _ ?_, hoffsets _ _ hlookup⟩
    apply AList.mem_keys.mp
    rw [← AList.lookup_isSome, hlookup]
    rfl
  have hroot : getInt (putInt (index.root.getD 0)) = index.root.getD 0 := by
    apply getInt_putInt
    cases hroot : index.root with
    | none => exact ⟨by decide, by decide⟩
    | some root => exact (hfits.root root hroot).1
  have hdata := blockIndexData_eq index
  have hlong : ¬ (blockIndexData index).length < blockIdSize := by
    rw [length_blockIndexData]
    omega
  have htake : (blockIndexData index).take blockIdSize = putInt (index.root.getD 0) := by
    rw [hdata]
    exact List.take_left' (length_putInt _)
  have hdrop : (blockIndexData index).drop blockIdSize = mappingData index.mappings := by
    rw [hdata]
    exact List.drop_left' (length_putInt _)
  have hfuel : index.mappings.length ≤ (blockIndexData index).length := by
    have hsize : blockIdSize + blockOffsetSize = 12 := rfl
    rw [length_blockIndexData, hsize]
    omega
  have hread : readBlockIndexBlock (blockIndexData index) =
      some
        { root := if index.root.getD 0 = 0 then none else some (index.root.getD 0)
          blocks :=
            index.mappings.foldl (fun blocks p => blocks.insert p.1 (some p.2)) ∅ } := by
    unfold readBlockIndexBlock
    rw [if_neg hlong]
    dsimp only
    rw [htake, hdrop, hroot, readMappings_mappingData hmappings hfuel, Option.map_some]
  refine ⟨_, hread, ?_, ?_⟩
  · dsimp only
    cases hroot : index.root with
    | none => rfl
    | some root => exact if_neg (hfits.root root hroot).2
  · intro id
    dsimp only
    cases hlookup : index.blocks.lookup id with
    | none =>
      refine lookup_insertMappings_of_notMem (fun offset hmem => ?_) _
      rw [mem_mappings, hlookup] at hmem
      cases hmem
    | some offset =>
      cases offset with
      | none =>
        refine lookup_insertMappings_of_notMem (fun offset hmem => ?_) _
        rw [mem_mappings, hlookup] at hmem
        cases hmem
      | some offset =>
        exact lookup_insertMappings (nodup_mappings index) (mem_mappings.mpr hlookup) _

end Jepsen.Store
