import SpSync.Construction.Core.KeyStorage
import SpSync.Foundation.Selection

namespace SpSync.KeyStorage

open Foundation

theorem foldl_insert_spec (keys : List EncryptionKey) (storage : KeyStorage) (distinct : storage.keys.Nodup) :
    (keys.foldl insert storage).keys.Nodup ∧
      ∀ key, key ∈ (keys.foldl insert storage).keys ↔ key ∈ storage.keys ∨ key ∈ keys := by
  induction keys generalizing storage with
  | nil => simpa using distinct
  | cons key rest ih =>
    have one : (storage.insert key).keys.Nodup ∧
        ∀ other, other ∈ (storage.insert key).keys ↔ other ∈ storage.keys ∨ other = key := by
      unfold insert
      split <;> grind [EncryptionKey]
    grind [ih _ one.1]

theorem ranks_precedes : Selection.Ranks fun left right => precedes left right = true where
  total left right := by grind [precedes, le_total left.key right.key]
  trans left middle right := by grind [precedes]

/-- The keys of a sequence and the current key do not depend on the order in which the keys came, nor on how often. -/
theorem findAll_foldl_insert {keys others : List EncryptionKey} (same : ∀ key, key ∈ keys ↔ key ∈ others)
    (sequence : SequenceNumber) :
    (keys.foldl insert {}).findAll sequence = (others.foldl insert {}).findAll sequence ∧
      (keys.foldl insert {}).currentKey = (others.foldl insert {}).currentKey := by
  obtain ⟨distinct, inside⟩ := foldl_insert_spec keys {} .nil
  obtain ⟨othersDistinct, othersInside⟩ := foldl_insert_spec others {} .nil
  have perm : (keys.foldl insert {}).keys.Perm (others.foldl insert {}).keys :=
    (List.perm_ext_iff_of_nodup distinct othersDistinct).mpr fun key => by rw [inside, othersInside, same]
  have all (sequence : SequenceNumber) :
      (keys.foldl insert {}).findAll sequence = (others.foldl insert {}).findAll sequence := by
    refine Selection.inOrder_eq_of_perm ranks_precedes ?_ (perm.filter _)
    grind [Selection.Strict, precedes, EncryptionKey]
  have last : (keys.foldl insert {}).lastSeq = (others.foldl insert {}).lastSeq :=
    perm.foldl_eq' (by grind) 0
  exact ⟨all sequence, by rw [currentKey, currentKey, last, all]⟩

theorem findAll_foldl_insert_two :
    ([⟨2, [7]⟩, ⟨2, [3]⟩].foldl insert {}).currentKey = ([⟨2, [3]⟩, ⟨2, [7]⟩].foldl insert {}).currentKey :=
  (findAll_foldl_insert (by simp [or_comm]) 2).2

end SpSync.KeyStorage
