/-
# `EDRStore.Lib.Fibre` — how many keys of a map have a given value

The reference count of a value is the number of keys mapped to it.  Erasing a
key takes one from the count of its value, entering new keys under a value adds
as many as there are different ones among them, and nothing else changes.
-/
import EDRStore.Lib.Index
import Mathlib.Data.Finset.Card

namespace EDRStore

namespace Index

variable {K V : Type} [DecidableEq K] [DecidableEq V] {m : Index K V} {v w : V} {k : K}

/-- The keys mapped to `v`. -/
def fibre (m : Index K V) (v : V) : Finset K := m.keys.filter fun k => m.lookup k = some v

/-- The reference count of `v`. -/
def refs (m : Index K V) (v : V) : Nat := (m.fibre v).card

theorem mem_fibre : k ∈ m.fibre v ↔ m.lookup k = some v := by
  unfold fibre
  rw [Finset.mem_filter, Finmap.mem_keys]
  exact ⟨And.right, fun h => ⟨mem_of_lookup h, h⟩⟩

theorem refs_pos : 0 < m.refs v ↔ ∃ k, m.lookup k = some v := by
  unfold refs
  rw [Finset.card_pos]
  exact ⟨fun ⟨k, hk⟩ => ⟨k, mem_fibre.mp hk⟩, fun ⟨k, hk⟩ => ⟨k, mem_fibre.mpr hk⟩⟩

@[simp] theorem refs_empty : (∅ : Index K V).refs v = 0 := by
  unfold refs
  rw [Finset.card_eq_zero, Finset.eq_empty_iff_forall_notMem]
  intro k hk
  rw [mem_fibre, Finmap.lookup_empty] at hk
  exact nomatch hk

/-- Erasing a key of `v` takes it from the count. -/
theorem refs_erase_self (h : m.lookup k = some v) : refs (m.erase k) v + 1 = m.refs v := by
  have heq : fibre (m.erase k) v = (m.fibre v).erase k := by
    ext j
    rw [mem_fibre, lookup_erase_ite, Finset.mem_erase, mem_fibre]
    by_cases hj : j = k <;> simp [hj]
  unfold refs
  rw [heq, Finset.card_erase_add_one (mem_fibre.mpr h)]

theorem refs_erase_of_ne (h : m.lookup k = some v) (hw : w ≠ v) :
    refs (m.erase k) w = m.refs w := by
  have heq : fibre (m.erase k) w = m.fibre w := by
    ext j
    rw [mem_fibre, lookup_erase_ite, mem_fibre]
    by_cases hj : j = k
    · rw [hj, h]
      simp [hw.symm]
    · simp [hj]
  unfold refs
  rw [heq]

/-- New keys add to the count of their value, each once. -/
theorem refs_insertAll_self {ks : List K} (h : ∀ k ∈ ks, m.lookup k = none) :
    (m.insertAll ks v).refs v = m.refs v + ks.toFinset.card := by
  have heq : (m.insertAll ks v).fibre v = m.fibre v ∪ ks.toFinset := by
    ext j
    rw [mem_fibre, lookup_insertAll, Finset.mem_union, mem_fibre, List.mem_toFinset]
    by_cases hj : j ∈ ks <;> simp [hj]
  have hdis : Disjoint (m.fibre v) ks.toFinset := by
    rw [Finset.disjoint_left]
    intro j hj hks
    rw [mem_fibre, h j (List.mem_toFinset.mp hks)] at hj
    exact nomatch hj
  unfold refs
  rw [heq, Finset.card_union_of_disjoint hdis]

theorem refs_insertAll_of_ne {ks : List K} (h : ∀ k ∈ ks, m.lookup k = none) (hw : w ≠ v) :
    (m.insertAll ks v).refs w = m.refs w := by
  have heq : (m.insertAll ks v).fibre w = m.fibre w := by
    ext j
    rw [mem_fibre, lookup_insertAll, mem_fibre]
    by_cases hj : j ∈ ks
    · simp [hj, h j hj, hw.symm]
    · simp [hj]
  unfold refs
  rw [heq]

end Index

end EDRStore
