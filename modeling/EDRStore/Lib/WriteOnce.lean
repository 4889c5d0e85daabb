/-
# `EDRStore.Lib.WriteOnce` — maps whose entries are never rewritten

A map that many parties fill is write-once when an entry, once there, keeps its
value (`Keeps`).  Where every value written is also new to the map, what a
reader knows of the values it has not seen is that they are none of those it
has (`Grows`).  Both relations compose, so a step that has them gives them to
every run of such steps.
-/
import EDRStore.Lib.Index

namespace EDRStore.Index

variable {K V : Type}

/-- Every entry of `m` is one of `m'`. -/
def Keeps [DecidableEq K] (m m' : Index K V) : Prop :=
  ∀ k v, m.lookup k = some v → m'.lookup k = some v

/-- `m'` keeps the entries of `m`, and its other entries have values that are in
no entry of `m`. -/
structure Grows [DecidableEq K] (m m' : Index K V) : Prop where
  keeps : Keeps m m'
  fresh : ∀ {k v}, m.lookup k = none → m'.lookup k = some v → ∀ k', m.lookup k' ≠ some v

variable [DecidableEq K] {m m' m'' : Index K V}

theorem Keeps.refl (m : Index K V) : Keeps m m := fun _ _ h => h

theorem Keeps.trans (h : Keeps m m') (h' : Keeps m' m'') : Keeps m m'' :=
  fun k v hk => h' k v (h k v hk)

theorem Grows.refl (m : Index K V) : Grows m m where
  keeps := Keeps.refl m
  fresh := by
    intro k v hn hs
    rw [hn] at hs
    exact nomatch hs

theorem Grows.trans (h : Grows m m') (h' : Grows m' m'') : Grows m m'' where
  keeps := h.keeps.trans h'.keeps
  fresh := by
    intro k v hn hs k' hk'
    cases hm : m'.lookup k with
    | none => exact h'.fresh hm hs k' (h.keeps k' v hk')
    | some w =>
        rw [h'.keeps k w hm] at hs
        cases hs
        exact h.fresh hn hm k' hk'

/-- A new value under keys that have none. -/
theorem grows_insertAll {ks : List K} {v : V} (hks : ∀ k ∈ ks, m.lookup k = none)
    (hv : ∀ k, m.lookup k ≠ some v) : Grows m (m.insertAll ks v) where
  keeps := by
    intro k w hw
    rw [lookup_insertAll, if_neg, hw]
    intro hk
    rw [hks k hk] at hw
    exact nomatch hw
  fresh := by
    intro k w hn hs
    rw [lookup_insertAll] at hs
    split at hs
    · cases hs
      exact hv
    · rw [hn] at hs
      exact nomatch hs

end EDRStore.Index
