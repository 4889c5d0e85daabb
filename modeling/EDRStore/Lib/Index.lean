/-
# `EDRStore.Lib.Index` — finite maps with bulk updates

A store keeps its bookkeeping in finite maps: one value per key, extensional,
so that two histories that leave the same entries leave the same map.  Mathlib
has the type (`Finmap`) with single-key `insert`, `erase` and `lookup`; what a
store also does is update many keys in one loop, drop the entries that fail a
test, and write the map out in whatever order its iterator gives and read it
back.  These are the operations below, each with the one lookup equation the
rest of a development reasons by.
-/
import Mathlib.Data.Finmap

namespace EDRStore

/-- A finite map from keys to values. -/
abbrev Index (K V : Type) := Finmap (fun _ : K => V)

namespace Index

variable {K V : Type} [DecidableEq K]

theorem lookup_insert_ite (m : Index K V) (a k : K) (v : V) :
    (m.insert a v).lookup k = if k = a then some v else m.lookup k := by
  by_cases h : k = a
  · subst h; simp
  · rw [if_neg h, Finmap.lookup_insert_of_ne _ h]

theorem lookup_erase_ite (m : Index K V) (a k : K) :
    (m.erase a).lookup k = if k = a then none else m.lookup k := by
  by_cases h : k = a
  · subst h; simp
  · rw [if_neg h, Finmap.lookup_erase_ne h]

theorem mem_iff_lookup {m : Index K V} {k : K} : k ∈ m ↔ ∃ v, m.lookup k = some v :=
  Finmap.mem_iff

theorem lookup_isSome_of_mem {m : Index K V} {k : K} (h : k ∈ m) : ∃ v, m.lookup k = some v :=
  Finmap.mem_iff.mp h

theorem mem_of_lookup {m : Index K V} {k : K} {v : V} (h : m.lookup k = some v) : k ∈ m :=
  Finmap.mem_of_lookup_eq_some h

/-! ## Writing one value under many keys -/

/-- `m[k] = v` for every `k` of the list, in order. -/
def insertAll (m : Index K V) (ks : List K) (v : V) : Index K V :=
  ks.foldl (fun m k => m.insert k v) m

@[simp] theorem insertAll_nil (m : Index K V) (v : V) : insertAll m [] v = m := rfl

@[simp] theorem insertAll_cons (m : Index K V) (k : K) (ks : List K) (v : V) :
    insertAll m (k :: ks) v = insertAll (m.insert k v) ks v := rfl

theorem lookup_insertAll (ks : List K) (v : V) (k : K) :
    ∀ m : Index K V, (insertAll m ks v).lookup k = if k ∈ ks then some v else m.lookup k := by
  induction ks with
  | nil => intro m; simp
  | cons a ks ih =>
      intro m
      rw [insertAll_cons, ih, lookup_insert_ite]
      by_cases hk : k ∈ ks
      · simp [hk]
      · by_cases ha : k = a <;> simp [hk, ha]

theorem mem_insertAll {m : Index K V} {ks : List K} {v : V} {k : K} :
    k ∈ insertAll m ks v ↔ k ∈ ks ∨ k ∈ m := by
  simp only [mem_iff_lookup, lookup_insertAll]
  by_cases hk : k ∈ ks <;> simp [hk]

/-! ## Dropping the entries that fail a test -/

/-- The entries of `m` that pass `p`. -/
def filter (p : K → V → Bool) (m : Index K V) : Index K V where
  entries := m.entries.filter (fun e => p e.1 e.2)
  nodupKeys := by
    have h := Multiset.nodup_keys.mpr m.nodupKeys
    refine Multiset.nodup_keys.mp (Multiset.nodup_of_le ?_ h)
    exact Multiset.map_le_map (Multiset.filter_le _ _)

theorem lookup_filter (p : K → V → Bool) (m : Index K V) (k : K) :
    (filter p m).lookup k = (m.lookup k).filter (p k) := by
  have key : ∀ v, (filter p m).lookup k = some v ↔ m.lookup k = some v ∧ p k v = true := by
    intro v
    rw [Finmap.lookup_eq_some_iff, Finmap.lookup_eq_some_iff]
    simp [filter]
  ext v
  rw [key v]
  cases h : m.lookup k with
  | none => simp
  | some w =>
      simp only [Option.some.injEq, Option.filter_some]
      by_cases hp : p k w = true
      · simp only [hp, if_true, Option.some.injEq, and_iff_left_iff_imp]
        rintro rfl; exact hp
      · simp only [hp, if_false, reduceCtorEq, iff_false, not_and]
        rintro rfl; exact hp

/-! ## Writing a map out and reading it back -/

/-- Inserting the listed entries, in order, into `m`. -/
def insertList (m : Index K V) (l : List (K × V)) : Index K V :=
  l.foldl (fun m e => m.insert e.1 e.2) m

/-- `l` is the map `m` written out in some iteration order. -/
def Lists (m : Index K V) (l : List (K × V)) : Prop :=
  ((l.map fun e => (⟨e.1, e.2⟩ : Sigma fun _ : K => V) : List _) : Multiset _) = m.entries

instance [DecidableEq V] (m : Index K V) (l : List (K × V)) : Decidable (Lists m l) :=
  inferInstanceAs (Decidable (_ = _))

/-- The map with the entries listed. -/
def ofList (l : List (K × V)) (h : (l.map Prod.fst).Nodup) : Index K V where
  entries := ((l.map fun e => (⟨e.1, e.2⟩ : Sigma fun _ : K => V) : List _) : Multiset _)
  nodupKeys := by
    rw [Multiset.coe_nodupKeys]
    have hkeys : (l.map fun e => (⟨e.1, e.2⟩ : Sigma fun _ : K => V)).keys = l.map Prod.fst := by
      simp [List.keys, Function.comp_def]
    rw [List.NodupKeys, hkeys]
    exact h

omit [DecidableEq K] in
theorem lists_ofList {l : List (K × V)} (h : (l.map Prod.fst).Nodup) : Lists (ofList l h) l := rfl

omit [DecidableEq K] in
/-- Every map can be written out. -/
theorem exists_lists (m : Index K V) : ∃ l, Lists m l := by
  obtain ⟨l, hl⟩ := Quot.exists_rep m.entries
  refine ⟨l.map fun e => (e.1, e.2), ?_⟩
  rw [Lists, List.map_map, ← hl]
  exact congrArg _ (List.map_id l)

theorem Lists.mem_iff {m : Index K V} {l : List (K × V)} (h : Lists m l) {k : K} {v : V} :
    (k, v) ∈ l ↔ m.lookup k = some v := by
  rw [Finmap.lookup_eq_some_iff, ← h, Multiset.mem_coe, List.mem_map]
  constructor
  · intro hm; exact ⟨(k, v), hm, rfl⟩
  · rintro ⟨e, he, heq⟩
    cases e; cases heq; exact he

omit [DecidableEq K] in
theorem Lists.nodup {m : Index K V} {l : List (K × V)} (h : Lists m l) :
    (l.map Prod.fst).Nodup := by
  have hk := m.nodupKeys
  rw [← h, Multiset.coe_nodupKeys] at hk
  have : (l.map fun e => (⟨e.1, e.2⟩ : Sigma fun _ : K => V)).keys = l.map Prod.fst := by
    simp [List.keys, Function.comp_def]
  rw [← this]
  exact hk

theorem lookup_insertList_of_notMem (k : K) (l : List (K × V)) :
    ∀ m : Index K V, k ∉ l.map Prod.fst → (insertList m l).lookup k = m.lookup k := by
  induction l with
  | nil => intro m _; rfl
  | cons e l ih =>
      intro m hk
      simp only [List.map_cons, List.mem_cons, not_or] at hk
      show (insertList (m.insert e.1 e.2) l).lookup k = _
      rw [ih _ hk.2, lookup_insert_ite, if_neg hk.1]

theorem lookup_insertList_of_mem {k : K} {v : V} (l : List (K × V)) :
    ∀ m : Index K V, (l.map Prod.fst).Nodup → (k, v) ∈ l →
      (insertList m l).lookup k = some v := by
  induction l with
  | nil => intro m _ h; exact absurd h List.not_mem_nil
  | cons e l ih =>
      intro m hnd hmem
      simp only [List.map_cons, List.nodup_cons] at hnd
      show (insertList (m.insert e.1 e.2) l).lookup k = _
      rcases List.mem_cons.mp hmem with rfl | hl
      · rw [lookup_insertList_of_notMem _ _ _ hnd.1, lookup_insert_ite, if_pos rfl]
      · exact ih _ hnd.2 hl

theorem mem_insertList {k : K} (l : List (K × V)) :
    ∀ {m : Index K V}, k ∈ insertList m l ↔ k ∈ l.map Prod.fst ∨ k ∈ m := by
  induction l with
  | nil => intro m; simp [insertList]
  | cons e l ih =>
      intro m
      show k ∈ insertList (m.insert e.1 e.2) l ↔ _
      rw [ih, Finmap.mem_insert, List.map_cons, List.mem_cons]
      tauto

/-- The keys written out are those of the map. -/
theorem Lists.mem_keys {m : Index K V} {l : List (K × V)} (h : Lists m l) {k : K} :
    k ∈ l.map Prod.fst ↔ k ∈ m := by
  rw [mem_iff_lookup]
  constructor
  · intro hk
    obtain ⟨⟨k', v⟩, he, rfl⟩ := List.mem_map.mp hk
    exact ⟨v, h.mem_iff.mp he⟩
  · rintro ⟨v, hv⟩
    exact List.mem_map.mpr ⟨(k, v), h.mem_iff.mpr hv, rfl⟩

/-- Reading back what was written gives the map again, in any order. -/
theorem insertList_of_lists {m : Index K V} {l : List (K × V)} (h : Lists m l) :
    insertList ∅ l = m := by
  apply Finmap.ext_lookup
  intro k
  cases hk : m.lookup k with
  | some v => exact lookup_insertList_of_mem l ∅ h.nodup (h.mem_iff.mpr hk)
  | none =>
      have hn : k ∉ l.map Prod.fst := by
        intro hm
        obtain ⟨⟨k', v⟩, he, rfl⟩ := List.mem_map.mp hm
        rw [h.mem_iff.mp he] at hk
        exact absurd hk (by simp)
      rw [lookup_insertList_of_notMem _ _ _ hn, Finmap.lookup_empty]

theorem eq_empty_of_lists_nil {m : Index K V} (h : Lists m []) : m = ∅ :=
  (insertList_of_lists h).symm

theorem eq_empty_of_keys {m : Index K V} (h : ∀ k, k ∉ m) : m = ∅ := by
  apply Finmap.ext_lookup
  intro k
  rw [Finmap.lookup_eq_none.mpr (h k), Finmap.lookup_empty]

theorem card_keys_eq_zero {m : Index K V} : m.keys.card = 0 ↔ m = ∅ := by
  rw [Finset.card_eq_zero]
  constructor
  · intro h
    refine eq_empty_of_keys fun k hk => ?_
    rw [← Finmap.mem_keys, h] at hk
    exact absurd hk (Finset.notMem_empty k)
  · rintro rfl; exact Finmap.keys_empty

/-! ## Maps with no entry of their own -/

/-- Every entry of `m` is one of `m'`. -/
def Sub (m m' : Index K V) : Prop := ∀ k v, m.lookup k = some v → m'.lookup k = some v

/-- The entries of a list that no later one overwrites are entries of `m`. -/
def LastIn (m : Index K V) : List (K × V) → Prop
  | [] => True
  | e :: l => (m.lookup e.1 = some e.2 ∨ e.1 ∈ l.map Prod.fst) ∧ LastIn m l

/-- Inserting a list leads to nothing new just when its last entries are old, and
what it does not touch was. -/
theorem insertList_sub_iff {m : Index K V} (l : List (K × V)) :
    ∀ {n : Index K V}, Sub (insertList n l) m ↔
      (∀ k v, k ∉ l.map Prod.fst → n.lookup k = some v → m.lookup k = some v) ∧ LastIn m l := by
  induction l with
  | nil => intro n; simp [Sub, insertList, LastIn]
  | cons e l ih =>
      intro n
      show Sub (insertList (n.insert e.1 e.2) l) m ↔ _
      rw [ih, LastIn, ← and_assoc]
      refine and_congr_left fun _ => ?_
      constructor
      · intro h
        refine ⟨fun k v hk hv => ?_, ?_⟩
        · rw [List.map_cons, List.mem_cons, not_or] at hk
          refine h k v hk.2 ?_
          rw [lookup_insert_ite, if_neg hk.1, hv]
        · by_cases he : e.1 ∈ l.map Prod.fst
          · exact Or.inr he
          · refine Or.inl (h e.1 e.2 he ?_)
            rw [lookup_insert_ite, if_pos rfl]
      · rintro ⟨hold, hhead⟩ k v hk hv
        rw [lookup_insert_ite] at hv
        by_cases hke : k = e.1
        · subst hke
          rw [if_pos rfl, Option.some.injEq] at hv
          rw [← hv]
          exact hhead.resolve_right hk
        · rw [if_neg hke] at hv
          refine hold k v ?_ hv
          rw [List.map_cons, List.mem_cons, not_or]
          exact ⟨hke, hk⟩

/-- From the empty map, only the list counts. -/
theorem insertList_empty_sub_iff {m : Index K V} {l : List (K × V)} :
    Sub (insertList ∅ l) m ↔ LastIn m l := by
  rw [insertList_sub_iff, and_iff_right]
  intro k v _ hv
  rw [Finmap.lookup_empty] at hv
  exact nomatch hv

end Index

end EDRStore
