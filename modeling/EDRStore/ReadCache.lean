/-
# `EDRStore.ReadCache` — the LRU-cached container copies

`lru11::Cache` (`lruCache.h`) orders the cached names by last use;
`ReadCache` (`readCache.cc`) maps each to one slot of a fixed pool of buffers
and recycles the slot of the name it evicts.

What the read path relies on is that the cache is a partial map from names to
contents (`ReadCache.contents`): a read does not change it, an insertion of an
absent name adds that name and may drop another (`contents_insert`).  `Wf` is
the slot bookkeeping behind it.
-/
import EDRStore.Data
import Mathlib.Data.List.Nodup

namespace EDRStore

/-- `lru11::Cache<string, uint32_t>`; `keys` runs from the most to the least
recently used. -/
structure LruCache where
  keys : List (ContainerId × Nat)
  maxSize : Nat
  elasticity : Nat
deriving DecidableEq

namespace LruCache

def size (c : LruCache) : Nat := c.keys.length

def find (c : LruCache) (k : ContainerId) : Option (ContainerId × Nat) :=
  c.keys.find? (fun e => e.1 = k)

def contains (c : LruCache) (k : ContainerId) : Bool := (c.find k).isSome

/-- The entry of `k` taken out of its place. -/
def others (c : LruCache) (k : ContainerId) : List (ContainerId × Nat) :=
  c.keys.eraseP (fun e => e.1 = k)

/-- Drops the least recently used entries beyond `maxSize`. -/
def prune (c : LruCache) : LruCache :=
  if c.maxSize = 0 ∨ c.size < c.maxSize + c.elasticity then c
  else { c with keys := c.keys.take c.maxSize }

def insert (c : LruCache) (k : ContainerId) (v : Nat) : LruCache :=
  if c.contains k then { c with keys := (k, v) :: c.others k }
  else prune { c with keys := (k, v) :: c.keys }

/-- The value of `k`, now the most recently used; `none` is `KeyNotFound`. -/
def get (c : LruCache) (k : ContainerId) : Option (Nat × LruCache) :=
  match c.find k with
  | some e => some (e.2, { c with keys := e :: c.others k })
  | none => none

/-- The value of the least recently used key. -/
def pruneValue (c : LruCache) : Option Nat := c.keys.getLast?.map Prod.snd

end LruCache

/-- `ReadCache`. -/
structure ReadCache where
  cacheSize : Nat
  itemSize : Nat
  readCache : LruCache
  containerPool : List Bytes
  currentIndex : Nat
deriving DecidableEq

namespace ReadCache

/-- The constructor; the pool starts unassigned. -/
def new (itemNum itemSize : Nat) : ReadCache where
  cacheSize := itemNum
  itemSize := itemSize
  readCache := { keys := [], maxSize := itemNum, elasticity := 0 }
  containerPool := List.replicate itemNum []
  currentIndex := 0

/-- `memset` to zero, then `memcpy`. -/
def fill (c : ReadCache) (data : Bytes) : Bytes :=
  data ++ List.replicate (c.itemSize - data.length) 0

/-- `ReadCache::Insert`. -/
def insert (c : ReadCache) (name : ContainerId) (data : Bytes) : ReadCache :=
  if c.readCache.size + 1 > c.cacheSize then
    match c.readCache.pruneValue with
    | some replaceIndex =>
        { c with
          containerPool := c.containerPool.set replaceIndex (c.fill data)
          readCache := c.readCache.insert name replaceIndex }
    | none => c
  else
    { c with
      containerPool := c.containerPool.set c.currentIndex (c.fill data)
      readCache := c.readCache.insert name c.currentIndex
      currentIndex := c.currentIndex + 1 }

/-- `ReadCache::Exist`. -/
def exist (c : ReadCache) (name : ContainerId) : Bool := c.readCache.contains name

/-- `ReadCache::Read`: the slot's buffer. -/
def read (c : ReadCache) (name : ContainerId) : Option (Bytes × ReadCache) :=
  match c.readCache.get name with
  | some (index, lru) => some (c.containerPool.getD index [], { c with readCache := lru })
  | none => none

/-! ## The slot bookkeeping -/

/-- Live names own pairwise distinct slots below `currentIndex`. -/
structure Wf (c : ReadCache) : Prop where
  cap : 0 < c.cacheSize
  maxSize : c.readCache.maxSize = c.cacheSize
  elasticity : c.readCache.elasticity = 0
  pool : c.containerPool.length = c.cacheSize
  size : c.readCache.keys.length = c.currentIndex
  bound : c.currentIndex ≤ c.cacheSize
  names : (c.readCache.keys.map Prod.fst).Nodup
  slots : (c.readCache.keys.map Prod.snd).Nodup
  slotLt : ∀ e ∈ c.readCache.keys, e.2 < c.currentIndex

theorem wf_new {n m : Nat} (hn : 0 < n) : Wf (new n m) := by
  constructor <;> simp [new, hn]

/-- What the cache holds for a name. -/
def contents (c : ReadCache) (k : ContainerId) : Option Bytes :=
  (c.readCache.find k).map fun e => c.containerPool.getD e.2 []

theorem exist_iff {c : ReadCache} {k : ContainerId} :
    c.exist k = true ↔ ∃ d, c.contents k = some d := by
  unfold exist LruCache.contains contents
  cases c.readCache.find k with
  | none => simp
  | some e => simp

theorem not_exist_iff {c : ReadCache} {k : ContainerId} :
    c.exist k = false ↔ c.contents k = none := by
  unfold exist LruCache.contains contents
  cases c.readCache.find k with
  | none => simp
  | some e => simp

theorem contents_new (n m : Nat) (k : ContainerId) : (new n m).contents k = none := rfl

end ReadCache

/-! ## Searching the key list -/

theorem LruCache.find_eq_some {c : LruCache} (hn : (c.keys.map Prod.fst).Nodup)
    {k : ContainerId} {v : Nat} : c.find k = some (k, v) ↔ (k, v) ∈ c.keys := by
  unfold LruCache.find
  generalize c.keys = l at hn
  induction l with
  | nil => simp
  | cons e l ih =>
      simp only [List.map_cons, List.nodup_cons] at hn
      obtain ⟨a, b⟩ := e
      by_cases ha : a = k
      · subst ha
        have hno : (a, v) ∉ l := fun h => hn.1 (List.mem_map.mpr ⟨_, h, rfl⟩)
        simp [hno, eq_comm]
      · rw [List.find?_cons_of_neg (by simpa using ha), ih hn.2]
        simp [Ne.symm ha]

theorem LruCache.find_key {c : LruCache} {k : ContainerId} {e : ContainerId × Nat}
    (h : c.find k = some e) : e.1 = k := by
  simpa using List.find?_some h

theorem LruCache.mem_of_find {c : LruCache} {k : ContainerId} {e : ContainerId × Nat}
    (h : c.find k = some e) : e ∈ c.keys := List.mem_of_find?_eq_some h

/-- Moving the entry of `k` to the front is a permutation of the list. -/
theorem LruCache.perm_others {c : LruCache} {k : ContainerId} {e : ContainerId × Nat}
    (h : c.find k = some e) : (e :: c.others k).Perm c.keys := by
  unfold LruCache.find at h
  unfold LruCache.others
  generalize c.keys = l at h
  induction l with
  | nil => simp at h
  | cons a l ih =>
      by_cases ha : a.1 = k
      · rw [List.find?_cons_of_pos (by simpa using ha)] at h
        cases h
        rw [List.eraseP_cons_of_pos (by simpa using ha)]
      · rw [List.find?_cons_of_neg (by simpa using ha)] at h
        rw [List.eraseP_cons_of_neg (by simpa using ha)]
        exact (List.Perm.swap a e _).trans ((ih h).cons a)

/-- Two key lists with the same entries are searched alike. -/
theorem LruCache.find_congr {c c' : LruCache} (hn : (c.keys.map Prod.fst).Nodup)
    (hp : c'.keys.Perm c.keys) (k : ContainerId) : c'.find k = c.find k := by
  have hn' : (c'.keys.map Prod.fst).Nodup := (hp.map Prod.fst).nodup_iff.mpr hn
  apply Option.ext
  rintro ⟨a, v⟩
  constructor
  · intro h
    have ha : a = k := LruCache.find_key h
    subst ha
    exact (LruCache.find_eq_some hn).mpr (hp.mem_iff.mp ((LruCache.find_eq_some hn').mp h))
  · intro h
    have ha : a = k := LruCache.find_key h
    subst ha
    exact (LruCache.find_eq_some hn').mpr (hp.mem_iff.mpr ((LruCache.find_eq_some hn).mp h))

namespace ReadCache

/-! ## Reading -/

/-- A read gives the held content and leaves every content as it is. -/
theorem read_spec {c : ReadCache} (h : c.Wf) {k : ContainerId} {d : Bytes}
    (hk : c.contents k = some d) :
    ∃ c', c.read k = some (d, c') ∧ c'.Wf ∧ c'.itemSize = c.itemSize ∧
      ∀ j, c'.contents j = c.contents j := by
  unfold contents at hk
  obtain ⟨e, he, rfl⟩ := Option.map_eq_some_iff.mp hk
  have hp := LruCache.perm_others he
  refine ⟨{ c with readCache := { c.readCache with keys := e :: c.readCache.others k } },
    by simp only [read, LruCache.get, he], ?_, rfl, ?_⟩
  · exact
      { cap := h.cap
        maxSize := h.maxSize
        elasticity := h.elasticity
        pool := h.pool
        size := hp.length_eq.trans h.size
        bound := h.bound
        names := (hp.map Prod.fst).nodup_iff.mpr h.names
        slots := (hp.map Prod.snd).nodup_iff.mpr h.slots
        slotLt := fun x hx => h.slotLt x (hp.mem_iff.mp hx) }
  · intro j
    unfold contents
    rw [LruCache.find_congr h.names hp j]

/-! ## Inserting -/

/-- Which slot an insertion of an absent name takes, and which entries stay:
a slot of no entry that stays. -/
theorem insert_cases {c : ReadCache} (h : c.Wf) {name : ContainerId}
    (hno : c.exist name = false) (data : Bytes) :
    ∃ i kept n, c.insert name data =
        { c with
          containerPool := c.containerPool.set i (c.fill data)
          readCache := { c.readCache with keys := (name, i) :: kept }
          currentIndex := n } ∧
      kept <+: c.readCache.keys ∧ i ∉ kept.map Prod.snd ∧ i < n ∧ c.currentIndex ≤ n ∧
      n ≤ c.cacheSize ∧ kept.length + 1 = n := by
  have hcap := h.cap
  have hsize := h.size
  have hbound := h.bound
  have hcon : c.readCache.contains name = false := hno
  by_cases hfull : c.readCache.size + 1 > c.cacheSize
  · -- full: the last entry leaves and its slot is filled again
    have hlen : c.readCache.keys.length = c.cacheSize := by
      simp only [LruCache.size] at hfull; omega
    have hne : c.readCache.keys ≠ [] := by
      intro h0; rw [h0] at hlen; simp at hlen; omega
    obtain ⟨kept, ⟨b, i⟩, hk⟩ := List.eq_nil_or_concat'
      c.readCache.keys |>.resolve_left hne
    have hkept : kept.length + 1 = c.cacheSize := by
      rw [← hlen, hk]; simp
    have hpv : c.readCache.pruneValue = some i := by
      simp [LruCache.pruneValue, hk]
    refine ⟨i, kept, c.currentIndex, ?_, ⟨[(b, i)], hk.symm⟩, ?_, ?_, Nat.le_refl _, hbound, by omega⟩
    · have hins : c.readCache.insert name i
          = { c.readCache with keys := (name, i) :: kept } := by
        have htake : (((name, i) :: c.readCache.keys).take c.readCache.maxSize)
            = (name, i) :: kept := by
          rw [h.maxSize, ← hkept, List.take_succ_cons, hk, List.take_left]
        have hnp : ¬ (c.readCache.maxSize = 0 ∨
            c.readCache.keys.length + 1 < c.readCache.maxSize + c.readCache.elasticity) := by
          rw [h.maxSize, h.elasticity]; omega
        simp only [LruCache.insert, hcon, Bool.false_eq_true, if_false, LruCache.prune,
          LruCache.size, List.length_cons, hnp, htake]
      simp only [insert, hfull, if_true, hpv, hins]
    · have hs := h.slots
      rw [hk, List.map_append, List.nodup_append] at hs
      intro hi
      exact hs.2.2 i hi i (by simp) rfl
    · exact h.slotLt (b, i) (by rw [hk]; simp)
  · refine ⟨c.currentIndex, c.readCache.keys, c.currentIndex + 1, ?_, List.prefix_rfl, ?_,
      Nat.lt_succ_self _, Nat.le_succ _, ?_, by rw [hsize]⟩
    · have hins : c.readCache.insert name c.currentIndex
          = { c.readCache with keys := (name, c.currentIndex) :: c.readCache.keys } := by
        have htake : (((name, c.currentIndex) :: c.readCache.keys).take c.readCache.maxSize)
            = (name, c.currentIndex) :: c.readCache.keys := by
          apply List.take_of_length_le
          rw [h.maxSize, List.length_cons]
          simp only [LruCache.size] at hfull
          omega
        simp only [LruCache.insert, hcon, Bool.false_eq_true, if_false, LruCache.prune,
          LruCache.size, List.length_cons, htake, ite_self]
      simp only [insert, hfull, if_false, hins]
    · intro hi
      obtain ⟨e, he, heq⟩ := List.mem_map.mp hi
      have := h.slotLt e he
      omega
    · simp only [LruCache.size] at hfull
      omega

theorem wf_insert {c : ReadCache} (h : c.Wf) {name : ContainerId} (hno : c.exist name = false)
    (data : Bytes) : (c.insert name data).Wf := by
  obtain ⟨i, kept, n, heq, hpre, hi, hin, hcn, hn, hlen⟩ := insert_cases h hno data
  have hsub := hpre.sublist
  have hnot : name ∉ c.readCache.keys.map Prod.fst := by
    intro hm
    obtain ⟨e, he, rfl⟩ := List.mem_map.mp hm
    have hf := (LruCache.find_eq_some h.names).mpr (show (e.1, e.2) ∈ c.readCache.keys from he)
    simp [exist, LruCache.contains, hf] at hno
  rw [heq]
  exact
    { cap := h.cap
      maxSize := h.maxSize
      elasticity := h.elasticity
      pool := by rw [List.length_set]; exact h.pool
      size := hlen
      bound := hn
      names := by
        simp only [List.map_cons, List.nodup_cons]
        exact ⟨fun hm => hnot ((hsub.map Prod.fst).subset hm), h.names.sublist (hsub.map Prod.fst)⟩
      slots := by
        simp only [List.map_cons, List.nodup_cons]
        exact ⟨hi, h.slots.sublist (hsub.map Prod.snd)⟩
      slotLt := by
        intro e he
        rcases List.mem_cons.mp he with rfl | he
        · exact hin
        · exact Nat.lt_of_lt_of_le (h.slotLt e (hsub.subset he)) hcn }

theorem contents_insert_self {c : ReadCache} (h : c.Wf) {name : ContainerId}
    (hno : c.exist name = false) (data : Bytes) :
    (c.insert name data).contents name = some (c.fill data) := by
  obtain ⟨i, kept, n, heq, -, -, hin, -, hn, -⟩ := insert_cases h hno data
  have hlt : i < c.containerPool.length := by rw [h.pool]; omega
  rw [heq]
  simp [contents, LruCache.find, hlt]

/-- An insertion changes no other name's content; it may drop one. -/
theorem contents_insert_of_ne {c : ReadCache} (h : c.Wf) {name k : ContainerId}
    (hno : c.exist name = false) (data : Bytes) (hk : k ≠ name) {d : Bytes}
    (hd : (c.insert name data).contents k = some d) : c.contents k = some d := by
  obtain ⟨i, kept, n, heq, hpre, hi, -⟩ := insert_cases h hno data
  rw [heq] at hd
  obtain ⟨e, he, rfl⟩ := Option.map_eq_some_iff.mp hd
  have hek : e.1 = k := LruCache.find_key he
  subst hek
  have hmem := LruCache.mem_of_find he
  rcases List.mem_cons.mp hmem with rfl | hmem
  · exact absurd rfl hk
  · have hf := (LruCache.find_eq_some h.names).mpr
      (show (e.1, e.2) ∈ c.readCache.keys from hpre.sublist.subset hmem)
    have hne : i ≠ e.2 := fun hie => hi (hie ▸ List.mem_map.mpr ⟨e, hmem, rfl⟩)
    simp only [contents, hf, Option.map_some, Option.some.injEq, List.getD_eq_getElem?_getD]
    rw [List.getElem?_set_ne hne]

end ReadCache

end EDRStore
