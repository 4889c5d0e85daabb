/-
# `EDRStore.LinkedLru` — the hash map and the list of `lru11::Cache`

`lruCache.h` keeps its entries in a list, the most recently used first, and
finds them through a hash map from the key to the list node:

    cache_    a ↦ 3   b ↦ 1
    keys_     3:(a, 0)   1:(b, 1)

A node keeps its address when it is spliced to the front, so the map need not
change.  As long as the two agree (`Linked`) the cache is the plain list of its
pairs, and `pruneValue`, which goes through both, gives the value of the key
that `prune` will drop.
-/
import EDRStore.ReadCache
import Mathlib.Data.Finset.Card

namespace EDRStore

/-- A node of `keys_`, with its address. -/
structure KeyValuePair where
  addr : Nat
  key : ContainerId
  value : UInt32
deriving DecidableEq

/-- `lru11::Cache<string, uint32_t>`; `nextAddr` is where the next node goes. -/
structure LinkedLru where
  cache : Index ContainerId Nat
  keys : List KeyValuePair
  nextAddr : Nat
  maxSize : Nat
  elasticity : Nat

namespace LinkedLru

def new (maxSize elasticity : Nat) : LinkedLru where
  cache := ∅
  keys := []
  nextAddr := 0
  maxSize := maxSize
  elasticity := elasticity

def size (c : LinkedLru) : Nat := c.cache.keys.card

def contains (c : LinkedLru) (k : ContainerId) : Bool := (c.cache.lookup k).isSome

/-- The node an iterator points to. -/
def deref (c : LinkedLru) (addr : Nat) : Option KeyValuePair :=
  c.keys.find? fun n => n.addr = addr

/-- `keys_.splice(keys_.begin(), keys_, iter)`, with what the node then holds. -/
def splice (c : LinkedLru) (n : KeyValuePair) : LinkedLru :=
  { c with keys := n :: c.keys.eraseP fun m => m.addr = n.addr }

/-- One turn of the loop of `prune`. -/
def popBack (c : LinkedLru) : LinkedLru :=
  match c.keys.getLast? with
  | some n => { c with cache := c.cache.erase n.key, keys := c.keys.dropLast }
  | none => c

/-- The loop of `prune`, for `k` turns at most. -/
def pruneLoop : Nat → LinkedLru → LinkedLru
  | 0, c => c
  | k + 1, c => if c.size > c.maxSize then pruneLoop k c.popBack else c

/-- `Cache::prune`; every turn of the loop takes one entry out. -/
def prune (c : LinkedLru) : LinkedLru :=
  if c.maxSize = 0 ∨ c.size < c.maxSize + c.elasticity then c else pruneLoop c.size c

/-- `Cache::insert`. -/
def insert (c : LinkedLru) (k : ContainerId) (v : UInt32) : LinkedLru :=
  match c.cache.lookup k with
  | some addr => c.splice ⟨addr, k, v⟩
  | none =>
      prune { c with
        cache := c.cache.insert k c.nextAddr
        keys := ⟨c.nextAddr, k, v⟩ :: c.keys
        nextAddr := c.nextAddr + 1 }

/-- `Cache::get`; `none` is `KeyNotFound`. -/
def get (c : LinkedLru) (k : ContainerId) : Option (UInt32 × LinkedLru) := do
  let addr ← c.cache.lookup k
  let n ← c.deref addr
  some (n.value, c.splice n)

/-- `Cache::pruneValue`. -/
def pruneValue (c : LinkedLru) : Option UInt32 := do
  let last ← c.keys.getLast?
  let addr ← c.cache.lookup last.key
  let n ← c.deref addr
  some n.value

/-! ## The map and the list agree -/

/-- The map has the addresses of the nodes of the list, by their keys. -/
structure Linked (c : LinkedLru) : Prop where
  addrs : (c.keys.map KeyValuePair.addr).Nodup
  names : (c.keys.map KeyValuePair.key).Nodup
  entry : ∀ k addr, c.cache.lookup k = some addr ↔ ∃ v, ⟨addr, k, v⟩ ∈ c.keys
  fresh : ∀ n ∈ c.keys, n.addr < c.nextAddr

/-- The pair that a node holds. -/
def pair (n : KeyValuePair) : ContainerId × Nat := (n.key, n.value.toNat)

/-- The list of pairs alone. -/
def toList (c : LinkedLru) : LruCache where
  keys := c.keys.map pair
  maxSize := c.maxSize
  elasticity := c.elasticity

variable {c : LinkedLru} {k : ContainerId}

theorem linked_new (maxSize elasticity : Nat) : (new maxSize elasticity).Linked where
  addrs := List.nodup_nil
  names := List.nodup_nil
  entry := fun _ _ => ⟨nofun, fun ⟨_, h⟩ => absurd h List.not_mem_nil⟩
  fresh := fun _ h => absurd h List.not_mem_nil

/-- A node is known by its address or by its key. -/
theorem Linked.addr_iff_key (h : c.Linked) {n m : KeyValuePair} (hn : n ∈ c.keys)
    (hm : m ∈ c.keys) : m.addr = n.addr ↔ m.key = n.key := by
  constructor
  · intro ha
    rw [List.inj_on_of_nodup_map h.addrs hm hn ha]
  · intro hk
    rw [List.inj_on_of_nodup_map h.names hm hn hk]

theorem Linked.deref_of_mem (h : c.Linked) {n : KeyValuePair} (hn : n ∈ c.keys) :
    c.deref n.addr = some n := by
  unfold deref
  cases hf : c.keys.find? fun m => m.addr = n.addr with
  | none =>
      have := List.find?_eq_none.mp hf n hn
      simp at this
  | some m =>
      have hm := List.mem_of_find?_eq_some hf
      have ha : m.addr = n.addr := by simpa using List.find?_some hf
      rw [List.inj_on_of_nodup_map h.addrs hm hn ha]

/-- A key of the map has its node. -/
theorem Linked.node (h : c.Linked) {addr : Nat} (hk : c.cache.lookup k = some addr) :
    ∃ v, (⟨addr, k, v⟩ : KeyValuePair) ∈ c.keys ∧ c.deref addr = some ⟨addr, k, v⟩ := by
  obtain ⟨v, hv⟩ := (h.entry k addr).mp hk
  exact ⟨v, hv, h.deref_of_mem hv⟩

theorem Linked.lookup_of_mem (h : c.Linked) {n : KeyValuePair} (hn : n ∈ c.keys) :
    c.cache.lookup n.key = some n.addr :=
  (h.entry n.key n.addr).mpr ⟨n.value, hn⟩

theorem Linked.notMem (h : c.Linked) (hk : c.cache.lookup k = none) :
    ∀ n ∈ c.keys, n.key ≠ k := by
  rintro n hn rfl
  exact nomatch hk.symm.trans (h.lookup_of_mem hn)

/-- The map has as many keys as the list. -/
theorem Linked.size_eq (h : c.Linked) : c.size = c.keys.length := by
  have hkeys : c.cache.keys = (c.keys.map KeyValuePair.key).toFinset := by
    ext k
    rw [Finmap.mem_keys, Index.mem_iff_lookup, List.mem_toFinset, List.mem_map]
    constructor
    · rintro ⟨addr, hk⟩
      obtain ⟨v, hv⟩ := (h.entry k addr).mp hk
      exact ⟨_, hv, rfl⟩
    · rintro ⟨n, hn, rfl⟩
      exact ⟨_, h.lookup_of_mem hn⟩
  rw [size, hkeys, List.toFinset_card_of_nodup h.names, List.length_map]

/-- The list searched by key. -/
theorem find_toList (k : ContainerId) :
    c.toList.find k = (c.keys.find? fun n => n.key = k).map pair := by
  unfold LruCache.find toList
  rw [List.find?_map]
  rfl

theorem Linked.find_of_mem (h : c.Linked) {n : KeyValuePair} (hn : n ∈ c.keys) :
    c.toList.find n.key = some (pair n) := by
  refine (LruCache.find_eq_some ?_).mpr (List.mem_map.mpr ⟨n, hn, rfl⟩)
  show ((c.keys.map pair).map Prod.fst).Nodup
  rw [List.map_map]
  exact h.names

theorem Linked.contains_eq (h : c.Linked) (k : ContainerId) :
    c.contains k = c.toList.contains k := by
  unfold contains LruCache.contains
  cases hk : c.cache.lookup k with
  | none =>
      have hf : c.toList.find k = none := by
        rw [find_toList, Option.map_eq_none_iff, List.find?_eq_none]
        intro n hn hkey
        exact h.notMem hk n hn (by simpa using hkey)
      rw [hf]
      rfl
  | some addr =>
      obtain ⟨v, hv, -⟩ := h.node hk
      rw [h.find_of_mem hv]
      rfl

/-! ## Moving a node to the front -/

theorem eraseP_congr {p q : KeyValuePair → Bool} {l : List KeyValuePair}
    (h : ∀ m ∈ l, p m = q m) : l.eraseP p = l.eraseP q := by
  induction l with
  | nil => rfl
  | cons a l ih =>
      rw [List.eraseP_cons, List.eraseP_cons, h a List.mem_cons_self,
        ih fun m hm => h m (List.mem_cons_of_mem _ hm)]

theorem Linked.toList_splice (h : c.Linked) {n : KeyValuePair} (hn : n ∈ c.keys)
    (v : UInt32) : (c.splice { n with value := v }).toList =
      { c.toList with keys := (n.key, v.toNat) :: c.toList.others n.key } := by
  have hcongr : (c.keys.eraseP fun m => m.addr = n.addr) =
      c.keys.eraseP ((fun e => decide (e.1 = n.key)) ∘ pair) := by
    refine eraseP_congr fun m hm => ?_
    exact decide_eq_decide.mpr (h.addr_iff_key hn hm)
  simp only [splice, toList, LruCache.others, List.map_cons, List.eraseP_map, hcongr]
  rfl

/-- What the map knows of a node. -/
def link (n : KeyValuePair) : Nat × ContainerId := (n.addr, n.key)

/-- Only the addresses and keys matter, and not their order. -/
theorem Linked.of_perm (h : c.Linked) {keys : List KeyValuePair}
    (hp : (keys.map link).Perm (c.keys.map link)) : ({ c with keys := keys } : LinkedLru).Linked := by
  have haddr : (keys.map KeyValuePair.addr).Perm (c.keys.map KeyValuePair.addr) := by
    have := hp.map Prod.fst
    rwa [List.map_map, List.map_map] at this
  have hname : (keys.map KeyValuePair.key).Perm (c.keys.map KeyValuePair.key) := by
    have := hp.map Prod.snd
    rwa [List.map_map, List.map_map] at this
  have hmem : ∀ l : List KeyValuePair, ∀ addr k,
      (addr, k) ∈ l.map link ↔ ∃ v, (⟨addr, k, v⟩ : KeyValuePair) ∈ l := by
    intro l addr k
    rw [List.mem_map]
    constructor
    · rintro ⟨⟨a, k', v⟩, hn, heq⟩
      cases heq
      exact ⟨v, hn⟩
    · rintro ⟨v, hn⟩
      exact ⟨_, hn, rfl⟩
  refine ⟨haddr.nodup_iff.mpr h.addrs, hname.nodup_iff.mpr h.names, fun k addr => ?_, fun n hn => ?_⟩
  · rw [← hmem keys, hp.mem_iff, hmem c.keys]
    exact h.entry k addr
  · obtain ⟨m, hm, ha⟩ := List.mem_map.mp (haddr.mem_iff.mp (List.mem_map.mpr ⟨n, hn, rfl⟩))
    exact ha ▸ h.fresh m hm

/-- The nodes stay, the moved one with the value it is given. -/
theorem Linked.splice (h : c.Linked) {n : KeyValuePair} (hn : n ∈ c.keys) (v : UInt32) :
    (c.splice { n with value := v }).Linked := by
  refine h.of_perm ?_
  obtain ⟨m, l₁, l₂, -, hm, hl, he⟩ :=
    List.exists_of_eraseP hn (p := fun m => m.addr = n.addr) (decide_eq_true rfl)
  have hmem : m ∈ c.keys := hl ▸ List.mem_append_right _ List.mem_cons_self
  obtain rfl : m = n := List.inj_on_of_nodup_map h.addrs hmem hn (of_decide_eq_true hm)
  rw [List.map_cons, he, hl, List.map_append, List.map_append, List.map_cons]
  exact List.perm_middle.symm

theorem Linked.get_spec (h : c.Linked) (k : ContainerId) :
    match c.get k with
    | some (v, c') => c.toList.get k = some (v.toNat, c'.toList) ∧ c'.Linked
    | none => c.toList.get k = none := by
  unfold get LruCache.get
  cases hk : c.cache.lookup k with
  | none =>
      have hc := h.contains_eq k
      simp only [contains, hk, Option.isSome_none, LruCache.contains] at hc
      have hf : c.toList.find k = none :=
        Option.not_isSome_iff_eq_none.mp (by rw [← hc]; exact Bool.false_ne_true)
      rw [hf]
      rfl
  | some addr =>
      obtain ⟨v, hv, hd⟩ := h.node hk
      have hf := h.find_of_mem hv
      simp only [pair] at hf
      simp only [Option.bind_eq_bind, Option.bind_some, hd, hf]
      refine ⟨?_, h.splice hv v⟩
      rw [← h.toList_splice hv v]

/-! ## Dropping the last node -/

theorem Linked.popBack (h : c.Linked) : c.popBack.Linked := by
  unfold LinkedLru.popBack
  cases hl : c.keys.getLast? with
  | none => exact h
  | some n =>
      obtain ⟨front, hfront⟩ := List.getLast?_eq_some_iff.mp hl
      have hkeys : c.keys.dropLast = front := by rw [hfront, List.dropLast_concat]
      have haddrs := h.addrs
      have hnames := h.names
      rw [hfront, List.map_append, List.nodup_append] at haddrs hnames
      refine ⟨?_, ?_, fun k addr => ?_, fun m hm => ?_⟩
      · rw [hkeys]
        exact haddrs.1
      · rw [hkeys]
        exact hnames.1
      · simp only [hkeys, Index.lookup_erase_ite]
        split
        · rename_i hk
          refine ⟨nofun, fun ⟨v, hv⟩ => ?_⟩
          exact absurd hk (hnames.2.2 k (List.mem_map.mpr ⟨_, hv, rfl⟩) n.key
            (List.mem_singleton.mpr rfl))
        · rename_i hk
          rw [h.entry k addr, hfront]
          refine exists_congr fun v => ?_
          rw [List.mem_append, List.mem_singleton]
          refine ⟨fun hm => hm.resolve_right fun heq => hk ?_, Or.inl⟩
          rw [← heq]
      · rw [hkeys] at hm
        exact h.fresh m (hfront ▸ List.mem_append_left _ hm)

theorem popBack_keys : c.popBack.keys = c.keys.dropLast := by
  unfold popBack
  cases hl : c.keys.getLast? with
  | none => rw [List.getLast?_eq_none_iff.mp hl]; rfl
  | some n => rfl

theorem popBack_maxSize : c.popBack.maxSize = c.maxSize := by
  unfold popBack
  split <;> rfl

theorem popBack_elasticity : c.popBack.elasticity = c.elasticity := by
  unfold popBack
  split <;> rfl

/-- The loop keeps the first `maxSize` nodes. -/
theorem Linked.pruneLoop (j : Nat) : ∀ {c : LinkedLru}, c.Linked → c.keys.length ≤ c.maxSize + j →
    (LinkedLru.pruneLoop j c).Linked ∧
      (LinkedLru.pruneLoop j c).toList =
        { c.toList with keys := (c.keys.map pair).take c.maxSize } := by
  induction j with
  | zero =>
      intro c h hlen
      refine ⟨h, ?_⟩
      rw [List.take_of_length_le (by rw [List.length_map]; omega)]
      rfl
  | succ j ih =>
      intro c h hlen
      simp only [LinkedLru.pruneLoop]
      split
      · rename_i hgt
        rw [h.size_eq] at hgt
        obtain ⟨hlinked, heq⟩ := ih h.popBack (by
          rw [popBack_keys, popBack_maxSize, List.length_dropLast]
          omega)
        refine ⟨hlinked, heq.trans ?_⟩
        simp only [toList, popBack_keys, popBack_maxSize, popBack_elasticity, List.map_dropLast]
        rw [List.dropLast_eq_take, List.take_take, List.length_map, Nat.min_eq_left (by omega)]
      · rename_i hle
        rw [h.size_eq] at hle
        refine ⟨h, ?_⟩
        rw [List.take_of_length_le (by rw [List.length_map]; omega)]
        rfl

theorem Linked.prune (h : c.Linked) : c.prune.Linked ∧ c.prune.toList = c.toList.prune := by
  have hsize : c.toList.size = c.size := by
    rw [h.size_eq]
    exact List.length_map _
  unfold LinkedLru.prune LruCache.prune
  rw [hsize]
  show (if _ then c else _).Linked ∧
    _ = if c.maxSize = 0 ∨ c.size < c.maxSize + c.elasticity then _ else _
  split
  · exact ⟨h, rfl⟩
  · exact h.pruneLoop c.size (by rw [h.size_eq]; omega)

/-! ## Inserting -/

theorem Linked.insert_spec (h : c.Linked) (k : ContainerId) (v : UInt32) :
    (c.insert k v).Linked ∧ (c.insert k v).toList = c.toList.insert k v.toNat := by
  unfold LinkedLru.insert LruCache.insert
  rw [← h.contains_eq k, contains]
  cases hk : c.cache.lookup k with
  | some addr =>
      obtain ⟨old, hold, -⟩ := h.node hk
      exact ⟨h.splice hold v, h.toList_splice hold v⟩
  | none =>
      refine Linked.prune (c := { c with
        cache := c.cache.insert k c.nextAddr
        keys := ⟨c.nextAddr, k, v⟩ :: c.keys
        nextAddr := c.nextAddr + 1 }) ⟨?_, ?_, fun j addr => ?_, fun n hn => ?_⟩
      · refine List.nodup_cons.mpr ⟨fun hm => ?_, h.addrs⟩
        obtain ⟨n, hn, ha⟩ := List.mem_map.mp hm
        have := h.fresh n hn
        simp only at ha
        omega
      · refine List.nodup_cons.mpr ⟨fun hm => ?_, h.names⟩
        obtain ⟨n, hn, hkey⟩ := List.mem_map.mp hm
        exact h.notMem hk n hn hkey
      · simp only [Index.lookup_insert_ite, List.mem_cons, KeyValuePair.mk.injEq]
        split
        · rename_i hj
          subst hj
          refine ⟨fun heq => ⟨v, Or.inl ⟨(Option.some.inj heq).symm, rfl, rfl⟩⟩, ?_⟩
          rintro ⟨w, ⟨ha, -, -⟩ | hw⟩
          · rw [ha]
          · exact absurd rfl (h.notMem hk _ hw)
        · rename_i hj
          rw [h.entry j addr]
          exact exists_congr fun w => ⟨Or.inr, fun hw => hw.resolve_left fun heq => hj heq.2.1⟩
      · rcases List.mem_cons.mp hn with rfl | hn
        · exact Nat.lt_succ_self _
        · exact Nat.lt_succ_of_lt (h.fresh n hn)

theorem Linked.pruneValue_eq (h : c.Linked) :
    c.pruneValue.map UInt32.toNat = c.toList.pruneValue := by
  unfold LinkedLru.pruneValue LruCache.pruneValue toList
  cases hl : c.keys.getLast? with
  | none =>
      rw [List.getLast?_map, hl]
      rfl
  | some n =>
      have hn : n ∈ c.keys := List.mem_of_getLast? hl
      rw [List.getLast?_map, hl]
      simp only [Option.bind_eq_bind, Option.bind_some, h.lookup_of_mem hn, h.deref_of_mem hn]
      rfl

end LinkedLru

end EDRStore
