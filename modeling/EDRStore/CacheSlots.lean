/-
# `EDRStore.CacheSlots` — the slots of the container cache over whole histories

`ReadCache` asks `lru11::Cache` twice when it is full: `pruneValue` for the slot
to fill again, and `insert`, which drops a key of its own accord.

    keys    c b a      slots  a ↦ 0  b ↦ 1  c ↦ 2
    Insert d           pruneValue: 0     prune drops a     d ↦ 0

The two agree because the key whose value `pruneValue` gives is the last one of
the list, and the one that `prune` drops.  The list is in the order of last use
(`recent`), so it is the name not used for longest that leaves.

The fill counter is a `size_t` and the value of a key a `uint32_t`: a pool of
more than 2^32 buffers has names that share a slot (`wide_pool_confuses`).
-/
import EDRStore.LinkedLru
import EDRStore.Lib.Run
import EDRStore.Lib.Bytes

namespace EDRStore

/-- `ReadCache`, over the map and the list of `lru11::Cache`. -/
structure PoolCache where
  cacheSize : Nat
  itemSize : Nat
  readCache : LinkedLru
  containerPool : List Bytes
  currentIndex : Nat

/-- The calls that `ReadChunk` makes. -/
inductive CacheCall where
  | exist (name : ContainerId)
  | read (name : ContainerId)
  | insert (name : ContainerId) (data : Bytes)

/-- The exception of `lru11::Cache::get`. -/
inductive KeyNotFound where
  | keyNotFound
deriving DecidableEq

namespace PoolCache

/-- The constructor; the pool starts unassigned. -/
def new (itemNum itemSize : Nat) : PoolCache where
  cacheSize := itemNum
  itemSize := itemSize
  readCache := .new itemNum 0
  containerPool := List.replicate itemNum []
  currentIndex := 0

/-- `memset` to zero, then `memcpy`. -/
def fill (c : PoolCache) (data : Bytes) : Bytes :=
  data ++ List.replicate (c.itemSize - data.length) 0

/-- `ReadCache::Insert`. -/
def insert (c : PoolCache) (name : ContainerId) (data : Bytes) : PoolCache :=
  if c.readCache.size + 1 > c.cacheSize then
    match c.readCache.pruneValue with
    | some replaceIndex =>
        { c with
          containerPool := c.containerPool.set replaceIndex.toNat (c.fill data)
          readCache := c.readCache.insert name replaceIndex }
    | none => c
  else
    { c with
      containerPool := c.containerPool.set c.currentIndex (c.fill data)
      readCache := c.readCache.insert name (UInt32.ofNat c.currentIndex)
      currentIndex := c.currentIndex + 1 }

/-- `ReadCache::Exist`. -/
def exist (c : PoolCache) (name : ContainerId) : Bool := c.readCache.contains name

/-- `ReadCache::Read`: the slot's buffer. -/
def read (c : PoolCache) (name : ContainerId) : Option (Bytes × PoolCache) :=
  match c.readCache.get name with
  | some (index, lru) => some (c.containerPool.getD index.toNat [], { c with readCache := lru })
  | none => none

def step (c : PoolCache) : CacheCall → Except KeyNotFound PoolCache
  | .exist _ => .ok c
  | .read name =>
      match c.read name with
      | some r => .ok r.2
      | none => .error .keyNotFound
  | .insert name data => .ok (c.insert name data)

/-- The order of calls in `ReadChunk`; a container file is no longer than a
container. -/
def AsReadChunk (c : PoolCache) : CacheCall → Prop
  | .exist _ => True
  | .read name => c.exist name = true
  | .insert name data => c.exist name = false ∧ data.length ≤ c.itemSize

instance (c : PoolCache) : (call : CacheCall) → Decidable (c.AsReadChunk call)
  | .exist _ => inferInstanceAs (Decidable True)
  | .read _ => inferInstanceAs (Decidable (_ = _))
  | .insert _ _ => inferInstanceAs (Decidable (_ ∧ _))

/-- The live names, the most recently used first. -/
def live (c : PoolCache) : List ContainerId := c.readCache.keys.map KeyValuePair.key

/-- The slot a name is read from. -/
def slot (c : PoolCache) (name : ContainerId) : Option Nat :=
  (c.readCache.get name).map fun r => r.1.toNat

end PoolCache

/-! ## What a history says -/

namespace CacheCall

/-- The names in the order of last use after one more call. -/
def use (names : List ContainerId) : CacheCall → List ContainerId
  | .exist _ => names
  | .read name => name :: names.filter fun n => n ≠ name
  | .insert name _ => name :: names.filter fun n => n ≠ name

/-- All names read or inserted, the last used first. -/
def recent (calls : List CacheCall) : List ContainerId := calls.foldl use []

/-- What a call inserts under a name, or else what was there. -/
def insertedBy (name : ContainerId) (old : Option Bytes) : CacheCall → Option Bytes
  | .insert n data => if n = name then some data else old
  | _ => old

/-- What was last inserted under a name. -/
def lastInserted (calls : List CacheCall) (name : ContainerId) : Option Bytes :=
  calls.foldl (insertedBy name) none

theorem recent_concat (calls : List CacheCall) (call : CacheCall) :
    recent (calls ++ [call]) = use (recent calls) call := List.foldl_concat _ _ _ _

theorem lastInserted_concat (calls : List CacheCall) (call : CacheCall) (name : ContainerId) :
    lastInserted (calls ++ [call]) name = insertedBy name (lastInserted calls name) call :=
  List.foldl_concat _ _ _ _

theorem nodup_use {names : List ContainerId} (h : names.Nodup) (call : CacheCall) :
    (use names call).Nodup := by
  have hcons : ∀ name, (name :: names.filter fun n => n ≠ name).Nodup := by
    intro name
    refine List.nodup_cons.mpr ⟨fun hm => ?_, h.filter _⟩
    exact of_decide_eq_true (List.mem_filter.mp hm).2 rfl
  cases call with
  | exist name => exact h
  | read name => exact hcons name
  | insert name data => exact hcons name

/-- A name among the first `n` moves to the front: the others of them stay. -/
theorem take_filter_of_mem {a : ContainerId} {l : List ContainerId} (hn : l.Nodup) {n : Nat}
    (ha : a ∈ l.take n) :
    (a :: l.filter fun k => k ≠ a).take n = a :: (l.take n).filter fun k => k ≠ a := by
  induction l generalizing n with
  | nil => rw [List.take_nil] at ha; exact absurd ha List.not_mem_nil
  | cons b l ih =>
      cases n with
      | zero => exact absurd ha List.not_mem_nil
      | succ n =>
          obtain ⟨hb, hl⟩ := List.nodup_cons.mp hn
          by_cases hba : b = a
          · subst hba
            have hall : ∀ j, (l.take j).filter (fun k => k ≠ b) = l.take j := by
              intro j
              refine List.filter_eq_self.mpr fun k hk => ?_
              exact decide_eq_true fun heq => hb (heq ▸ List.mem_of_mem_take hk)
            have hfull : l.filter (fun k => k ≠ b) = l := by
              have := hall l.length
              rwa [List.take_length] at this
            rw [List.take_succ_cons, List.take_succ_cons, List.filter_cons_of_neg (by simp),
              List.filter_cons_of_neg (by simp), hfull, hall]
          · rw [List.take_succ_cons] at ha
            have ha' : a ∈ l.take n := (List.mem_cons.mp ha).resolve_left (Ne.symm hba)
            have htail := ih hl ha'
            cases n with
            | zero => exact absurd ha' List.not_mem_nil
            | succ n =>
                rw [List.take_succ_cons, List.cons.injEq] at htail
                rw [List.take_succ_cons, List.take_succ_cons,
                  List.filter_cons_of_pos (by simpa using hba),
                  List.filter_cons_of_pos (by simpa using hba), List.take_succ_cons, htail.2]

/-- A name beyond the first `n` comes to the front: the last of them leaves. -/
theorem take_filter_of_notMem {a : ContainerId} {l : List ContainerId} {n : Nat}
    (ha : a ∉ l.take n) : (l.filter fun k => k ≠ a).take n = l.take n := by
  induction l generalizing n with
  | nil => rfl
  | cons b l ih =>
      cases n with
      | zero => rfl
      | succ n =>
          rw [List.take_succ_cons, List.mem_cons, not_or] at ha
          rw [List.filter_cons_of_pos (by simpa using Ne.symm ha.1), List.take_succ_cons,
            List.take_succ_cons, ih ha.2]

end CacheCall

/-! ## The cache over the list of pairs -/

namespace LruCache

variable {c : LruCache} {k : ContainerId}

/-- A new key goes to the front, and what is beyond `maxSize` is dropped. -/
theorem keys_insert (hk : c.contains k = false) (he : c.elasticity = 0) (hm : 0 < c.maxSize)
    (v : Nat) : (c.insert k v).keys = (k, v) :: c.keys.take (c.maxSize - 1) := by
  have hone : c.maxSize - 1 + 1 = c.maxSize := Nat.sub_add_cancel hm
  have htake : ((k, v) :: c.keys).take c.maxSize = (k, v) :: c.keys.take (c.maxSize - 1) := by
    rw [← hone, List.take_succ_cons, hone]
  simp only [LruCache.insert, hk, Bool.false_eq_true, if_false, prune, size, he, Nat.add_zero,
    List.length_cons]
  split
  · rename_i hor
    rw [List.take_of_length_le (by omega)]
  · exact htake

theorem insert_sizes (c : LruCache) (k : ContainerId) (v : Nat) :
    (c.insert k v).maxSize = c.maxSize ∧ (c.insert k v).elasticity = c.elasticity := by
  unfold insert prune
  split
  · exact ⟨rfl, rfl⟩
  · split <;> exact ⟨rfl, rfl⟩

theorem keys_get {v : Nat} {c' : LruCache} (h : c.get k = some (v, c')) :
    c'.keys = (k, v) :: c.others k ∧ (k, v) ∈ c.keys := by
  unfold get at h
  cases hf : c.find k with
  | none => rw [hf] at h; exact nomatch h
  | some e =>
      rw [hf] at h
      cases h
      have hkey := find_key hf
      subst hkey
      exact ⟨rfl, mem_of_find hf⟩

/-- Without repetition, taking out the entry of `k` is dropping the name `k`. -/
theorem map_others (hn : (c.keys.map Prod.fst).Nodup) (k : ContainerId) :
    (c.others k).map Prod.fst = (c.keys.map Prod.fst).filter fun n => n ≠ k := by
  unfold others
  generalize c.keys = l at hn
  induction l with
  | nil => rfl
  | cons e l ih =>
      simp only [List.map_cons, List.nodup_cons] at hn
      by_cases he : e.1 = k
      · have hno : ∀ n ∈ l.map Prod.fst, n ≠ k := fun n hm heq => hn.1 (he ▸ heq ▸ hm)
        rw [List.eraseP_cons_of_pos (by simpa using he), List.map_cons,
          List.filter_cons_of_neg (by simpa using he), List.filter_eq_self.mpr]
        intro n hm
        simpa using hno n hm
      · rw [List.eraseP_cons_of_neg (by simpa using he), List.map_cons, List.map_cons,
          List.filter_cons_of_pos (by simpa using he), ih hn.2]

end LruCache

namespace PoolCache

variable {c c' : PoolCache}

/-- The same cache over the list of pairs. -/
def toReadCache (c : PoolCache) : ReadCache where
  cacheSize := c.cacheSize
  itemSize := c.itemSize
  readCache := c.readCache.toList
  containerPool := c.containerPool
  currentIndex := c.currentIndex

theorem exist_eq (h : c.readCache.Linked) (name : ContainerId) :
    c.exist name = c.toReadCache.exist name := h.contains_eq name

/-- While the pool has at most 2^32 buffers, a slot survives in 32 bits. -/
theorem insert_spec (h : c.readCache.Linked) (hwf : c.toReadCache.Wf)
    (hwide : c.cacheSize ≤ 2 ^ 32) (name : ContainerId) (data : Bytes) :
    (c.insert name data).readCache.Linked ∧
      (c.insert name data).toReadCache = c.toReadCache.insert name data := by
  have hsize : c.toReadCache.readCache.size = c.readCache.size := by
    rw [h.size_eq]
    exact List.length_map _
  have hprune := h.pruneValue_eq
  unfold insert ReadCache.insert
  rw [hsize]
  by_cases hfull : c.readCache.size + 1 > c.cacheSize
  · have hfull' : c.readCache.size + 1 > c.toReadCache.cacheSize := hfull
    rw [if_pos hfull, if_pos hfull']
    cases hp : c.readCache.pruneValue with
    | none =>
        rw [hp] at hprune
        simp only [toReadCache, ← hprune, Option.map_none, h, and_self]
    | some i =>
        rw [hp] at hprune
        obtain ⟨hl, heq⟩ := h.insert_spec name i
        refine ⟨hl, ?_⟩
        simp only [toReadCache, ← hprune, heq]
        rfl
  · have hroom : ¬ c.readCache.size + 1 > c.toReadCache.cacheSize := hfull
    have hfit : (UInt32.ofNat c.currentIndex).toNat = c.currentIndex := by
      have hused : c.toReadCache.readCache.size = c.currentIndex := hwf.size
      exact UInt32.toNat_ofNat_of_lt' (show c.currentIndex < 2 ^ 32 by omega)
    rw [if_neg hfull, if_neg hroom]
    obtain ⟨hl, heq⟩ := h.insert_spec name (UInt32.ofNat c.currentIndex)
    refine ⟨hl, ?_⟩
    simp only [toReadCache, heq, hfit]
    rfl

theorem read_spec (h : c.readCache.Linked) {name : ContainerId} {data : Bytes}
    (hr : c.read name = some (data, c')) :
    c'.readCache.Linked ∧ c.toReadCache.read name = some (data, c'.toReadCache) := by
  have hg := h.get_spec name
  unfold read at hr
  unfold ReadCache.read
  cases hget : c.readCache.get name with
  | none => rw [hget] at hr; cases hr
  | some r =>
      rw [hget] at hr hg
      cases hr
      have hlist : c.toReadCache.readCache.get name = _ := hg.1
      refine ⟨hg.2, ?_⟩
      rw [hlist]
      rfl

/-- A live name can be read. -/
theorem read_of_exist (h : c.readCache.Linked) {name : ContainerId}
    (he : c.exist name = true) : ∃ data c', c.read name = some (data, c') := by
  have hg := h.get_spec name
  unfold read
  cases hget : c.readCache.get name with
  | some r => exact ⟨_, _, rfl⟩
  | none =>
      rw [hget] at hg
      rw [exist_eq h] at he
      unfold LruCache.get at hg
      cases hf : c.readCache.toList.find name with
      | none =>
          have : c.readCache.toList.contains name = true := he
          simp [LruCache.contains, hf] at this
      | some e => rw [hf] at hg; cases hg

/-! ## What every call keeps -/

/-- The cache after the calls `calls`. -/
structure Tracks (n m : Nat) (calls : List CacheCall) (c : PoolCache) : Prop where
  wide : n ≤ 2 ^ 32
  linked : c.readCache.Linked
  wf : c.toReadCache.Wf
  cacheSize : c.cacheSize = n
  itemSize : c.itemSize = m
  live : c.live = (CacheCall.recent calls).take n
  distinct : (CacheCall.recent calls).Nodup
  data : ∀ name d, c.toReadCache.contents name = some d →
    ∃ raw, CacheCall.lastInserted calls name = some raw ∧ d = c.fill raw

variable {n m : Nat} {calls : List CacheCall}

theorem tracks_new (hn : 0 < n) (hw : n ≤ 2 ^ 32) : Tracks n m [] (new n m) where
  wide := hw
  linked := LinkedLru.linked_new n 0
  wf := ReadCache.wf_new hn
  cacheSize := rfl
  itemSize := rfl
  live := List.take_nil.symm
  distinct := List.nodup_nil
  data := nofun

theorem live_eq (c : PoolCache) : c.live = c.toReadCache.readCache.keys.map Prod.fst := by
  show _ = (c.readCache.keys.map LinkedLru.pair).map Prod.fst
  rw [List.map_map]
  rfl

/-- Reading moves a name to the front. -/
theorem live_read (h : Tracks n m calls c) {name : ContainerId} {data : Bytes}
    (hr : c.read name = some (data, c')) :
    name ∈ c.live ∧ c'.live = name :: c.live.filter fun k => k ≠ name := by
  obtain ⟨-, heq⟩ := read_spec h.linked hr
  unfold ReadCache.read at heq
  cases hg : c.toReadCache.readCache.get name with
  | none => rw [hg] at heq; exact nomatch heq
  | some r =>
      rw [hg] at heq
      obtain ⟨v, lru⟩ := r
      have hc : c'.toReadCache.readCache = lru := by
        have := congrArg ReadCache.readCache (Prod.mk.inj (Option.some.inj heq)).2
        exact this.symm
      obtain ⟨hkeys, hmem⟩ := LruCache.keys_get hg
      rw [live_eq, live_eq, hc, hkeys, List.map_cons, LruCache.map_others h.wf.names]
      exact ⟨List.mem_map.mpr ⟨_, hmem, rfl⟩, rfl⟩

theorem Tracks.insert_eq (h : Tracks n m calls c) (name : ContainerId) (data : Bytes) :
    (c.insert name data).readCache.Linked ∧
      (c.insert name data).toReadCache = c.toReadCache.insert name data :=
  insert_spec h.linked h.wf (h.cacheSize ▸ h.wide) name data

/-- Inserting puts a name to the front, and keeps one name less than there is
room for. -/
theorem live_insert (h : Tracks n m calls c) {name : ContainerId} (hno : c.exist name = false)
    (data : Bytes) : (c.insert name data).live = name :: c.live.take (n - 1) := by
  have hno' : c.toReadCache.exist name = false := exist_eq h.linked name ▸ hno
  have hmax := h.wf.maxSize
  have hcap := h.wf.cap
  have hsize : c.toReadCache.cacheSize = n := h.cacheSize
  have hins : ∃ v, (c.toReadCache.insert name data).readCache =
      c.toReadCache.readCache.insert name v := by
    unfold ReadCache.insert
    split
    · cases hp : c.toReadCache.readCache.pruneValue with
      | some i => exact ⟨i, rfl⟩
      | none =>
          rename_i hfull
          have hlen : c.toReadCache.readCache.keys = [] := by
            simpa [LruCache.pruneValue] using hp
          simp only [LruCache.size, hlen, List.length_nil] at hfull
          omega
    · exact ⟨_, rfl⟩
  obtain ⟨v, hv⟩ := hins
  rw [live_eq, (h.insert_eq name data).2, hv,
    LruCache.keys_insert hno' h.wf.elasticity (by omega), List.map_cons, List.map_take, hmax, hsize,
    ← live_eq]

theorem exist_iff_live (h : Tracks n m calls c) {name : ContainerId} :
    c.exist name = true ↔ name ∈ c.live := by
  rw [exist_eq h.linked, ReadCache.exist_iff, live_eq, List.mem_map]
  unfold ReadCache.contents
  constructor
  · rintro ⟨d, hd⟩
    obtain ⟨e, he, -⟩ := Option.map_eq_some_iff.mp hd
    exact ⟨e, LruCache.mem_of_find he, LruCache.find_key he⟩
  · rintro ⟨e, he, rfl⟩
    rw [(LruCache.find_eq_some h.wf.names (v := e.2)).mpr he]
    exact ⟨_, rfl⟩

theorem Tracks.read (h : Tracks n m calls c) {name : ContainerId} {data : Bytes}
    (he : c.exist name = true) (hr : c.read name = some (data, c')) :
    Tracks n m (calls ++ [.read name]) c' ∧ c.toReadCache.contents name = some data := by
  obtain ⟨hlinked, heq⟩ := read_spec h.linked hr
  obtain ⟨d, hd⟩ := ReadCache.exist_iff.mp (exist_eq h.linked name ▸ he)
  obtain ⟨c₁, hread, hwf, hitem, hcontents⟩ := ReadCache.read_spec h.wf hd
  cases heq.symm.trans hread
  obtain ⟨hmem, hlive⟩ := live_read h hr
  have hsizes : c'.cacheSize = c.cacheSize ∧ c'.itemSize = c.itemSize := by
    unfold PoolCache.read at hr
    split at hr
    · cases hr
      exact ⟨rfl, rfl⟩
    · exact nomatch hr
  refine ⟨⟨h.wide, hlinked, hwf, hsizes.1.trans h.cacheSize, hsizes.2.trans h.itemSize,
    ?_, ?_, ?_⟩, hd⟩
  · rw [hlive, CacheCall.recent_concat]
    rw [h.live] at hmem ⊢
    exact (CacheCall.take_filter_of_mem h.distinct hmem).symm
  · rw [CacheCall.recent_concat]
    exact CacheCall.nodup_use h.distinct _
  · intro k d hk
    rw [CacheCall.lastInserted_concat]
    rw [hcontents k] at hk
    obtain ⟨raw, hraw, hfill⟩ := h.data k d hk
    refine ⟨raw, hraw, hfill.trans ?_⟩
    unfold fill
    rw [hsizes.2]

theorem Tracks.insert (h : Tracks n m calls c) {name : ContainerId} {data : Bytes}
    (hno : c.exist name = false) :
    Tracks n m (calls ++ [.insert name data]) (c.insert name data) := by
  have hno' : c.toReadCache.exist name = false := exist_eq h.linked name ▸ hno
  obtain ⟨hlinked, heq⟩ := h.insert_eq name data
  have hsizes : (c.insert name data).cacheSize = c.cacheSize ∧
      (c.insert name data).itemSize = c.itemSize := by
    unfold PoolCache.insert
    split
    · split <;> exact ⟨rfl, rfl⟩
    · exact ⟨rfl, rfl⟩
  have hpos : n - 1 + 1 = n := by
    have hcap := h.wf.cap
    have hsize : c.toReadCache.cacheSize = n := h.cacheSize
    omega
  have hlive : name ∉ c.live := fun hm => by
    rw [(exist_iff_live h).mpr hm] at hno
    exact nomatch hno
  refine ⟨h.wide, hlinked, ?_, hsizes.1.trans h.cacheSize, hsizes.2.trans h.itemSize, ?_, ?_, ?_⟩
  · rw [heq]
    exact ReadCache.wf_insert h.wf hno' data
  · rw [live_insert h hno, CacheCall.recent_concat]
    rw [h.live] at hlive ⊢
    show _ = (name :: (CacheCall.recent calls).filter fun k => k ≠ name).take n
    rw [List.take_take, Nat.min_eq_left (Nat.sub_le n 1), ← hpos, List.take_succ_cons, hpos,
      CacheCall.take_filter_of_notMem]
    intro hm
    exact hlive (List.IsPrefix.subset (List.take_prefix_take_left (Nat.sub_le n 1)) hm)
  · rw [CacheCall.recent_concat]
    exact CacheCall.nodup_use h.distinct _
  · intro k d hk
    rw [CacheCall.lastInserted_concat]
    rw [heq] at hk
    have hfill : ∀ raw, (c.insert name data).fill raw = c.fill raw := by
      intro raw
      unfold fill
      rw [hsizes.2]
    show ∃ raw, (if name = k then some data else _) = some raw ∧ _
    by_cases hname : k = name
    · subst hname
      rw [ReadCache.contents_insert_self h.wf hno' data] at hk
      cases hk
      exact ⟨data, if_pos rfl, (hfill data).symm⟩
    · rw [if_neg (Ne.symm hname)]
      obtain ⟨raw, hraw, hd⟩ :=
        h.data k d (ReadCache.contents_insert_of_ne h.wf hno' data hname hk)
      exact ⟨raw, hraw, hd.trans (hfill raw).symm⟩

theorem Tracks.step (h : Tracks n m calls c) {call : CacheCall} (hg : c.AsReadChunk call)
    (hs : c.step call = .ok c') : Tracks n m (calls ++ [call]) c' := by
  cases call with
  | exist name =>
      cases hs
      refine ⟨h.wide, h.linked, h.wf, h.cacheSize, h.itemSize, ?_, ?_, fun name d hd => ?_⟩
      · rw [CacheCall.recent_concat]
        exact h.live
      · rw [CacheCall.recent_concat]
        exact h.distinct
      · rw [CacheCall.lastInserted_concat]
        exact h.data name d hd
  | read name =>
      simp only [PoolCache.step] at hs
      cases hr : c.read name with
      | none => rw [hr] at hs; exact nomatch hs
      | some r =>
          rw [hr] at hs
          cases hs
          exact (h.read hg hr).1
  | insert name data =>
      cases hs
      exact h.insert hg.1

theorem Tracks.run {more : List CacheCall} : ∀ {calls : List CacheCall} {c : PoolCache},
    Tracks n m calls c → Allowed PoolCache.step AsReadChunk c more →
    runSteps PoolCache.step c more = .ok c' → Tracks n m (calls ++ more) c' := by
  induction more with
  | nil =>
      intro calls c h _ hrun
      cases hrun
      rw [List.append_nil]
      exact h
  | cons call more ih =>
      intro calls c h hg hrun
      obtain ⟨c₁, hc₁, hrun⟩ := runSteps_cons_ok hrun
      simp only [Allowed, hc₁] at hg
      have := ih (h.step hg.1 hc₁) hg.2 hrun
      rwa [List.append_assoc] at this

/-! ## The slots -/

theorem slot_eq_some (h : c.readCache.Linked) {name : ContainerId} {i : Nat}
    (hs : c.slot name = some i) : (name, i) ∈ c.toReadCache.readCache.keys := by
  have hg := h.get_spec name
  unfold slot at hs
  cases hget : c.readCache.get name with
  | none => rw [hget] at hs; exact nomatch hs
  | some r =>
      rw [hget] at hs hg
      cases hs
      exact (LruCache.keys_get hg.1).2

theorem slot_of_mem (h : c.readCache.Linked) {name : ContainerId} {i : Nat}
    (hm : (name, i) ∈ c.toReadCache.readCache.keys) : c.slot name = some i := by
  have hg := h.get_spec name
  have hnames : (c.readCache.toList.keys.map Prod.fst).Nodup := by
    show ((c.readCache.keys.map LinkedLru.pair).map Prod.fst).Nodup
    rw [List.map_map]
    exact h.names
  have hf : c.readCache.toList.find name = some (name, i) := (LruCache.find_eq_some hnames).mpr hm
  unfold slot
  cases hget : c.readCache.get name with
  | none =>
      rw [hget] at hg
      simp only [LruCache.get, hf] at hg
      cases hg
  | some r =>
      rw [hget] at hg
      simp only [LruCache.get, hf, Option.some.injEq, Prod.mk.injEq] at hg
      rw [Option.map_some, hg.1.1]

/-- With at most 2^32 buffers, through every history of calls that `ReadChunk` can
make, live names have slots of their own, a name reads as what was last inserted under
it, and what an insertion into the full cache drops is the name not used for longest. -/
theorem slots_never_confused (hn : 0 < n) (hw : n ≤ 2 ^ 32) (calls : List CacheCall)
    (hg : Allowed step AsReadChunk (new n m) calls)
    (hrun : runSteps step (new n m) calls = .ok c) :
    (∀ name, c.exist name = true → ∃ i < n, c.slot name = some i) ∧
    (∀ name name' i, c.slot name = some i → c.slot name' = some i → name = name') ∧
    (c.live.Nodup ∧ c.live.length ≤ n ∧ c.live <+: CacheCall.recent calls ∧
      ∀ name, c.exist name = true ↔ name ∈ c.live) ∧
    (∀ name, c.exist name = true → ∃ data c', CacheCall.lastInserted calls name = some data ∧
      c.read name = some (data ++ List.replicate (m - data.length) 0, c')) ∧
    ∀ name data, c.exist name = false →
      (c.live.length < n → (c.insert name data).live = name :: c.live) ∧
      (c.live.length = n → ∃ kept victim, c.live = kept ++ [victim] ∧
        (c.insert name data).live = name :: kept) := by
  have h : Tracks n m calls c := (tracks_new hn hw).run hg hrun
  have hcap : c.toReadCache.cacheSize = n := h.cacheSize
  refine ⟨fun name he => ?_, fun name name' i hs hs' => ?_,
    ⟨?_, ?_, ?_, fun name => exist_iff_live h⟩,
    fun name he => ?_, fun name data hno => ⟨fun hlt => ?_, fun hfull => ?_⟩⟩
  · obtain ⟨data, c', hr⟩ := read_of_exist h.linked he
    unfold PoolCache.read at hr
    cases hget : c.readCache.get name with
    | none => rw [hget] at hr; exact nomatch hr
    | some r =>
        have hslot : c.slot name = some r.1.toNat := by rw [slot, hget]; rfl
        have hlt := h.wf.slotLt _ (slot_eq_some h.linked hslot)
        have hbound := h.wf.bound
        simp only at hlt
        exact ⟨r.1.toNat, by omega, hslot⟩
  · have hmem := slot_eq_some h.linked hs
    have hmem' := slot_eq_some h.linked hs'
    exact congrArg Prod.fst (List.inj_on_of_nodup_map h.wf.slots hmem hmem' rfl)
  · rw [h.live]
    exact h.distinct.sublist (List.take_sublist _ _)
  · rw [h.live]
    exact List.length_take_le _ _
  · rw [h.live]
    exact List.take_prefix _ _
  · obtain ⟨data, c', hr⟩ := read_of_exist h.linked he
    obtain ⟨raw, hraw, hd⟩ := h.data name data (h.read he hr).2
    refine ⟨raw, c', hraw, ?_⟩
    rw [hr, hd, fill, h.itemSize]
  · rw [live_insert h hno, List.take_of_length_le (by omega)]
  · have hne : c.live ≠ [] := by
      intro h0
      rw [h0, List.length_nil] at hfull
      omega
    refine ⟨c.live.dropLast, c.live.getLast hne, (List.dropLast_concat_getLast hne).symm, ?_⟩
    rw [live_insert h hno, List.dropLast_eq_take, hfull]

/-- Two slots, three names, one of them read in between. -/
def slotCalls : List CacheCall :=
  [.exist [1], .insert [1] [7], .insert [2] [8, 8], .read [1], .insert [3] [9]]

theorem slots_never_confused_sample :
    (endOf step (new 2 2) slotCalls).live = [[3], [1]] ∧
    (endOf step (new 2 2) slotCalls).exist [2] = false ∧
    ∃ data c', CacheCall.lastInserted slotCalls [1] = some data ∧
      (endOf step (new 2 2) slotCalls).read [1] =
        some (data ++ List.replicate (2 - data.length) 0, c') := by
  have h := slots_never_confused (n := 2) (m := 2) (by decide) (by decide) slotCalls
    (by decide +kernel) (runSteps_endOf (by decide +kernel))
  exact ⟨by decide +kernel, by decide +kernel, h.2.2.2.1 [1] (by decide +kernel)⟩

/-! ### A pool of 2^32 + 1 buffers -/

/-- The names of the first `k` containers. -/
def fillName (i : Nat) : ContainerId := toLe 5 i

/-- As many containers, each inserted once. -/
def fillCalls (k : Nat) : List CacheCall := (List.range k).map fun i => .insert (fillName i) []

/-- The cache with `n` buffers after the first `k` of them. -/
structure Filling (n k : Nat) (c : PoolCache) : Prop where
  linked : c.readCache.Linked
  cacheSize : c.cacheSize = n
  maxSize : c.readCache.maxSize = n
  elasticity : c.readCache.elasticity = 0
  currentIndex : c.currentIndex = k
  keys : c.toReadCache.readCache.keys =
    (List.range k).reverse.map fun i => (fillName i, i % 2 ^ 32)

theorem fillName_inj {i j : Nat} (hi : i < 256 ^ 5) (hj : j < 256 ^ 5)
    (h : fillName i = fillName j) : i = j := by
  have hval := congrArg ofLe h
  rwa [fillName, fillName, ofLe_toLe_of_lt hi, ofLe_toLe_of_lt hj] at hval

theorem Filling.notLive {k : Nat} (h : Filling n k c) (hk : k < 256 ^ 5) :
    c.exist (fillName k) = false := by
  rw [exist_eq h.linked, ReadCache.not_exist_iff, ReadCache.contents, Option.map_eq_none_iff,
    LruCache.find, List.find?_eq_none, h.keys]
  intro e he
  obtain ⟨i, hi, rfl⟩ := List.mem_map.mp he
  have hik : i < k := List.mem_range.mp (List.mem_reverse.mp hi)
  intro heq
  have := fillName_inj (by omega) hk (of_decide_eq_true heq)
  omega

/-- The next insertion takes the next buffer, and a slot in 32 bits. -/
theorem Filling.insert {k : Nat} (h : Filling n k c) (hk : k < n) (hn : n ≤ 256 ^ 5) :
    Filling n (k + 1) (c.insert (fillName k) []) := by
  have hlen : c.toReadCache.readCache.keys.length = k := by
    rw [h.keys, List.length_map, List.length_reverse, List.length_range]
  have hroom : ¬ c.readCache.size + 1 > c.cacheSize := by
    have hsize : c.readCache.size = k := by
      rw [h.linked.size_eq, ← hlen]
      exact (List.length_map _).symm
    rw [hsize, h.cacheSize]
    omega
  obtain ⟨hlinked, hlist⟩ := h.linked.insert_spec (fillName k) (UInt32.ofNat c.currentIndex)
  have hkeys : (c.readCache.toList.insert (fillName k) (UInt32.ofNat c.currentIndex).toNat).keys =
      (fillName k, k % 2 ^ 32) :: c.toReadCache.readCache.keys := by
    have hno : c.readCache.toList.contains (fillName k) = false :=
      (h.linked.contains_eq _).symm.trans (h.notLive (by omega))
    rw [LruCache.keys_insert hno h.elasticity (show 0 < c.readCache.maxSize by
        rw [h.maxSize]; omega), h.currentIndex, UInt32.toNat_ofNat', List.take_of_length_le]
    · rfl
    · show c.toReadCache.readCache.keys.length ≤ c.readCache.maxSize - 1
      rw [hlen, h.maxSize]
      omega
  obtain ⟨hmax, helast⟩ := LruCache.insert_sizes c.readCache.toList (fillName k)
    (UInt32.ofNat c.currentIndex).toNat
  rw [← hlist] at hmax helast
  rw [PoolCache.insert, if_neg hroom]
  refine ⟨hlinked, h.cacheSize, hmax.trans h.maxSize, helast.trans h.elasticity,
    congrArg (· + 1) h.currentIndex, ?_⟩
  show (c.readCache.insert (fillName k) (UInt32.ofNat c.currentIndex)).toList.keys = _
  rw [hlist, hkeys, h.keys, List.range_succ, List.reverse_append, List.reverse_singleton,
    List.singleton_append, List.map_cons]

theorem filling (n m : Nat) (hn : n ≤ 256 ^ 5) : ∀ k ≤ n, ∃ c,
    Allowed step AsReadChunk (new n m) (fillCalls k) ∧
      runSteps step (new n m) (fillCalls k) = .ok c ∧ Filling n k c := by
  intro k
  induction k with
  | zero =>
      intro _
      exact ⟨_, trivial, rfl, LinkedLru.linked_new n 0, rfl, rfl, rfl, rfl, rfl⟩
  | succ k ih =>
      intro hk
      obtain ⟨c, hg, hrun, h⟩ := ih (by omega)
      have hcalls : fillCalls (k + 1) = fillCalls k ++ [.insert (fillName k) []] := by
        rw [fillCalls, List.range_succ, List.map_append, List.map_singleton]
        rfl
      refine ⟨c.insert (fillName k) [], ?_, ?_, h.insert (by omega) hn⟩
      · rw [hcalls]
        refine allowed_append hg fun c' hc' => ?_
        cases hrun.symm.trans hc'
        exact ⟨⟨h.notLive (by omega), Nat.zero_le _⟩, trivial⟩
      · rw [hcalls, runSteps_append, hrun]
        rfl

/-- Container 2^32 is given the slot of the first one. -/
theorem wide_pool_confuses :
    ¬ ∀ (n m : Nat) (calls : List CacheCall) (c : PoolCache), 0 < n →
      Allowed step AsReadChunk (new n m) calls → runSteps step (new n m) calls = .ok c →
      ∀ name name' i, c.slot name = some i → c.slot name' = some i → name = name' := by
  intro h
  obtain ⟨n, hn⟩ : ∃ n, n = 2 ^ 32 := ⟨_, rfl⟩
  obtain ⟨c, hg, hrun, hc⟩ := filling (n + 1) 0 (by omega) (n + 1) (Nat.le_refl _)
  have hslot : ∀ i ≤ n, c.slot (fillName i) = some (i % 2 ^ 32) := by
    intro i hi
    refine slot_of_mem hc.linked ?_
    rw [hc.keys]
    exact List.mem_map.mpr ⟨i, List.mem_reverse.mpr (List.mem_range.mpr (by omega)), rfl⟩
  have hfirst : c.slot (fillName 0) = some 0 := hslot 0 (Nat.zero_le n)
  have hlast : c.slot (fillName n) = some 0 := by rw [hslot n (Nat.le_refl n), hn, Nat.mod_self]
  have hname := h (n + 1) 0 _ c (Nat.succ_pos n) hg hrun _ _ 0 hfirst hlast
  have := fillName_inj (by omega) (by omega) hname
  omega

end PoolCache

end EDRStore
