/-
# `EDRStore.StorageLog` — the containers as an append-only log

The bytes of a chunk live in three places in turn: the open buffer of the
session that wrote it, the container file, and cached copies of that file.
The abstract view is one segment per container name (`Content`), which
`WriteChunk` only ever appends to:

    LogOk     a container file holds its segment, an undrawn name nothing
    OpenOk    an open buffer is its segment, and has no file yet
    CacheOk   a cached copy is a file, zero-padded

`readChunk_saved`, `readChunk_open` and `readChunk_absent` say what a read
gives in each case, `Wrote` what one `WriteChunk` does to the segments, for the
session that writes and for every other one.
-/
import EDRStore.Storage
import EDRStore.Lib.Run

namespace EDRStore

/-- What every container name stands for. -/
abbrev Content := ContainerId → Bytes

/-- The container files hold the segments `log`. -/
structure LogOk (cfg : Components) (log : Content) (st : StorageCore) : Prop where
  saved : ∀ {id b}, st.containers.lookup id = some b → log id = b
  undrawn : ∀ n, st.uuidCnt ≤ n → log (cfg.createUUID n) = []
  unsaved : ∀ n, st.uuidCnt ≤ n → cfg.createUUID n ∉ st.containers

/-- The open container `c` is its segment and has no file. -/
structure OpenOk (cfg : Components) (log : Content) (st : StorageCore) (c : Container) : Prop where
  body : log c.id = c.body
  unsaved : c.id ∉ st.containers
  drawn : ∀ n, st.uuidCnt ≤ n → c.id ≠ cfg.createUUID n

/-- Every cached copy is a file, zero-padded. -/
structure CacheOk (st : StorageCore) (cache : ReadCache) : Prop where
  wf : cache.Wf
  copies : ∀ {id d}, cache.contents id = some d →
    ∃ b, st.containers.lookup id = some b ∧ b <+: d

/-- `ReadChunk` finds the container: it has a file, or it is the open one. -/
def Readable (st : StorageCore) (cur : ClientStore) (id : ContainerId) : Prop :=
  id ∈ st.containers ∨ cur.curContainer.id = id

instance (st : StorageCore) (cur : ClientStore) (id : ContainerId) :
    Decidable (Readable st cur id) := inferInstanceAs (Decidable (_ ∨ _))

/-- No container file changed, some may be new. -/
def Keeps (st st' : StorageCore) : Prop :=
  ∀ {id b}, st.containers.lookup id = some b → st'.containers.lookup id = some b

theorem Keeps.mem {st st' : StorageCore} (h : Keeps st st') {id : ContainerId}
    (hid : id ∈ st.containers) : id ∈ st'.containers := by
  obtain ⟨b, hb⟩ := Index.lookup_isSome_of_mem hid
  exact Index.mem_of_lookup (h hb)

theorem CacheOk.keeps {st st' : StorageCore} {cache : ReadCache} (h : CacheOk st cache)
    (hk : Keeps st st') : CacheOk st' cache where
  wf := h.wf
  copies := fun hd => by
    obtain ⟨b, hb, hp⟩ := h.copies hd
    exact ⟨b, hk hb, hp⟩

theorem cacheOk_new (cfg : Components) (st : StorageCore) :
    CacheOk st (ReadCache.new cfg.containerCacheSize maxContainerSize) where
  wf := ReadCache.wf_new cfg.containerCacheSize_pos
  copies := fun h => by rw [ReadCache.contents_new] at h; exact nomatch h

variable {cfg : Components} {log : Content} {st : StorageCore} {cur : ClientStore}

/-! ## Reading -/

/-- A name without a file is in no cache. -/
theorem CacheOk.not_exist {cache : ReadCache} (hc : CacheOk st cache) {id : ContainerId}
    (hn : id ∉ st.containers) : cache.exist id = false := by
  rw [ReadCache.not_exist_iff]
  cases hd : cache.contents id with
  | none => rfl
  | some d =>
      obtain ⟨b, hb, -⟩ := hc.copies hd
      exact absurd (Index.mem_of_lookup hb) hn

/-- Caching a file's bytes keeps the cache a copy of the files. -/
theorem CacheOk.insert {cache : ReadCache} (hc : CacheOk st cache) {id : ContainerId} {b : Bytes}
    (hno : cache.exist id = false) (hb : st.containers.lookup id = some b) :
    CacheOk st (cache.insert id b) where
  wf := ReadCache.wf_insert hc.wf hno b
  copies := by
    intro k d hd
    by_cases hk : k = id
    · subst hk
      rw [ReadCache.contents_insert_self hc.wf hno b] at hd
      cases hd
      exact ⟨b, hb, List.prefix_append _ _⟩
    · exact hc.copies (ReadCache.contents_insert_of_ne hc.wf hno b hk hd)

/-- A read from a container that has a file: within the segment, it gives what
the segment holds there. -/
theorem readChunk_saved (hst : LogOk cfg log st) (hc : CacheOk st cur.containerCache)
    {addr : KeyForChunkHashDB} (hs : addr.containerId ∈ st.containers) :
    ∃ data cache, st.readChunk addr cur = (some data, { cur with containerCache := cache }) ∧
      CacheOk st cache ∧ (addr.extent.Within log → data = addr.extent.read log) := by
  obtain ⟨b, hb⟩ := Index.lookup_isSome_of_mem hs
  have hlog : log addr.containerId = b := hst.saved hb
  cases hex : cur.containerCache.exist addr.containerId with
  | true =>
      -- a cached copy begins with the file's bytes
      obtain ⟨d, hd⟩ := ReadCache.exist_iff.mp hex
      obtain ⟨b', hb', hpre⟩ := hc.copies hd
      rw [hb] at hb'
      cases hb'
      obtain ⟨cache, hread, hwf, -, hsame⟩ := ReadCache.read_spec hc.wf hd
      refine ⟨slice d addr.offset addr.len, cache, ?_, ⟨hwf, fun hk => hc.copies ?_⟩, ?_⟩
      · simp only [StorageCore.readChunk, hex, if_true, hread]
      · rw [← hsame]; exact hk
      · intro hw
        have hlen : addr.offset + addr.len ≤ b.length := by rw [← hlog]; exact hw
        rw [ slice_of_prefix hpre hlen, ← hlog]
        rfl
  | false =>
      refine ⟨slice b addr.offset addr.len, cur.containerCache.insert addr.containerId b, ?_,
        hc.insert hex hb, ?_⟩
      · simp only [StorageCore.readChunk, hex, Bool.false_eq_true, if_false, hb]
      · intro _
        rw [← hlog]
        rfl

/-- A read from the open container. -/
theorem readChunk_open (hc : CacheOk st cur.containerCache)
    (ho : OpenOk cfg log st cur.curContainer) {addr : KeyForChunkHashDB}
    (ha : cur.curContainer.id = addr.containerId) :
    st.readChunk addr cur = (some (addr.extent.read log), cur) := by
  have hn : addr.containerId ∉ st.containers := ha ▸ ho.unsaved
  have hl : st.containers.lookup addr.containerId = none := Finmap.lookup_eq_none.mpr hn
  simp only [StorageCore.readChunk, hc.not_exist hn, Bool.false_eq_true, if_false, hl, ha, if_true]
  rw [← ho.body, ha]
  rfl

/-- A read that fails: no file, and not the open container. -/
theorem readChunk_absent (hc : CacheOk st cur.containerCache) {addr : KeyForChunkHashDB}
    (hn : ¬ Readable st cur addr.containerId) : st.readChunk addr cur = (none, cur) := by
  simp only [Readable, not_or] at hn
  have hl : st.containers.lookup addr.containerId = none := Finmap.lookup_eq_none.mpr hn.1
  simp only [StorageCore.readChunk, hc.not_exist hn.1, Bool.false_eq_true, if_false, hl, hn.2]

/-- Whatever the address, a read changes nothing but the cache. -/
theorem readChunk_frame (hc : CacheOk st cur.containerCache) (addr : KeyForChunkHashDB) :
    ∃ cache, (st.readChunk addr cur).2 = { cur with containerCache := cache } ∧
      CacheOk st cache := by
  cases hex : cur.containerCache.exist addr.containerId with
  | true =>
      obtain ⟨d, hd⟩ := ReadCache.exist_iff.mp hex
      obtain ⟨cache, hread, hwf, -, hsame⟩ := ReadCache.read_spec hc.wf hd
      refine ⟨cache, ?_, hwf, fun hk => hc.copies (by rw [← hsame]; exact hk)⟩
      simp only [StorageCore.readChunk, hex, if_true, hread]
  | false =>
      cases hb : st.containers.lookup addr.containerId with
      | none =>
          refine ⟨cur.containerCache, ?_, hc⟩
          simp only [StorageCore.readChunk, hex, Bool.false_eq_true, if_false, hb]
          split <;> rfl
      | some b =>
          refine ⟨cur.containerCache.insert addr.containerId b, ?_, hc.insert hex hb⟩
          simp only [StorageCore.readChunk, hex, Bool.false_eq_true, if_false, hb]

/-- A read whose container is found. -/
theorem readChunk_found (hst : LogOk cfg log st) (hc : CacheOk st cur.containerCache)
    (ho : OpenOk cfg log st cur.curContainer) {addr : KeyForChunkHashDB}
    (hr : Readable st cur addr.containerId) :
    ∃ data, (st.readChunk addr cur).1 = some data ∧
      (addr.extent.Within log → data = addr.extent.read log) := by
  rcases hr with hs | ha
  · obtain ⟨data, cache, h, -, hw⟩ := readChunk_saved hst hc hs
    exact ⟨data, by rw [h], hw⟩
  · exact ⟨addr.extent.read log, by rw [readChunk_open hc ho ha], fun _ => rfl⟩

/-! ## Writing -/

/-- What one `WriteChunk` of `data` does: it appends to the segment of the
container that is open afterwards. -/
structure Wrote (cfg : Components) (log log' : Content) (st st' : StorageCore)
    (cur cur' : ClientStore) (addr' : KeyForChunkHashDB) (data : Bytes) : Prop where
  logOk : LogOk cfg log' st'
  openOk : OpenOk cfg log' st' cur'.curContainer
  cache : cur'.containerCache = cur.containerCache
  keeps : Keeps st st'
  segment : log' = Function.update log cur'.curContainer.id (log cur'.curContainer.id ++ data)
  extent : addr'.extent = ⟨cur'.curContainer.id, (log cur'.curContainer.id).length, data.length⟩
  fits : data.length ≤ maxContainerSize →
    (log' cur'.curContainer.id).length ≤ maxContainerSize
  /-- The old container stays open or gets its file. -/
  old : Readable st' cur' cur.curContainer.id
  drawn : st.uuidCnt ≤ st'.uuidCnt
  counted : st'.writeChunkNum = st.writeChunkNum + 1
  /-- The container written to is the old one or one just drawn. -/
  named : cur'.curContainer.id = cur.curContainer.id ∨
    cur'.curContainer.id = cfg.createUUID st.uuidCnt
  /-- Only the old container can get a file. -/
  files : ∀ {id}, id ∈ st'.containers → id ∈ st.containers ∨ id = cur.curContainer.id

/-- Making room leaves every segment as it is. -/
theorem makeRoom_spec (hid : cfg.FreshIds) (hst : LogOk cfg log st) {c c' : Container}
    {st' : StorageCore} {size : Nat} (ho : OpenOk cfg log st c)
    (h : st.makeRoom cfg size c = (st', c')) :
    LogOk cfg log st' ∧ OpenOk cfg log st' c' ∧ Keeps st st' ∧
      (c.id ∈ st'.containers ∨ c'.id = c.id) ∧ st.uuidCnt ≤ st'.uuidCnt ∧
      st'.writeChunkNum = st.writeChunkNum ∧
      (c'.id = c.id ∨ c'.id = cfg.createUUID st.uuidCnt) ∧
      ∀ {id}, id ∈ st'.containers → id ∈ st.containers ∨ id = c.id := by
  by_cases hfull : c.curSize + size > maxContainerSize
  · rw [StorageCore.makeRoom, if_pos hfull] at h
    cases h
    refine ⟨⟨?_, ?_, ?_⟩, ⟨?_, ?_, ?_⟩, ?_, ?_, Nat.le_succ _, rfl, Or.inr rfl, ?_⟩
    · intro id b hb
      simp only [StorageCore.saveContainer, Index.lookup_insert_ite] at hb
      split at hb
      · rename_i h; cases hb; rw [h]; exact ho.body
      · exact hst.saved hb
    · intro n hn; exact hst.undrawn n (by simp only at hn; omega)
    · intro n hn hm
      simp only [StorageCore.saveContainer] at hm hn
      rcases Finmap.mem_insert.mp hm with h | h
      · exact ho.drawn n (by omega) h.symm
      · exact hst.unsaved n (by omega) h
    · exact hst.undrawn _ (Nat.le_refl _)
    · simp only [StorageCore.saveContainer]
      intro hm
      rcases Finmap.mem_insert.mp hm with h | h
      · exact ho.drawn _ (Nat.le_refl _) h.symm
      · exact hst.unsaved _ (Nat.le_refl _) h
    · intro n hn h
      have := hid h
      simp only at hn
      omega
    · intro id b hb
      simp only [StorageCore.saveContainer, Index.lookup_insert_ite]
      rw [if_neg, hb]
      rintro rfl
      exact ho.unsaved (Index.mem_of_lookup hb)
    · exact Or.inl (Finmap.mem_insert.mpr (Or.inl rfl))
    · intro id hm
      exact (Finmap.mem_insert.mp hm).symm
  · rw [StorageCore.makeRoom, if_neg hfull] at h
    cases h
    exact ⟨hst, ho, fun h => h, Or.inr rfl, Nat.le_refl _, rfl, Or.inl rfl, Or.inl⟩

theorem makeRoom_fits {c c' : Container} {st' : StorageCore} {size : Nat}
    (h : st.makeRoom cfg size c = (st', c')) (hs : size ≤ maxContainerSize) :
    c'.curSize + size ≤ maxContainerSize := by
  by_cases hfull : c.curSize + size > maxContainerSize
  · rw [StorageCore.makeRoom, if_pos hfull] at h
    cases h
    simpa [Container.curSize] using hs
  · rw [StorageCore.makeRoom, if_neg hfull] at h
    cases h
    exact not_lt.mp hfull

theorem writeChunk_wrote (hid : cfg.FreshIds) (hst : LogOk cfg log st)
    (ho : OpenOk cfg log st cur.curContainer) (addr : KeyForChunkHashDB) (data : Bytes) :
    let r := st.writeChunk cfg addr data cur
    ∃ log', Wrote cfg log log' st r.2.1 cur r.2.2 r.1 data := by
  obtain ⟨hst', ho', hkeep, hold, hdrawn, hnum, hnamed, hfiles⟩ :=
    makeRoom_spec hid hst ho (Prod.mk.eta (p := st.makeRoom cfg data.length cur.curContainer)).symm
  have hlen : (st.makeRoom cfg data.length cur.curContainer).2.curSize
      = (log (st.makeRoom cfg data.length cur.curContainer).2.id).length := by
    rw [ho'.body]; rfl
  refine ⟨Function.update log (st.makeRoom cfg data.length cur.curContainer).2.id
      (log (st.makeRoom cfg data.length cur.curContainer).2.id ++ data), ?_⟩
  exact
    { logOk :=
        { saved := by
            intro id b hb
            rw [Function.update_of_ne]
            · exact hst'.saved hb
            · rintro rfl; exact ho'.unsaved (Index.mem_of_lookup hb)
          undrawn := by
            intro n hn
            rw [Function.update_of_ne (ho'.drawn n hn).symm]
            exact hst'.undrawn n hn
          unsaved := hst'.unsaved }
      openOk :=
        { body := by
            simp only [StorageCore.writeChunk, Function.update_self]
            rw [ho'.body]
          unsaved := ho'.unsaved
          drawn := ho'.drawn }
      cache := rfl
      keeps := hkeep
      segment := rfl
      extent := by
        simp only [StorageCore.writeChunk, KeyForChunkHashDB.extent, hlen]
      fits := by
        intro hs
        have := makeRoom_fits
          (Prod.mk.eta (p := st.makeRoom cfg data.length cur.curContainer)).symm hs
        simp only [StorageCore.writeChunk, Function.update_self, List.length_append, ← hlen]
        exact this
      old := hold
      drawn := hdrawn
      counted := congrArg (· + 1) hnum
      named := hnamed
      files := hfiles }

namespace Wrote

variable {log' : Content} {st' : StorageCore} {cur' : ClientStore} {addr' : KeyForChunkHashDB}
  {data : Bytes}

theorem grows (h : Wrote cfg log log' st st' cur cur' addr' data) : Grows log log' := by
  rw [h.segment]; exact grows_append _ _ _

/-- The address returned holds what was written. -/
theorem within (h : Wrote cfg log log' st st' cur cur' addr' data) :
    addr'.extent.Within log' := by
  rw [h.extent, h.segment]
  simp [Extent.Within]

theorem reads (h : Wrote cfg log log' st st' cur cur' addr' data) :
    addr'.extent.read log' = data := by
  rw [h.extent, h.segment]
  simp only [Extent.read, Function.update_self]
  exact slice_append_right _ _

theorem readable_new (h : Wrote cfg log log' st st' cur cur' addr' data) :
    Readable st' cur' addr'.containerId := by
  have := congrArg Extent.seg h.extent
  exact Or.inr this.symm

theorem readable (h : Wrote cfg log log' st st' cur cur' addr' data) {id : ContainerId}
    (hr : Readable st cur id) : Readable st' cur' id := by
  rcases hr with hs | rfl
  · exact Or.inl (Keeps.mem h.keeps hs)
  · exact h.old

/-- The open container of another session is not touched. -/
theorem other (h : Wrote cfg log log' st st' cur cur' addr' data) {c : Container}
    (hc : OpenOk cfg log st c) (hne : c.id ≠ cur.curContainer.id) :
    OpenOk cfg log' st' c ∧ c.id ≠ cur'.curContainer.id := by
  have hne' : c.id ≠ cur'.curContainer.id := by
    rcases h.named with hn | hn
    · rw [hn]; exact hne
    · rw [hn]; exact hc.drawn _ (Nat.le_refl _)
  refine ⟨⟨?_, ?_, ?_⟩, hne'⟩
  · rw [h.segment, Function.update_of_ne hne']; exact hc.body
  · intro hm
    rcases h.files hm with hm | hm
    · exact hc.unsaved hm
    · exact hne hm
  · intro n hn; exact hc.drawn n (Nat.le_trans h.drawn hn)

end Wrote

/-! ## Any number of reads and writes -/

/-- What the reads and writes of one session do, put together. -/
structure Evolves (cfg : Components) (log log' : Content) (st st' : StorageCore)
    (cur cur' : ClientStore) : Prop where
  logOk : LogOk cfg log' st'
  openOk : OpenOk cfg log' st' cur'.curContainer
  cacheOk : CacheOk st' cur'.containerCache
  grows : Grows log log'
  keeps : Keeps st st'
  readable : ∀ {id}, Readable st cur id → Readable st' cur' id
  /-- The open container of another session is not touched. -/
  other : ∀ {c}, OpenOk cfg log st c → c.id ≠ cur.curContainer.id →
    OpenOk cfg log' st' c ∧ c.id ≠ cur'.curContainer.id

namespace Evolves

variable {log' log'' : Content} {st' st'' : StorageCore} {cur' cur'' : ClientStore}

theorem refl (hst : LogOk cfg log st) (ho : OpenOk cfg log st cur.curContainer)
    (hc : CacheOk st cur.containerCache) : Evolves cfg log log st st cur cur where
  logOk := hst
  openOk := ho
  cacheOk := hc
  grows := Grows.refl log
  keeps := fun h => h
  readable := fun h => h
  other := fun h hne => ⟨h, hne⟩

theorem trans (h : Evolves cfg log log' st st' cur cur')
    (h' : Evolves cfg log' log'' st' st'' cur' cur'') :
    Evolves cfg log log'' st st'' cur cur'' where
  logOk := h'.logOk
  openOk := h'.openOk
  cacheOk := h'.cacheOk
  grows := h.grows.trans h'.grows
  keeps := fun hb => h'.keeps (h.keeps hb)
  readable := fun hr => h'.readable (h.readable hr)
  other := fun hc hne => by
    obtain ⟨hc', hne'⟩ := h.other hc hne
    exact h'.other hc' hne'

/-- A read, whatever the address. -/
theorem ofRead (hst : LogOk cfg log st) (ho : OpenOk cfg log st cur.curContainer)
    (hc : CacheOk st cur.containerCache) (addr : KeyForChunkHashDB) :
    Evolves cfg log log st st cur (st.readChunk addr cur).2 := by
  obtain ⟨cache, heq, hcache⟩ := readChunk_frame hc addr
  rw [heq]
  exact
    { logOk := hst
      openOk := ho
      cacheOk := hcache
      grows := Grows.refl log
      keeps := fun h => h
      readable := fun h => h
      other := fun h hne => ⟨h, hne⟩ }

/-- What a session does depends on its open container, not on its cache. -/
theorem of_cache {cache : ReadCache}
    (h : Evolves cfg log log' st st' { cur with containerCache := cache } cur') :
    Evolves cfg log log' st st' cur cur' :=
  { h with }

theorem ofWrote {addr' : KeyForChunkHashDB} {data : Bytes} (hc : CacheOk st cur.containerCache)
    (h : Wrote cfg log log' st st' cur cur' addr' data) :
    Evolves cfg log log' st st' cur cur' where
  logOk := h.logOk
  openOk := h.openOk
  cacheOk := by rw [h.cache]; exact hc.keeps h.keeps
  grows := h.grows
  keeps := h.keeps
  readable := h.readable
  other := fun hc hne => h.other hc hne

end Evolves

/-! ## Opening and closing a session -/

theorem openClient_spec (hid : cfg.FreshIds) (hst : LogOk cfg log st) :
    let r := st.openClient cfg
    LogOk cfg log r.1 ∧ OpenOk cfg log r.1 r.2.curContainer ∧ CacheOk r.1 r.2.containerCache ∧
      r.1.containers = st.containers ∧ r.2.curContainer.id = cfg.createUUID st.uuidCnt ∧
      r.2.curContainer.body = [] := by
  refine ⟨⟨hst.saved, ?_, ?_⟩, ⟨?_, ?_, ?_⟩, cacheOk_new cfg _, rfl, rfl, rfl⟩
  · intro n hn
    simp only [StorageCore.openClient] at hn
    exact hst.undrawn n (by omega)
  · intro n hn
    simp only [StorageCore.openClient] at hn
    exact hst.unsaved n (by omega)
  · exact hst.undrawn _ (Nat.le_refl _)
  · exact hst.unsaved _ (Nat.le_refl _)
  · intro n hn h
    have := hid h
    simp only [StorageCore.openClient] at hn
    omega

/-- The tail save gives a file to the open container, unless it is empty. -/
theorem saveTail_spec (hst : LogOk cfg log st) (ho : OpenOk cfg log st cur.curContainer) :
    LogOk cfg log (st.saveTail cur) ∧ Keeps st (st.saveTail cur) ∧
      (st.saveTail cur).uuidCnt = st.uuidCnt ∧
      (cur.curContainer.id ∈ (st.saveTail cur).containers ∨ log cur.curContainer.id = []) ∧
      ∀ {id}, id ∈ (st.saveTail cur).containers →
        id ∈ st.containers ∨ id = cur.curContainer.id := by
  by_cases h0 : cur.curContainer.curSize ≠ 0
  · rw [StorageCore.saveTail, if_pos h0]
    refine ⟨⟨?_, hst.undrawn, ?_⟩, ?_, rfl, Or.inl (Finmap.mem_insert.mpr (Or.inl rfl)), ?_⟩
    · intro id b hb
      simp only [StorageCore.saveContainer, Index.lookup_insert_ite] at hb
      split at hb
      · rename_i h; cases hb; rw [h]; exact ho.body
      · exact hst.saved hb
    · intro n hn hm
      rcases Finmap.mem_insert.mp hm with h | h
      · exact ho.drawn n hn h.symm
      · exact hst.unsaved n hn h
    · intro id b hb
      simp only [StorageCore.saveContainer, Index.lookup_insert_ite]
      rw [if_neg, hb]
      rintro rfl
      exact ho.unsaved (Index.mem_of_lookup hb)
    · intro id hm
      exact (Finmap.mem_insert.mp hm).symm
  · rw [StorageCore.saveTail, if_neg h0]
    refine ⟨hst, fun h => h, rfl, Or.inr ?_, Or.inl⟩
    have hz : cur.curContainer.body.length = 0 := not_not.mp h0
    rw [ho.body]
    exact List.length_eq_zero_iff.mp hz

/-- The tail save of one session leaves the open containers of others alone. -/
theorem saveTail_other (hst : LogOk cfg log st) (ho : OpenOk cfg log st cur.curContainer)
    {c : Container} (hc : OpenOk cfg log st c) (hne : c.id ≠ cur.curContainer.id) :
    OpenOk cfg log (st.saveTail cur) c where
  body := hc.body
  unsaved := by
    intro hm
    rcases (saveTail_spec hst ho).2.2.2.2 hm with h | h
    · exact hc.unsaved h
    · exact hne h
  drawn := by
    intro n hn
    rw [(saveTail_spec hst ho).2.2.1] at hn
    exact hc.drawn n hn

end EDRStore
