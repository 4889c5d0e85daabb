/-
# `EDRStore.EndToEnd` — every stored file comes back

What holds of the records and the cached bases over any number of sessions of
any number of clients, and what a download makes of it.  The one thing the
sessions do not keep by themselves is the form of a cached base's own record:
a chunk that was stored as a delta against a cached base can be sent again once
its features are evicted, and be cached as a base itself.  A delta against it
is a delta of two levels, which the reader passes on as it is.
-/
import EDRStore.Lockstep
import EDRStore.Restore

namespace EDRStore

namespace World

variable {cfg : Components} {U : PlainChunk → Prop} {log log' : Content} {w w' : World}
  {a : Action}

/-- What was uploaded as one file: chunks that were sent, each with a record. -/
def Uploaded (cfg : Components) (U : PlainChunk → Prop) (srv : Server) (fileRecipe : List Fp)
    (keyRecipe : List Key) (chunks : List Bytes) : Prop :=
  ∃ xs : List PlainChunk, (∀ x ∈ xs, U x ∧ x.fp cfg ∈ srv.fp2AddrDb) ∧
    fileRecipe = xs.map (PlainChunk.fp cfg) ∧ keyRecipe = xs.map PlainChunk.key ∧
    chunks = xs.map PlainChunk.data

/-- Between two actions. -/
structure Inv (cfg : Components) (U : PlainChunk → Prop) (log : Content) (w : World) : Prop where
  logOk : LogOk cfg log w.srv.storageCore
  records : Records cfg U log w.srv
  openOk : ∀ {t}, w.session = some t → OpenOk cfg log w.srv.storageCore t.cur.curContainer
  cacheOk : ∀ {t}, w.session = some t → CacheOk w.srv.storageCore t.cur.containerCache
  /-- A record lies in a file, or in the open container of the running upload. -/
  placed : ∀ {fp addr}, w.srv.fp2AddrDb.lookup fp = some addr →
    addr.containerId ∈ w.srv.storageCore.containers ∨
      ∃ t, w.session = some t ∧ t.cur.curContainer.id = addr.containerId
  cached : ∀ {t}, w.session = some t → CacheHolds cfg U w.srv t.informCache
  resting : ∀ c, CacheHolds cfg U w.srv (InformCache.loadCntIdx (w.informFiles c))
  sending : ∀ {t}, w.session = some t → Uploaded cfg U w.srv t.fileRecipe t.keyRecipe t.chunks
  files : ∀ file ∈ w.files, Uploaded cfg U w.srv file.fileRecipe file.keyRecipe file.chunks

/-- The chunk would be new, and the client knows one of its features. -/
def NewSingle (cfg : Components) (w : World) (t : Session) (x : PlainChunk) : Prop :=
  x.fp cfg ∉ w.srv.fp2AddrDb ∧
    ∃ f ∈ (x.features cfg).toList, f ∈ t.cacheMeta.feature2VersionIdx

/-- The chunk sent is one of `U`, and the server's cache is not empty if the
chunk has to find a base there. -/
def Sends (cfg : Components) (U : PlainChunk → Prop) (w : World) (a : Action) : Prop :=
  a.OnChunk fun x _ => U x ∧
    ∀ t ∈ w.session, NewSingle cfg w t x → t.informCache.getCacheSize ≠ 0

/-- The cached base picked for a new chunk is not itself stored as a delta
against a cached base. -/
def OneLevel (cfg : Components) (w : World) (a : Action) : Prop :=
  a.OnChunk fun x addr => ∀ t ∈ w.session, NewSingle cfg w t x →
    ∀ baseAddr ∈ w.srv.fp2AddrDb.lookup (x.chosenBase cfg t.informCache addr),
      baseAddr.stat ≠ .cacheDeltaChunk

instance (w : World) (t : Session) (x : PlainChunk) : Decidable (NewSingle cfg w t x) :=
  inferInstanceAs (Decidable (_ ∧ _))

instance [DecidablePred U] (w : World) (a : Action) : Decidable (Sends cfg U w a) :=
  inferInstanceAs (Decidable (a.OnChunk _))

instance (w : World) (a : Action) : Decidable (OneLevel cfg w a) :=
  inferInstanceAs (Decidable (a.OnChunk _))

/-- The laws the components are assumed to obey. -/
structure Laws (cfg : Components) (U : PlainChunk → Prop) : Prop extends Restorable cfg U where
  freshIds : cfg.FreshIds
  deltaRoundTrip : cfg.DeltaRoundTrip
  deltaNonempty : cfg.DeltaNonempty
  encNonempty : cfg.EncNonempty

theorem inv_init : Inv cfg U (fun _ => []) init where
  logOk :=
    { saved := fun h => by simp [init, Server.empty, StorageCore.empty] at h
      undrawn := fun _ _ => rfl
      unsaved := fun _ _ h => Finmap.notMem_empty h }
  records := Records.empty _
  openOk := fun h => nomatch h
  cacheOk := fun h => nomatch h
  placed := fun h => by simp [init, Server.empty] at h
  cached := fun h => nomatch h
  resting := fun _ => CacheHolds.ofEmpty
  sending := fun h => nomatch h
  files := fun _ h => absurd h List.not_mem_nil

theorem Uploaded.mono {srv srv' : Server} {fps : List Fp} {keys : List Key} {chunks : List Bytes}
    (h : Uploaded cfg U srv fps keys chunks) (hk : ∀ fp ∈ srv.fp2AddrDb, fp ∈ srv'.fp2AddrDb) :
    Uploaded cfg U srv' fps keys chunks := by
  obtain ⟨xs, hxs, hrest⟩ := h
  exact ⟨xs, fun x hx => ⟨(hxs x hx).1, hk _ (hxs x hx).2⟩, hrest⟩

theorem Uploaded.snoc {srv : Server} {fps : List Fp} {keys : List Key} {chunks : List Bytes}
    (h : Uploaded cfg U srv fps keys chunks) {x : PlainChunk} (hx : U x)
    (hm : x.fp cfg ∈ srv.fp2AddrDb) :
    Uploaded cfg U srv (fps ++ [x.fp cfg]) (keys ++ [x.key]) (chunks ++ [x.data]) := by
  obtain ⟨xs, hxs, rfl, rfl, rfl⟩ := h
  refine ⟨xs ++ [x], ?_, by simp, by simp, by simp⟩
  intro z hz
  rcases List.mem_append.mp hz with hz | hz
  · exact hxs z hz
  · cases List.mem_singleton.mp hz
    exact ⟨hx, hm⟩

/-- What a chunk leaves behind on the server: the records, the place of each of
them, and the cache. -/
structure ChunkKept (cfg : Components) (U : PlainChunk → Prop) (log log' : Content)
    (s s' : UploadState) (x : PlainChunk) : Prop where
  evolves : Evolves cfg log log' s.srv.storageCore s'.srv.storageCore s.cur s'.cur
  records : Records cfg U log' s'.srv
  /-- A record not found before is the new chunk's, and found by this client. -/
  placed : ∀ {fp addr}, s'.srv.fp2AddrDb.lookup fp = some addr →
    s.srv.fp2AddrDb.lookup fp = some addr ∨ Readable s'.srv.storageCore s'.cur addr.containerId
  /-- No record changes. -/
  final : ∀ {fp addr}, s.srv.fp2AddrDb.lookup fp = some addr →
    s'.srv.fp2AddrDb.lookup fp = some addr
  sent : x.fp cfg ∈ s'.srv.fp2AddrDb
  cached : CacheHolds cfg U s'.srv s'.informCache

/-- One write of a chunk that is new, given what it does to the records. -/
theorem chunkKept_of_stores {s s' : UploadState} {x : PlainChunk} {addr addr' : KeyForChunkHashDB}
    {chunk : WrappedChunk} {c : InformCache} (hnew : x.fp cfg ∉ s.srv.fp2AddrDb)
    (hfp : chunk.info.fp = x.fp cfg)
    (hs : DataWriterThd.Stores cfg log log' (s.srv.entered (x.fp cfg) addr) s'.srv s.cur s'.cur
      chunk addr')
    (hrec : Records cfg U log' s'.srv) (hc : s'.informCache = c)
    (hcache : ∀ srv' : Server, (∀ fp ∈ s.srv.fp2AddrDb, fp ∈ srv'.fp2AddrDb) →
      x.fp cfg ∈ srv'.fp2AddrDb → CacheHolds cfg U srv' c) :
    ChunkKept cfg U log log' s s' x := by
  have hl := lookup_entered hs hfp
  have hself : s'.srv.fp2AddrDb.lookup (x.fp cfg) = some addr' := by rw [hl, if_pos rfl]
  have hfinal : ∀ {fp a}, s.srv.fp2AddrDb.lookup fp = some a →
      s'.srv.fp2AddrDb.lookup fp = some a := by
    intro fp a ha
    rw [hl, if_neg, ha]
    rintro rfl
    exact hnew (Index.mem_of_lookup ha)
  refine ⟨hs.evolves, hrec, ?_, hfinal, Index.mem_of_lookup hself, ?_⟩
  · intro fp a ha
    rw [hl] at ha
    split at ha
    · cases ha; exact Or.inr hs.readable
    · exact Or.inl ha
  · rw [hc]
    refine hcache s'.srv (fun fp hm => ?_) (Index.mem_of_lookup hself)
    obtain ⟨a, ha⟩ := Index.lookup_isSome_of_mem hm
    exact Index.mem_of_lookup (hfinal ha)

/-- The writer, on a chunk that has just been entered with its placeholder. -/
theorem runWriter_stores (hid : cfg.FreshIds) {s s' : UploadState} {c : InformCache} {fp : Fp}
    {addr : KeyForChunkHashDB} {chunk : WrappedChunk} (hst : LogOk cfg log s.srv.storageCore)
    (ho : OpenOk cfg log s.srv.storageCore s.cur.curContainer)
    (hc : CacheOk s.srv.storageCore s.cur.containerCache)
    (h : UploadState.runWriter cfg (UploadState.placeholder { s with informCache := c } fp addr)
      chunk = .ok s') :
    s'.informCache = c ∧ ∃ log' addr', DataWriterThd.Stores cfg log log' (s.srv.entered fp addr)
      s'.srv s.cur s'.cur chunk addr' := by
  obtain ⟨r, hrun, hr⟩ := bind_ok h
  cases hr
  have hst' : LogOk cfg log (s.srv.entered fp addr).storageCore := hst
  exact ⟨rfl, DataWriterThd.runChunk_stores hid hst' ho hc hrun⟩

/-- The record a chunk is left with, and its base, if it is a delta against one
that was cached. -/
def NewRecord (cfg : Components) (s s' : UploadState) (x : PlainChunk) (addr : KeyForChunkHashDB)
    (known : Prop) : Prop :=
  ∀ fp a, s'.srv.fp2AddrDb.lookup fp = some a → a.stat = .cacheDeltaChunk →
    s.srv.fp2AddrDb.lookup fp = some a ∨
      (x.fp cfg ∉ s.srv.fp2AddrDb ∧ known ∧
        a.baseFp = x.chosenBase cfg s.informCache addr ∧ a.baseFp ∈ s.srv.fp2AddrDb)

theorem chunkDone_kept (hlaw : Laws cfg U) {m m' : CacheMeta} {s s' : UploadState} {x : PlainChunk}
    {addr : KeyForChunkHashDB} (hx : U x) (hst : LogOk cfg log s.srv.storageCore)
    (hrec : Records cfg U log s.srv) (ho : OpenOk cfg log s.srv.storageCore s.cur.curContainer)
    (hc : CacheOk s.srv.storageCore s.cur.containerCache)
    (hread : ∀ {fp a}, s.srv.fp2AddrDb.lookup fp = some a →
      Readable s.srv.storageCore s.cur a.containerId)
    (hcache : CacheHolds cfg U s.srv s.informCache)
    (hsends : x.fp cfg ∉ s.srv.fp2AddrDb →
      (∃ f ∈ (x.features cfg).toList, f ∈ m.feature2VersionIdx) →
      s.informCache.getCacheSize ≠ 0)
    (hd : ChunkDone cfg m s x addr m' s') :
    ∃ log', ChunkKept cfg U log log' s s' x ∧
      NewRecord cfg s s' x addr (∃ f ∈ (x.features cfg).toList, f ∈ m.feature2VersionIdx) := by
  cases hd with
  | pairOld hq hm =>
      refine ⟨log, ⟨Evolves.refl hst ho hc, hrec, Or.inl, fun h => h, hm, ?_⟩,
        fun fp a ha _ => Or.inl ha⟩
      exact hcache.insert hx hm addr
  | pairNew hq hm hw =>
      obtain ⟨hic, log', addr', hs⟩ := runWriter_stores hlaw.freshIds hst ho hc hw
      obtain ⟨hrec', hform⟩ := hrec.pair hlaw.deltaRoundTrip hlaw.deltaNonempty hlaw.encNonempty hx
        hm hread hs
      refine ⟨log', chunkKept_of_stores hm rfl hs hrec' hic ?_, ?_⟩
      · intro srv' hk hself
        exact (hcache.mono hk).insert hx hself addr
      · intro fp a ha hstat
        have hl := lookup_entered hs rfl fp
        rw [ha] at hl
        split at hl
        · cases hl; exact absurd hstat hform
        · exact Or.inl hl.symm
  | singleOld hq hm =>
      exact ⟨log, ⟨Evolves.refl hst ho hc, hrec, Or.inl, fun h => h, hm, hcache⟩,
        fun fp a ha _ => Or.inl ha⟩
  | singleDelta hq hm hf hb hv hdata he hw =>
      obtain ⟨hic, log', addr', hs⟩ := runWriter_stores hlaw.freshIds hst ho hc
        (show UploadState.runWriter cfg (UploadState.placeholder
          { s with informCache := s.informCache } (x.fp cfg) addr) _ = _ from hw)
      obtain ⟨y, hy, hyfp, rfl⟩ := hcache.data hdata
      have hknown := hcache.known _ (Index.mem_of_lookup hdata)
      rw [← hyfp] at hs hknown
      obtain ⟨hrec', hbase⟩ := hrec.cacheDelta hlaw.deltaRoundTrip hlaw.deltaNonempty hx hm hy hknown
        he hs
      refine ⟨log', chunkKept_of_stores hm rfl hs hrec' hic fun srv' hk _ => hcache.mono hk, ?_⟩
      intro fp a ha hstat
      have hl := lookup_entered hs rfl fp
      rw [ha] at hl
      split at hl
      · cases hl
        refine Or.inr ⟨hm, hq, ?_, ?_⟩
        · rw [hbase, hyfp, hv]
        · rw [hbase]
          exact hknown
      · exact Or.inl hl.symm
  | singlePlain hq hm h0 hw => exact absurd h0 (hsends hm hq)

theorem ChunkKept.known {s s' : UploadState} {x : PlainChunk}
    (h : ChunkKept cfg U log log' s s' x) : ∀ fp ∈ s.srv.fp2AddrDb, fp ∈ s'.srv.fp2AddrDb := by
  intro fp hm
  obtain ⟨a, ha⟩ := Index.lookup_isSome_of_mem hm
  exact Index.mem_of_lookup (h.final ha)

/-- Deltas against cached bases are of one level: the base has another form. -/
def OneLevelRecords (srv : Server) : Prop :=
  ∀ {fp addr}, srv.fp2AddrDb.lookup fp = some addr → addr.stat = .cacheDeltaChunk →
    ∃ baseAddr, srv.fp2AddrDb.lookup addr.baseFp = some baseAddr ∧
      baseAddr.stat ≠ .cacheDeltaChunk

/-- A running upload may change its cache, and what is not looked at here. -/
theorem Inv.inSession (h : Inv cfg U log w) {t t' : Session} (hs : w.session = some t)
    (hcur : t'.cur = t.cur)
    (hrecipe : (t'.fileRecipe, t'.keyRecipe, t'.chunks) = (t.fileRecipe, t.keyRecipe, t.chunks))
    (hc : CacheHolds cfg U w.srv t'.informCache) :
    Inv cfg U log { w with session := some t' } :=
  { h with
    openOk := fun ht => by cases ht; rw [hcur]; exact h.openOk hs
    cacheOk := fun ht => by cases ht; rw [hcur]; exact h.cacheOk hs
    placed := by
      intro fp addr hl
      rcases h.placed hl with hm | ⟨u, hu, hid⟩
      · exact Or.inl hm
      · rw [hs] at hu
        cases hu
        exact Or.inr ⟨t', rfl, by rw [hcur]; exact hid⟩
    cached := fun ht => by cases ht; exact hc
    sending := fun ht => by
      cases ht
      have hsent := h.sending hs
      obtain ⟨hf, hrecipe⟩ := Prod.mk.inj hrecipe
      obtain ⟨hk, hx⟩ := Prod.mk.inj hrecipe
      rw [hf, hk, hx]
      exact hsent }

/-- No record changes. -/
def RecordsFinal (srv srv' : Server) : Prop :=
  ∀ {fp addr}, srv.fp2AddrDb.lookup fp = some addr → srv'.fp2AddrDb.lookup fp = some addr

/-- What one action keeps, and the deltas it leaves of one level. -/
theorem inv_step (hlaw : Laws cfg U) (h : Inv cfg U log w) (hg : Sends cfg U w a)
    (hs : Stepped cfg w a w') :
    ∃ log', Inv cfg U log' w' ∧ RecordsFinal w.srv w'.srv ∧
      (OneLevel cfg w a → OneLevelRecords w.srv → OneLevelRecords w'.srv) := by
  cases hs with
  | login c hs =>
      obtain ⟨hlog, hopen, hcache, hfiles, -⟩ := openClient_spec hlaw.freshIds h.logOk
      refine ⟨log, ?_, fun hl => hl, fun _ hone => hone⟩
      exact
        { logOk := hlog
          records := h.records.congr rfl rfl
          openOk := fun ht => by cases ht; exact hopen
          cacheOk := fun ht => by cases ht; exact hcache
          placed := by
            intro fp addr hl
            rcases h.placed hl with hm | ⟨t, ht, -⟩
            · exact Or.inl hm
            · rw [hs] at ht; exact nomatch ht
          cached := fun ht => by cases ht; exact (h.resting c).mono fun _ hm => hm
          resting := fun c => (h.resting c).mono fun _ hm => hm
          sending := fun ht => by
            cases ht
            exact ⟨[], fun _ hx => absurd hx List.not_mem_nil, rfl, rfl, rfl⟩
          files := fun file hf => (h.files file hf).mono fun _ hm => hm }
  | @chunk t m s x addr hs hp hd =>
      obtain ⟨hx, hserves⟩ := hg
      have hread : ∀ {fp a}, w.srv.fp2AddrDb.lookup fp = some a →
          Readable w.srv.storageCore t.cur a.containerId := by
        intro fp a hl
        rcases h.placed hl with hm | ⟨t', ht, hid⟩
        · exact Or.inl hm
        · rw [hs] at ht; cases ht; exact Or.inr hid
      obtain ⟨log', hk, hnew⟩ := chunkDone_kept hlaw hx h.logOk h.records (h.openOk hs)
        (h.cacheOk hs) hread (h.cached hs) (fun hm hq => hserves t hs ⟨hm, hq⟩) hd
      refine ⟨log', ?_, hk.final, ?_⟩
      · exact
          { logOk := hk.evolves.logOk
            records := hk.records
            openOk := fun ht => by cases ht; exact hk.evolves.openOk
            cacheOk := fun ht => by cases ht; exact hk.evolves.cacheOk
            placed := by
              intro fp a hl
              have hr : Readable s.srv.storageCore s.cur a.containerId := by
                rcases hk.placed hl with hl | hr
                · exact hk.evolves.readable (hread hl)
                · exact hr
              rcases hr with hm | hid
              · exact Or.inl hm
              · exact Or.inr ⟨_, rfl, hid⟩
            cached := fun ht => by cases ht; exact hk.cached
            resting := fun c => (h.resting c).mono hk.known
            sending := fun ht => by
              cases ht
              exact ((h.sending hs).mono hk.known).snoc hx hk.sent
            files := fun file hf => (h.files file hf).mono hk.known }
      · intro hone hrec fp a hl hstat
        rcases hnew fp a hl hstat with hl | ⟨hm, hq, hbase, hbm⟩
        · obtain ⟨b, hb, hbs⟩ := hrec hl hstat
          exact ⟨b, hk.final hb, hbs⟩
        · obtain ⟨b, hb⟩ := Index.lookup_isSome_of_mem hbm
          refine ⟨b, hk.final hb, hone t hs ⟨hm, hq⟩ b ?_⟩
          show w.srv.fp2AddrDb.lookup (x.chosenBase cfg (w.uploadState t).informCache addr) = some b
          rw [← hbase]
          exact hb
  | recipeEnd hs hp =>
      have hcache := h.cached hs
      exact ⟨log, h.inSession hs rfl rfl hcache, fun hl => hl, fun _ hone => hone⟩
  | evict f hs hp hf hb =>
      have hcache := h.cached hs
      refine ⟨log, h.inSession hs rfl rfl ?_, fun hl => hl, fun _ hone => hone⟩
      cases hb with
      | kept => exact hcache
      | sent he => exact hcache.evict he
  | evictEnd hs hp hb =>
      exact ⟨log, h.inSession hs rfl rfl ((h.cached hs).evict hb), fun hl => hl,
        fun _ hone => hone⟩
  | @logout t metaOrder cntOrder idxOrder hs hp hm hc hi =>
      obtain ⟨hlog, hkeep, -, htail, -⟩ := saveTail_spec h.logOk (h.openOk hs)
      refine ⟨log, ?_, fun hl => hl, fun _ hone => hone⟩
      exact
        { logOk := hlog
          records := h.records.congr rfl rfl
          openOk := fun ht => nomatch ht
          cacheOk := fun ht => nomatch ht
          placed := by
            intro fp addr hl
            refine Or.inl ?_
            rcases h.placed hl with hm | ⟨t', ht, hid⟩
            · exact Keeps.mem hkeep hm
            · rw [hs] at ht
              cases ht
              rcases htail with ht | ht
              · exact hid ▸ ht
              · refine absurd ?_ (h.records.solid hl)
                rw [Extent.read, show addr.extent.seg = t.cur.curContainer.id from hid.symm, ht]
                simp [slice]
          cached := fun ht => nomatch ht
          resting := by
            intro c
            by_cases hid : c = t.clientId
            · subst hid
              simp only [Function.update_self]
              exact ((h.cached hs).stored hc).mono fun _ hm => hm
            · simp only [Function.update_of_ne hid]
              exact (h.resting c).mono fun _ hm => hm
          sending := fun ht => nomatch ht
          files := by
            intro file hf
            rcases List.mem_append.mp hf with hf | hf
            · exact (h.files file hf).mono fun _ hm => hm
            · cases List.mem_singleton.mp hf
              exact (h.sending hs).mono fun _ hm => hm }
  | download c file garbage cntOrder idxOrder hs hm hd hc hi =>
      refine ⟨log, ?_, fun hl => hl, fun _ hone => hone⟩
      exact
        { h with
          resting := by
            intro c'
            by_cases hid : c' = c
            · subst hid
              simp only [Function.update_self]
              exact (h.resting c').stored hc
            · simp only [Function.update_of_ne hid]
              exact h.resting c' }

/-- Between sessions everything recorded has its file. -/
theorem Inv.allSaved (h : Inv cfg U log w) (hs : w.session = none) : AllSaved w.srv := by
  intro fp addr hl
  rcases h.placed hl with hm | ⟨t, ht, -⟩
  · exact hm
  · rw [hs] at ht
    exact nomatch ht

/-- The invariant along a run, and the deltas of one level if every base picked
has another form. -/
theorem inv_reach (hlaw : Laws cfg U)
    (h : Reach (step cfg) (fun w a => Sends cfg U w a ∧ OneLevel cfg w a) init w) :
    (∃ log, Inv cfg U log w) ∧ OneLevelRecords w.srv := by
  refine h.inv (fun w => (∃ log, Inv cfg U log w) ∧ OneLevelRecords w.srv) ⟨⟨_, inv_init⟩, ?_⟩ ?_
  · intro fp addr hl
    simp [init, Server.empty] at hl
  · rintro w a w' ⟨⟨log, hi⟩, hone⟩ ⟨hg, hlevel⟩ ha
    obtain ⟨log', hi', -, hone'⟩ := inv_step hlaw hi hg (step_stepped ha)
    exact ⟨⟨log', hi'⟩, hone' hlevel hone⟩

/-! ## Downloads -/

/-- Every file stored in a run whose chunks all have one key, and whose cached
bases all have a record of another form, is downloaded chunk for chunk: at any
later point between sessions, by any client id, whatever its cache still holds. -/
theorem stored_files_restored (hlaw : Laws cfg U) {key : Key} (hkey : ∀ x, U x → x.key = key)
    (h : Reach (step cfg) (fun w a => Sends cfg U w a ∧ OneLevel cfg w a) init w)
    (hs : w.session = none) {file : StoredFile} (hf : file ∈ w.files) (c : ClientId)
    (garbage : Container) : w.downloadFile cfg c file garbage = .ok file.chunks := by
  obtain ⟨⟨log, hi⟩, hone⟩ := inv_reach hlaw h
  obtain ⟨xs, hxs, hfps, hkeys, hchunks⟩ := hi.files file hf
  have hserves : ∀ x ∈ xs, U x ∧ x.fp cfg ∈ w.srv.fp2AddrDb ∧
      ∀ addr ∈ w.srv.fp2AddrDb.lookup (x.fp cfg), BaseServes cfg U w.srv addr x.key := by
    intro x hx
    refine ⟨(hxs x hx).1, (hxs x hx).2, ?_⟩
    intro addr hl hstat
    obtain ⟨baseAddr, hbl, hbs⟩ := hone hl hstat
    obtain ⟨y, hy, hyfp, -⟩ := hi.records.held hbl
    refine ⟨⟨y, hy, hyfp, ?_⟩, ?_⟩
    · rw [hkey y hy, hkey x (hxs x hx).1]
    · intro a ha
      rw [hbl] at ha
      cases ha
      exact hbs
  obtain ⟨entries, cur', heq, hfull⟩ := restoreFile_chunks hlaw.toRestorable hi.records hi.logOk
    (hi.allSaved hs) (hi.resting c) xs (StorageCore.openReader cfg garbage) (cacheOk_new cfg _) hserves
  rw [downloadFile, hfps, heq, ok_bind, hkeys, hfull, hchunks]

/-! ### Runs on plain components -/

/-- A chunk under the one key of the runs below. -/
def plainChunk (data : Bytes) : PlainChunk := ⟨data, [9], 0⟩

theorem plain_laws (U : PlainChunk → Prop) : Laws Components.plain U where
  collisionFree := by
    intro x y _ _ h
    -- both halves of the fingerprint are in it, and their lengths differ by one
    have hcat : x.enc Components.plain ++ x.comp Components.plain =
        y.enc Components.plain ++ y.comp Components.plain := h
    have hlen : ∀ z : PlainChunk, (z.comp Components.plain).length =
        (z.enc Components.plain).length + 1 := by
      intro z
      simp [PlainChunk.comp, PlainChunk.enc, Components.plain]
      omega
    have htot := congrArg List.length hcat
    rw [List.length_append, List.length_append, hlen, hlen] at htot
    exact List.append_inj hcat (by omega)
  enc := Components.plain_encRoundTrip
  comp := Components.plain_compRoundTrip
  freshIds := Components.plain_freshIds
  deltaRoundTrip := Components.plain_deltaRoundTrip
  deltaNonempty := Components.plain_deltaNonempty
  encNonempty := Components.plain_encNonempty

/-- The fingerprint of a chunk of the runs below. -/
def plainFp (data : Bytes) : Fp := (plainChunk data).fp Components.plain

/-- An upload of client 0 of these chunks, and what both sides store at its end. -/
def upload (chunks : List Bytes) (metaOrder : List (Feature × Nat)) (cntOrder : List (Fp × Nat))
    (idxOrder : List (Feature × Fp)) : List Action :=
  .login 0 :: chunks.map (fun data => .chunk data [9] 0 ⟨.uniqueChunk, [], 0, 0, []⟩) ++
    [.recipeEnd, .evictEnd, .logout metaOrder cntOrder idxOrder]

/-- An empty upload of client 0, which evicts the three features. -/
def evictAll : List Action :=
  [.login 0, .recipeEnd, .evict 5, .evict 261, .evict 517, .evictEnd, .logout [] [] []]

/-- `[10, 5]` is cached and `[11, 5]` stored as a delta against it; once both are
evicted, `[11, 5]` is sent again and cached, and `[12, 5]` stored as a delta
against it; then this base is evicted too. -/
def chainActions : List Action :=
  upload [[10, 5], [11, 5]] [(5, 1), (261, 1), (517, 1)] [(plainFp [10, 5], 3)]
      [(5, plainFp [10, 5]), (261, plainFp [10, 5]), (517, plainFp [10, 5])] ++ evictAll ++
    upload [[11, 5], [12, 5]] [(5, 3), (261, 3), (517, 3)] [(plainFp [11, 5], 3)]
      [(5, plainFp [11, 5]), (261, plainFp [11, 5]), (517, plainFp [11, 5])] ++ evictAll

def chainEnd : World := endOf (step Components.plain) init chainActions

/-- The second chunk of the third file comes back as the delta it is stored as. -/
theorem chained_delta_lost :
    Laws Components.plain (fun x => x.key = [9]) ∧
    Reach (step Components.plain) (Sends Components.plain fun x => x.key = [9]) init chainEnd ∧
    chainEnd.session = none ∧
    ∃ file ∈ chainEnd.files, file.chunks = [[11, 5], [12, 5]] ∧
      chainEnd.downloadFile Components.plain 0 file ⟨[1], []⟩ =
        .ok [[11, 5], [3, 4, 1, 9, 12, 5]] := by
  refine ⟨plain_laws _, endOf_reach (by decide +kernel) (by decide +kernel), ?_, ?_⟩
  · exact Option.isNone_iff_eq_none.mp (by decide +kernel)
  · exact ⟨⟨[plainFp [11, 5], plainFp [12, 5]], [[9], [9]], [[11, 5], [12, 5]]⟩,
      by decide +kernel, rfl, by decide +kernel⟩

/-- `[11, 5]` is stored as a delta against the cached `[10, 5]`, which is then
evicted. -/
def restoredActions : List Action :=
  upload [[10, 5], [11, 5]] [(5, 1), (261, 1), (517, 1)] [(plainFp [10, 5], 3)]
      [(5, plainFp [10, 5]), (261, plainFp [10, 5]), (517, plainFp [10, 5])] ++ evictAll

def restoredEnd : World := endOf (step Components.plain) init restoredActions

theorem stored_files_restored_sample :
    restoredEnd.downloadFile Components.plain 0
        ⟨[plainFp [10, 5], plainFp [11, 5]], [[9], [9]], [[10, 5], [11, 5]]⟩ ⟨[1], []⟩ =
      .ok [[10, 5], [11, 5]] := by
  have hreach : Reach (step Components.plain)
      (fun w a => Sends Components.plain (fun x => x.key = [9]) w a ∧ OneLevel Components.plain w a)
      init restoredEnd := endOf_reach (by decide +kernel) (by decide +kernel)
  exact stored_files_restored (plain_laws _) (fun _ h => h) hreach
    (Option.isNone_iff_eq_none.mp (by decide +kernel)) (by decide +kernel) 0 ⟨[1], []⟩

end World

end EDRStore
