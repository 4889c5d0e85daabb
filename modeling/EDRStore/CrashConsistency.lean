/-
# `EDRStore.CrashConsistency` — what a dead server costs

Every file that is complete comes back after any run of `Restarts`, as
long as each base that a new chunk is delta-encoded against has a record, of
another form (`files_restored`).  A crash makes cached bases without one: a chunk
sent again after it can be stored as a delta against itself
(`crash_loses_chunk`).

The files of the last shutdown need no such care afterwards
(`saved_files_restored`): a record refers to records only that were there when it
was made, so what the index files hold is restored by itself (`AtRest`), among
records and cached bases of whatever kind.

All of this with as many keys as the chunks have features: chunks that share a
feature share the key.
-/
import EDRStore.Restarts

namespace EDRStore

variable {cfg : Components} {U : PlainChunk → Prop} {log log' : Content} {srv srv' : Server}

/-! ## Records that can be restored at any time -/

/-- Chunks that share a feature are under one key. -/
def SimilarKeys (cfg : Components) (U : PlainChunk → Prop) : Prop :=
  ∀ {x y}, U x → U y → ∀ {f}, f ∈ (x.features cfg).toList → f ∈ (y.features cfg).toList →
    x.key = y.key

/-- A delta against a cached base can be undone without the cache: the base was sent
under the same key and has a record of another form. -/
def Served (cfg : Components) (U : PlainChunk → Prop) (srv : Server) : Prop :=
  ∀ fp addr, srv.fp2AddrDb.lookup fp = some addr → addr.stat = .cacheDeltaChunk →
    (∃ x y, U x ∧ x.fp cfg = fp ∧ U y ∧ y.fp cfg = addr.baseFp ∧ x.key = y.key) ∧
    ∃ baseAddr, srv.fp2AddrDb.lookup addr.baseFp = some baseAddr ∧
      baseAddr.stat ≠ .cacheDeltaChunk

theorem served_empty : Served cfg U Server.empty := by
  intro fp addr hl
  exact absurd (Index.mem_of_lookup hl) Finmap.notMem_empty

/-- One more record, which is no such delta or has its base among the old ones. -/
theorem Served.add (h : Served cfg U srv) {fp' : Fp} {addr' : KeyForChunkHashDB}
    (hnew : fp' ∉ srv.fp2AddrDb)
    (hl : ∀ fp, srv'.fp2AddrDb.lookup fp = if fp = fp' then some addr' else
      srv.fp2AddrDb.lookup fp)
    (hbase : addr'.stat = .cacheDeltaChunk →
      (∃ x y, U x ∧ x.fp cfg = fp' ∧ U y ∧ y.fp cfg = addr'.baseFp ∧ x.key = y.key) ∧
      ∃ baseAddr, srv.fp2AddrDb.lookup addr'.baseFp = some baseAddr ∧
        baseAddr.stat ≠ .cacheDeltaChunk) : Served cfg U srv' := by
  have hkeep : ∀ {fp a}, srv.fp2AddrDb.lookup fp = some a → srv'.fp2AddrDb.lookup fp = some a := by
    intro fp a ha
    rw [hl, if_neg]
    · exact ha
    · rintro rfl
      exact hnew (Index.mem_of_lookup ha)
  intro fp addr ha hs
  rw [hl] at ha
  split at ha
  · rename_i hfp
    obtain rfl := hfp
    cases ha
    obtain ⟨hkey, b, hb, hbs⟩ := hbase hs
    exact ⟨hkey, b, hkeep hb, hbs⟩
  · obtain ⟨hkey, b, hb, hbs⟩ := h fp addr ha hs
    exact ⟨hkey, b, hkeep hb, hbs⟩

/-- What a restore of the chunk `z` asks of its record. -/
theorem Served.base (h : Served cfg U srv) (hkeys : SimilarKeys cfg U) (hcf : CollisionFree cfg U)
    {z : PlainChunk} (hz : U z) {addr : KeyForChunkHashDB}
    (hl : srv.fp2AddrDb.lookup (z.fp cfg) = some addr) : BaseServes cfg U srv addr z.key := by
  intro hs
  obtain ⟨⟨x, y, hx, hfp, hy, hyfp, hkey⟩, b, hb, hbs⟩ := h _ addr hl hs
  refine ⟨⟨y, hy, hyfp, ?_⟩, ?_⟩
  · -- `x` and `z` have one ciphertext, and so the same features
    have hfeat : x.features cfg = z.features cfg := congrArg cfg.extractFeature (hcf hx hz hfp).1
    have hmem : (z.features cfg).sf0 ∈ (z.features cfg).toList := List.mem_cons_self
    exact hkey.symm.trans (hkeys hx hz (hfeat ▸ hmem) hmem)
  · intro a ha
    obtain rfl := Option.some.inj (hb.symm.trans ha)
    exact hbs

/-- Records keep while the log grows. -/
theorem Records.grow (h : Records cfg U log srv) (hgrow : Grows log log') :
    Records cfg U log' srv where
  features := h.features
  within := fun hl => Extent.within_of_grows hgrow (h.within hl)
  solid := by
    intro fp addr hl
    rw [Extent.read_of_grows hgrow (h.within hl)]
    exact h.solid hl
  held := by
    intro fp addr hl
    obtain ⟨x, hx, hfp, hh⟩ := h.held hl
    exact ⟨x, hx, hfp, hh.mono hgrow (fun h => h) h.within (h.within hl)⟩

/-- A server between two sessions, from which all of `files` can be restored. -/
structure AtRest (cfg : Components) (U : PlainChunk → Prop) (log : Content) (srv : Server)
    (files : List StoredFile) : Prop where
  records : Records cfg U log srv
  served : Served cfg U srv
  saved : AllSaved srv
  files : ∀ file ∈ files,
    World.Uploaded cfg U srv file.fileRecipe file.keyRecipe file.chunks

/-- It stays so among containers that are only added to. -/
theorem AtRest.onward {files : List StoredFile} (h : AtRest cfg U log srv files)
    (hgrow : Grows log log') (hkeep : Keeps srv.storageCore srv'.storageCore)
    (hdb : srv'.fp2AddrDb = srv.fp2AddrDb) (hf : srv'.feature2FpDb = srv.feature2FpDb) :
    AtRest cfg U log' srv' files where
  records := (h.records.grow hgrow).congr hdb hf
  served := by
    intro fp addr hl hs
    rw [hdb] at hl ⊢
    exact h.served fp addr hl hs
  saved := by
    intro fp addr hl
    rw [hdb] at hl
    exact Keeps.mem hkeep (h.saved hl)
  files := by
    intro file hfile
    refine (h.files file hfile).mono fun fp hm => ?_
    rw [hdb]
    exact hm

/-! ## A download looks at the records it needs only -/

/-- Two servers that agree on what is restored. -/
structure Agree (srv srv' : Server) (c c' : InformCache) : Prop where
  store : srv'.storageCore = srv.storageCore
  index : ∀ fp ∈ srv.fp2AddrDb, srv'.fp2AddrDb.lookup fp = srv.fp2AddrDb.lookup fp
  exist : ∀ fp ∈ srv.fp2AddrDb, c'.isBaseChunkExist fp = c.isBaseChunkExist fp
  data : ∀ fp ∈ srv.fp2AddrDb, c'.base2DataDb.lookup fp = c.base2DataDb.lookup fp
  /-- A delta has its base there too. -/
  closed : ∀ {fp addr}, srv.fp2AddrDb.lookup fp = some addr →
    addr.stat = .compDeltaChunk ∨ addr.stat = .cacheDeltaChunk → addr.baseFp ∈ srv.fp2AddrDb

namespace Agree

variable {c c' : InformCache} {cur : ClientStore}

theorem readInto (h : Agree srv srv' c c') (addr : KeyForChunkHashDB) (cur : ClientStore) :
    DataReaderThd.readInto cfg srv' addr cur = DataReaderThd.readInto cfg srv addr cur := by
  unfold DataReaderThd.readInto
  rw [h.store]

theorem procCacheDeltaChunk (h : Agree srv srv' c c') {addr : KeyForChunkHashDB}
    (hm : addr.baseFp ∈ srv.fp2AddrDb) :
    DataReaderThd.procCacheDeltaChunk cfg srv' c' addr cur =
      DataReaderThd.procCacheDeltaChunk cfg srv c addr cur := by
  unfold DataReaderThd.procCacheDeltaChunk InformCache.fetchBaseChunk
  rw [h.exist _ hm, h.data _ hm, h.index _ hm]
  split
  · rfl
  · obtain ⟨baseAddr, hbl⟩ := Index.lookup_isSome_of_mem hm
    rw [hbl, orExit_some, ok_bind, ok_bind]
    cases hs : baseAddr.stat with
    | compDeltaChunk =>
        have hbb := h.closed hbl (Or.inl hs)
        simp only [h.readInto, h.index _ hbb]
    | _ => simp only [h.readInto]

theorem restoreChunk (h : Agree srv srv' c c') {fp : Fp} (hm : fp ∈ srv.fp2AddrDb) :
    DataDecoderThd.restoreChunk cfg srv' c' fp cur =
      DataDecoderThd.restoreChunk cfg srv c fp cur := by
  obtain ⟨addr, hl⟩ := Index.lookup_isSome_of_mem hm
  unfold DataDecoderThd.restoreChunk DataReaderThd.fetchChunk
  rw [h.index _ hm, hl, orExit_some, ok_bind, ok_bind, h.readInto]
  cases hs : addr.stat with
  | compDeltaChunk =>
      have hb := h.closed hl (Or.inl hs)
      simp only [DataReaderThd.procNormalDeltaChunk, h.index _ hb, h.readInto]
  | cacheDeltaChunk =>
      have hb := h.closed hl (Or.inr hs)
      simp only [h.procCacheDeltaChunk hb]
  | _ => rfl

theorem restoreFile (h : Agree srv srv' c c') {fps : List Fp} :
    ∀ {cur : ClientStore}, (∀ fp ∈ fps, fp ∈ srv.fp2AddrDb) →
      World.restoreFile cfg srv' c' cur fps = World.restoreFile cfg srv c cur fps := by
  induction fps with
  | nil => intro cur _; rfl
  | cons fp fps ih =>
      intro cur hm
      have hrest : ∀ fp ∈ fps, fp ∈ srv.fp2AddrDb := fun fp' h' => hm fp' (List.mem_cons_of_mem _ h')
      unfold World.restoreFile
      rw [h.restoreChunk (hm fp List.mem_cons_self)]
      cases DataDecoderThd.restoreChunk cfg srv c fp cur with
      | error e => rfl
      | ok r =>
          rw [ok_bind, ok_bind, ih hrest]

end Agree

/-- The bases of a cache that `srv` has a record of. -/
def InformCache.within (c : InformCache) (srv : Server) : InformCache :=
  { c with
    base2CntIdx := c.base2CntIdx.filter fun fp _ => fp ∈ srv.fp2AddrDb
    base2DataDb := c.base2DataDb.filter fun fp _ => fp ∈ srv.fp2AddrDb }

theorem InformCache.lookup_within {V : Type} (m : Index Fp V) (fp : Fp) :
    (m.filter fun fp _ => fp ∈ srv.fp2AddrDb).lookup fp =
      if fp ∈ srv.fp2AddrDb then m.lookup fp else none := by
  rw [Index.lookup_filter]
  cases m.lookup fp with
  | none => simp
  | some v => by_cases hm : fp ∈ srv.fp2AddrDb <;> simp [hm]

theorem CacheSent.within {c : InformCache} (h : CacheSent cfg U c) (srv : Server) :
    CacheHolds cfg U srv (c.within srv) := by
  obtain ⟨srv', hold⟩ := h.held
  refine ⟨?_, ?_, ?_⟩
  · intro fp d hl
    rw [InformCache.within, InformCache.lookup_within] at hl
    split at hl
    · exact hold.data hl
    · cases hl
  · intro fp hm
    obtain ⟨d, hl⟩ := Index.lookup_isSome_of_mem hm
    rw [InformCache.within, InformCache.lookup_within] at hl
    split at hl
    · assumption
    · cases hl
  · intro fp hm
    obtain ⟨cnt, hl⟩ := Index.lookup_isSome_of_mem hm
    rw [InformCache.within, InformCache.lookup_within] at hl
    split at hl
    · rename_i hknown
      rw [Index.mem_iff_lookup, InformCache.within, InformCache.lookup_within, if_pos hknown]
      exact Index.lookup_isSome_of_mem (hold.kept fp (Index.mem_of_lookup hl))
    · cases hl

/-- The records of `srv` among others, with any cache of what was sent. -/
theorem AtRest.agree {files : List StoredFile} (h : AtRest cfg U log srv files) {c : InformCache}
    (hstore : srv'.storageCore = srv.storageCore) (hfinal : World.RecordsFinal srv srv') :
    Agree srv srv' (c.within srv) c where
  store := hstore
  index := by
    intro fp hm
    obtain ⟨addr, hl⟩ := Index.lookup_isSome_of_mem hm
    rw [hl]
    exact hfinal hl
  exist := by
    intro fp hm
    unfold InformCache.isBaseChunkExist InformCache.within
    rw [InformCache.lookup_within, if_pos hm]
  data := by
    intro fp hm
    rw [InformCache.within, InformCache.lookup_within, if_pos hm]
  closed := by
    intro fp addr hl hs
    obtain ⟨x, -, -, hh⟩ := h.records.held hl
    cases hh with
    | base hs' =>
        rw [hs'] at hs
        rcases hs with hs | hs <;> cases hs
    | delta _ hbl => exact Index.mem_of_lookup hbl
    | cacheDelta _ _ hb hk =>
        rw [hb]
        exact hk

/-- A file that can be restored comes back chunk for chunk, among whatever other
records and cached bases. -/
theorem AtRest.restore {files : List StoredFile} (hlaw : World.Laws cfg U) (hkeys : SimilarKeys cfg U)
    (h : AtRest cfg U log srv files) (hst : LogOk cfg log srv'.storageCore) {c : InformCache}
    (hc : CacheSent cfg U c) (hstore : srv'.storageCore = srv.storageCore)
    (hfinal : World.RecordsFinal srv srv') {file : StoredFile} (hf : file ∈ files)
    (garbage : Container) :
    (do
      let r ← World.restoreFile cfg srv' c (StorageCore.openReader cfg garbage) file.fileRecipe
      DataRetrieverThd.fullEDR cfg file.keyRecipe r.1) = .ok file.chunks := by
  obtain ⟨xs, hxs, hfps, hks, hchunks⟩ := h.files file hf
  rw [hstore] at hst
  have hserves : ∀ x ∈ xs, U x ∧ x.fp cfg ∈ srv.fp2AddrDb ∧
      ∀ addr ∈ srv.fp2AddrDb.lookup (x.fp cfg), BaseServes cfg U srv addr x.key :=
    fun x hx => ⟨(hxs x hx).1, (hxs x hx).2,
      fun _ hl => h.served.base hkeys hlaw.collisionFree (hxs x hx).1 hl⟩
  obtain ⟨entries, cur', heq, hfull⟩ := restoreFile_chunks hlaw.toRestorable h.records hst h.saved
    (hc.within srv) xs (StorageCore.openReader cfg garbage) (cacheOk_new cfg _) hserves
  have hagree : Agree srv srv' (c.within srv) c := h.agree hstore hfinal
  have hknown : ∀ fp ∈ xs.map (PlainChunk.fp cfg), fp ∈ srv.fp2AddrDb := by
    intro fp hm
    obtain ⟨x, hx, rfl⟩ := List.mem_map.mp hm
    exact (hxs x hx).2
  rw [hfps, hagree.restoreFile hknown, heq, ok_bind, hks, hfull, hchunks]

/-! ## Runs in which no base is lost -/

/-- The base a new chunk is delta-encoded against has a record, of another form. -/
theorem ChunkStored.intact (hlaw : World.Laws cfg U) (hkeys : SimilarKeys cfg U) {m : CacheMeta}
    {s s' : UploadState} {x : PlainChunk} {addr : KeyForChunkHashDB} (hx : U x)
    (hcache : CacheSent cfg U s.informCache) (hrec : Records cfg U log s.srv)
    (hserved : Served cfg U s.srv)
    (hread : ∀ {fp a}, s.srv.fp2AddrDb.lookup fp = some a →
      Readable s.srv.storageCore s.cur a.containerId)
    (hbase : x.fp cfg ∉ s.srv.fp2AddrDb →
      (∃ f ∈ (x.features cfg).toList, f ∈ m.feature2VersionIdx) →
      s.informCache.getCacheSize ≠ 0 ∧
        ∃ baseAddr ∈ s.srv.fp2AddrDb.lookup (x.chosenBase cfg s.informCache addr),
          baseAddr.stat ≠ .cacheDeltaChunk)
    (h : ChunkStored cfg log m s x addr log' s') :
    Records cfg U log' s'.srv ∧ Served cfg U s'.srv := by
  cases h with
  | known hm hsrv hcur =>
      rw [hsrv]
      exact ⟨hrec, hserved⟩
  | pair hm hs =>
      obtain ⟨hrec', hform⟩ := hrec.pair hlaw.deltaRoundTrip hlaw.deltaNonempty hlaw.encNonempty hx
        hm hread hs
      exact ⟨hrec', hserved.add hm (lookup_entered hs rfl) fun hstat => absurd hstat hform⟩
  | @delta _ _ addr' f base data delta hm hq hf hb hv hd he hs =>
      obtain ⟨-, baseAddr, hbl, hbs⟩ := hbase hm hq
      rw [hv] at hbl
      obtain ⟨srv, hold⟩ := hcache.held
      obtain ⟨y, hy, rfl, rfl⟩ := hold.data hd
      obtain ⟨hrec', hbase'⟩ := hrec.cacheDelta hlaw.deltaRoundTrip hlaw.deltaNonempty hx hm hy
        (Index.mem_of_lookup hbl) he hs
      refine ⟨hrec', hserved.add hm (lookup_entered hs rfl) fun _ => ?_⟩
      rw [hbase']
      obtain ⟨z, hz, hzfp, hzf⟩ := hcache.features hb
      exact ⟨⟨x, z, hx, rfl, hz, hzfp, hkeys hx hz hf hzf⟩, baseAddr, hbl, hbs⟩
  | plain hm hq h0 hs => exact absurd h0 (hbase hm hq).1

namespace World

variable {w w' : World} {a : Action}

/-- The chunk sent is one of `U`; if it is new and the client knows one of its
features, the cached base picked for it has a record that is no delta against a
cached base itself. -/
def BaseRecorded (cfg : Components) (U : PlainChunk → Prop) (w : World) (a : Action) : Prop :=
  a.OnChunk fun x addr => U x ∧ ∀ t ∈ w.session, NewSingle cfg w t x →
    t.informCache.getCacheSize ≠ 0 ∧
      ∃ baseAddr ∈ w.srv.fp2AddrDb.lookup (x.chosenBase cfg t.informCache addr),
        baseAddr.stat ≠ .cacheDeltaChunk

instance [DecidablePred U] (w : World) (a : Action) : Decidable (BaseRecorded cfg U w a) :=
  inferInstanceAs (Decidable (a.OnChunk _))

/-- What holds of the records and the uploads. -/
structure Intact (cfg : Components) (U : PlainChunk → Prop) (log : Content) (w : World) : Prop where
  records : Records cfg U log w.srv
  served : Served cfg U w.srv
  placed : ∀ {fp addr}, w.srv.fp2AddrDb.lookup fp = some addr →
    addr.containerId ∈ w.srv.storageCore.containers ∨
      ∃ t, w.session = some t ∧ t.cur.curContainer.id = addr.containerId
  sending : ∀ {t}, w.session = some t → Uploaded cfg U w.srv t.fileRecipe t.keyRecipe t.chunks
  files : ∀ file ∈ w.files, Uploaded cfg U w.srv file.fileRecipe file.keyRecipe file.chunks

theorem Intact.atRest (h : Intact cfg U log w) (hs : w.session = none) :
    AtRest cfg U log w.srv w.files where
  records := h.records
  served := h.served
  saved := by
    intro fp addr hl
    rcases h.placed hl with hm | ⟨t, ht, -⟩
    · exact hm
    · rw [hs] at ht
      cases ht
  files := h.files

theorem AtRest.intact (h : AtRest cfg U log w.srv w.files) (hs : w.session = none) :
    Intact cfg U log w where
  records := h.records
  served := h.served
  placed := fun hl => Or.inl (h.saved hl)
  sending := by
    intro t ht
    rw [hs] at ht
    cases ht
  files := h.files

/-- A running upload may change what is not looked at here. -/
theorem Intact.inSession (h : Intact cfg U log w) {t t' : Session} (hs : w.session = some t)
    (hcur : t'.cur = t.cur)
    (hrecipe : (t'.fileRecipe, t'.keyRecipe, t'.chunks) = (t.fileRecipe, t.keyRecipe, t.chunks)) :
    Intact cfg U log { w with session := some t' } :=
  { h with
    placed := by
      intro fp addr hl
      rcases h.placed hl with hm | ⟨u, hu, hid⟩
      · exact Or.inl hm
      · rw [hs] at hu
        cases hu
        exact Or.inr ⟨t', rfl, by rw [hcur]; exact hid⟩
    sending := fun ht => by
      cases ht
      obtain ⟨hf, hrecipe⟩ := Prod.mk.inj hrecipe
      obtain ⟨hk, hx⟩ := Prod.mk.inj hrecipe
      have hsent := h.sending hs
      rw [hf, hk, hx]
      exact hsent }

/-- The end of a session saves the open container, where it holds anything. -/
theorem Intact.close (h : Intact cfg U log w) (ha : Alive cfg U log w) {t : Session}
    (hs : w.session = some t) (hsrv : w'.srv = DataWriterThd.runEnd w.srv t.cur)
    (hnone : w'.session = none)
    (hfiles : ∀ file ∈ w'.files, file ∈ w.files ∨ file = ⟨t.fileRecipe, t.keyRecipe, t.chunks⟩) :
    Intact cfg U log w' := by
  obtain ⟨-, hkeep, -, htail, -⟩ := saveTail_spec ha.logOk (ha.openOk hs)
  have hrest : AtRest cfg U log w'.srv w'.files := by
    rw [hsrv]
    refine ⟨h.records.congr rfl rfl, h.served, ?_, ?_⟩
    · intro fp addr hl
      rcases h.placed hl with hm | ⟨t', ht, hid⟩
      · exact Keeps.mem hkeep hm
      · rw [hs] at ht
        cases ht
        rcases htail with ht | ht
        · exact hid ▸ ht
        · -- an empty container holds no record
          refine absurd ?_ (h.records.solid hl)
          rw [Extent.read, show addr.extent.seg = t.cur.curContainer.id from hid.symm, ht]
          simp [slice]
    · intro file hf
      rcases hfiles file hf with hf | rfl
      · exact (h.files file hf).mono fun _ hm => hm
      · exact (h.sending hs).mono fun _ hm => hm
  exact AtRest.intact hrest hnone

theorem Intact.chunk (hlaw : Laws cfg U) (hkeys : SimilarKeys cfg U) (h : Intact cfg U log w)
    (ha : Alive cfg U log w) {t : Session} (hs : w.session = some t) {s : UploadState}
    {x : PlainChunk} {addr : KeyForChunkHashDB}
    (hg : BaseRecorded cfg U w (.chunk x.data x.key x.seed addr))
    (hst : ChunkStored cfg log t.cacheMeta (w.uploadState t) x addr log' s) {t' : Session}
    (hcur : t'.cur = s.cur)
    (hrecipe : (t'.fileRecipe, t'.keyRecipe, t'.chunks) =
      (t.fileRecipe ++ [x.fp cfg], t.keyRecipe ++ [x.key], t.chunks ++ [x.data])) :
    Intact cfg U log' { w with srv := s.srv, session := some t' } := by
  obtain ⟨hx, hbase⟩ := hg
  have hev := hst.evolves ha.logOk (ha.openOk hs) (ha.cacheOk hs)
  have hread : ∀ {fp a}, w.srv.fp2AddrDb.lookup fp = some a →
      Readable w.srv.storageCore t.cur a.containerId := by
    intro fp a hl
    rcases h.placed hl with hm | ⟨u, hu, hid⟩
    · exact Or.inl hm
    · rw [hs] at hu
      cases hu
      exact Or.inr hid
  have hknown : ∀ fp ∈ w.srv.fp2AddrDb, fp ∈ s.srv.fp2AddrDb := by
    intro fp hm
    obtain ⟨a, hl⟩ := Index.lookup_isSome_of_mem hm
    exact Index.mem_of_lookup (hst.final hl)
  obtain ⟨hrec, hserved⟩ := hst.intact hlaw hkeys hx (ha.cached hs) h.records h.served hread
    fun hm hq => hbase t hs ⟨hm, hq⟩
  refine ⟨hrec, hserved, ?_, ?_, ?_⟩
  · intro fp a hl
    have hr : Readable s.srv.storageCore s.cur a.containerId := by
      rcases hst.records with heq | ⟨addr', -, hr, hlook⟩
      · rw [show s.srv.fp2AddrDb = w.srv.fp2AddrDb from heq] at hl
        exact hev.readable (hread hl)
      · rw [hlook] at hl
        split at hl
        · cases hl
          exact hr
        · exact hev.readable (hread hl)
    rcases hr with hm | hid
    · exact Or.inl hm
    · exact Or.inr ⟨t', rfl, by rw [hcur]; exact hid⟩
  · intro _ ht
    cases ht
    obtain ⟨hf, hrecipe⟩ := Prod.mk.inj hrecipe
    obtain ⟨hk, hd⟩ := Prod.mk.inj hrecipe
    rw [hf, hk, hd]
    exact ((h.sending hs).mono hknown).snoc hx hst.sent
  · intro file hf
    exact (h.files file hf).mono hknown

/-- One action: what it keeps in any case, and what else as long as no base is lost. -/
theorem alive_step (hlaw : Laws cfg U) (hkeys : SimilarKeys cfg U) (h : Alive cfg U log w)
    (hU : a.OnChunk fun x _ => U x) (hs : Stepped cfg w a w') :
    ∃ log', Alive cfg U log' w' ∧ Onward log log' w.srv w'.srv ∧
      (Intact cfg U log w → BaseRecorded cfg U w a → Intact cfg U log' w') := by
  cases hs with
  | login c hs =>
      obtain ⟨hlog, hopen, hcache, hfiles, -⟩ := openClient_spec hlaw.freshIds h.logOk
      have hkeep : Keeps w.srv.storageCore (w.srv.storageCore.openClient cfg).1 := by
        intro id b hb
        rw [hfiles]
        exact hb
      refine ⟨log, ⟨hlog, ?_, ?_, ?_, ?_, h.resting⟩, ⟨Grows.refl log, hkeep, fun hl => hl⟩, ?_⟩
      · intro _ ht
        cases ht
        exact hopen
      · intro _ ht
        cases ht
        exact hcache
      · intro _ ht
        cases ht
        exact h.resting c
      · intro _ ht fp hm
        cases ht
        have hdata := congrArg InformCache.base2DataDb
          (InformCache.loadCntIdx_data (w.informFiles c) (w.informFiles c).dataDb)
        exact hdata ▸ hm
      · intro hi _
        refine ⟨hi.records.congr rfl rfl, hi.served, ?_, ?_, ?_⟩
        · intro fp addr hl
          exact Or.inl (Keeps.mem hkeep ((hi.atRest hs).saved hl))
        · intro _ ht
          cases ht
          exact ⟨[], fun _ hx => absurd hx List.not_mem_nil, rfl, rfl, rfl⟩
        · exact fun file hf => (hi.files file hf).mono fun _ hm => hm
  | chunk x addr hs hp hd =>
      obtain ⟨log', hst⟩ := hd.stored hlaw.freshIds h.logOk (h.openOk hs) (h.cacheOk hs)
      exact ⟨log', h.chunk hs hU hd hst rfl rfl rfl, h.onward_chunk hs hst,
        fun hi hg => hi.chunk hlaw hkeys h hs hg hst rfl rfl⟩
  | recipeEnd hs hp =>
      have hcache := h.cached hs
      exact ⟨log, h.inSession hs rfl rfl hcache rfl, Onward.refl log _,
        fun hi _ => hi.inSession hs rfl rfl⟩
  | evict f hs hp hf hb =>
      have hcache := h.cached hs
      refine ⟨log, h.inSession hs rfl rfl ?_ ?_, Onward.refl log _,
        fun hi _ => hi.inSession hs rfl rfl⟩
      · cases hb with
        | kept => exact hcache
        | sent he => exact hcache.evict he
      · cases hb with
        | kept => rfl
        | sent he => exact evict_data he
  | evictEnd hs hp hb =>
      exact ⟨log, h.inSession hs rfl rfl ((h.cached hs).evict hb) (evict_data hb),
        Onward.refl log _, fun hi _ => hi.inSession hs rfl rfl⟩
  | logout metaOrder cntOrder idxOrder hs hp hm hc hi =>
      refine ⟨log, h.close hs hc hi rfl rfl rfl, h.onward_close hs,
        fun hi _ => hi.close h hs rfl rfl ?_⟩
      intro file hf
      exact (List.mem_append.mp hf).imp_right List.mem_singleton.mp
  | download c file garbage cntOrder idxOrder hs hm hd hc hi =>
      refine ⟨log, { h with resting := ?_, added := ?_ }, Onward.refl log _,
        fun hi _ => { hi with }⟩
      · intro t ht
        rw [show w.session = some t from ht] at hs
        cases hs
      · intro c'
        by_cases hid : c' = c
        · subst hid
          simp only [Function.update_self]
          exact (h.resting c').stored hc hi
        · simp only [Function.update_of_ne hid]
          exact h.resting c'

end World

/-! ## Runs with shutdowns and crashes -/

namespace Restarting

variable {r r' : Restarting} {a : RestartAction}

/-- The server that the index files would give. -/
def savedServer (r : Restarting) : Server :=
  ⟨r.saved.fp2AddrDb, r.saved.feature2FpDb, r.sys.world.srv.storageCore⟩

/-- Every chunk sent is one of `U`. -/
def Sends (U : PlainChunk → Prop) (_ : Restarting) : RestartAction → Prop
  | .act (.act a) => a.OnChunk fun x _ => U x
  | _ => True

/-- The base of every chunk has a record. -/
def BaseRecorded (cfg : Components) (U : PlainChunk → Prop) (r : Restarting) :
    RestartAction → Prop
  | .act (.act a) => World.BaseRecorded cfg U r.sys.world a
  | _ => True

instance [DecidablePred U] (r : Restarting) : ∀ a, Decidable (Sends U r a)
  | .act (.act a) => inferInstanceAs (Decidable (a.OnChunk fun x _ => U x))
  | .act (.abort _ _) => inferInstanceAs (Decidable True)
  | .shutdown => inferInstanceAs (Decidable True)
  | .crash _ => inferInstanceAs (Decidable True)

instance [DecidablePred U] (r : Restarting) : ∀ a, Decidable (BaseRecorded cfg U r a)
  | .act (.act a) => inferInstanceAs (Decidable (World.BaseRecorded cfg U r.sys.world a))
  | .act (.abort _ _) => inferInstanceAs (Decidable True)
  | .shutdown => inferInstanceAs (Decidable True)
  | .crash _ => inferInstanceAs (Decidable True)

theorem BaseRecorded.sends (h : BaseRecorded cfg U r a) : Sends U r a := by
  rcases a with a | _ | _
  · cases a with
    | act a =>
        cases a with
        | chunk data key seed addr => exact h.1
        | login c => trivial
        | recipeEnd => trivial
        | evict f => trivial
        | evictEnd => trivial
        | logout metaOrder cntOrder idxOrder => trivial
        | download c file garbage cntOrder idxOrder => trivial
    | abort cntOrder idxOrder => trivial
  · trivial
  · trivial

/-- The steps that do not stop, by what becomes of the server. -/
inductive Stepped (cfg : Components) (r : Restarting) : RestartAction → Restarting → Prop
  | act {sys'} (a : Action) (hs : EDRStore.Stepped cfg r.sys.world a sys'.world) :
      Stepped cfg r (.act (.act a)) { r with sys := sys' }
  | abort {t} (cntOrder : List (Fp × Nat)) (idxOrder : List (Feature × Fp))
      (hs : r.sys.world.session = some t)
      (hc : Index.Lists t.informCache.deleteEvictChunk.base2CntIdx cntOrder)
      (hi : Index.Lists t.informCache.deleteEvictChunk.localFeature2FpDb idxOrder) :
      Stepped cfg r (.act (.abort cntOrder idxOrder)) { r with sys := { r.sys with
        world := { r.sys.world with
          srv := DataWriterThd.runEnd r.sys.world.srv t.cur
          informFiles := Function.update r.sys.world.informFiles t.clientId
            (t.informCache.deleteEvictChunk.storeCntIdx cntOrder idxOrder)
          session := none } } }
  | shutdown (hs : r.sys.world.session = none) :
      Stepped cfg r .shutdown { r with
        saved := ⟨r.sys.world.srv.fp2AddrDb, r.sys.world.srv.feature2FpDb, r.sys.world.files⟩ }
  | crash (dataDb : Index Fp Bytes) (hd : r.sys.world.Leaves dataDb) :
      Stepped cfg r (.crash dataDb) { r with sys :=
        { world := { r.sys.world with
            srv := r.savedServer
            informFiles := r.sys.world.informFilesLeft dataDb
            files := r.saved.files
            session := none }
          evictMsgs := 0 } }

theorem step_stepped (h : step cfg r a = .ok r') : Stepped cfg r a r' := by
  rcases a with a | _ | dataDb
  · obtain ⟨sys', hsys, h⟩ := bind_ok h
    cases h
    cases a with
    | act a => exact .act a (Aborting.step_act hsys).1
    | abort cntOrder idxOrder =>
        obtain ⟨t, hs, hc, hi, rfl⟩ := Aborting.step_abort hsys
        exact .abort cntOrder idxOrder hs hc hi
  · simp only [step] at h
    split at h
    · cases h
    · rename_i hs
      cases h
      exact .shutdown hs
  · simp only [step] at h
    split at h
    · rename_i hd
      cases h
      exact .crash dataDb hd
    · cases h

/-- After a crash: the caches are what the client ids had before the session. -/
theorem alive_crash (h : World.Alive cfg U log r.sys.world) {dataDb : Index Fp Bytes}
    (hd : r.sys.world.Leaves dataDb) {w' : World}
    (hstore : w'.srv.storageCore = r.sys.world.srv.storageCore)
    (hfiles : w'.informFiles = r.sys.world.informFilesLeft dataDb) (hnone : w'.session = none) :
    World.Alive cfg U log w' := by
  have hno : ∀ {t'}, w'.session ≠ some t' := by
    intro t' ht
    rw [hnone] at ht
    cases ht
  refine ⟨by rw [hstore]; exact h.logOk, fun ht => absurd ht hno, fun ht => absurd ht hno,
    fun ht => absurd ht hno, fun ht => absurd ht hno, ?_⟩
  intro c
  rw [hfiles]
  cases hs : r.sys.world.session with
  | none =>
      simp only [World.informFilesLeft, hs]
      exact h.resting c
  | some t =>
      simp only [World.informFilesLeft, hs]
      by_cases hid : c = t.clientId
      · subst hid
        have hsame : (InformCache.loadCntIdx (r.sys.world.informFiles t.clientId)).base2DataDb =
            (r.sys.world.informFiles t.clientId).dataDb :=
          congrArg InformCache.base2DataDb (InformCache.loadCntIdx_data
            (r.sys.world.informFiles t.clientId) (r.sys.world.informFiles t.clientId).dataDb)
        rw [Function.update_self, InformCache.loadCntIdx_data]
        refine (h.resting t.clientId).between (h.cached hs) ?_ ?_
        · rw [hsame]
          exact h.added hs
        · rw [hsame]
          exact hd t hs
      · rw [Function.update_of_ne hid]
        exact h.resting c

/-- What one step keeps of the server that was shut down with the records of `srv`. -/
structure Kept (cfg : Components) (U : PlainChunk → Prop) (log : Content) (srv : Server)
    (files : List StoredFile) (r : Restarting) : Prop where
  atRest : AtRest cfg U log { srv with storageCore := r.sys.world.srv.storageCore } files
  final : World.RecordsFinal srv r.sys.world.srv
  saved : World.RecordsFinal srv r.savedServer

theorem kept_step {srv : Server} {files : List StoredFile} (hlaw : World.Laws cfg U)
    (hkeys : SimilarKeys cfg U) (ha : World.Alive cfg U log r.sys.world)
    (h : Kept cfg U log srv files r) (hU : Sends U r a) (hs : Stepped cfg r a r') :
    ∃ log', World.Alive cfg U log' r'.sys.world ∧ Kept cfg U log' srv files r' := by
  cases hs with
  | act a hs =>
      obtain ⟨log', halive, hon, -⟩ := World.alive_step hlaw hkeys ha hU hs
      exact ⟨log', halive, h.atRest.onward hon.grows hon.keeps rfl rfl,
        fun hl => hon.final (h.final hl), h.saved⟩
  | abort cntOrder idxOrder hs hc hi =>
      have hon := ha.onward_close hs
      exact ⟨log, ha.close hs hc hi rfl rfl rfl, h.atRest.onward hon.grows hon.keeps rfl rfl,
        h.final, h.saved⟩
  | shutdown hs => exact ⟨log, ha, h.atRest, h.final, h.final⟩
  | crash dataDb hd =>
      exact ⟨log, alive_crash ha hd rfl rfl rfl, h.atRest, h.saved, h.saved⟩

/-- What holds in a run in which no base is lost. -/
structure Inv (cfg : Components) (U : PlainChunk → Prop) (log : Content) (r : Restarting) :
    Prop where
  alive : World.Alive cfg U log r.sys.world
  intact : World.Intact cfg U log r.sys.world
  kept : Kept cfg U log r.savedServer r.saved.files r

theorem inv_init : Inv cfg U (fun _ => []) init := by
  have hrest : AtRest cfg U (fun _ => []) Server.empty [] :=
    ⟨Records.empty _, served_empty,
      fun hl => absurd (Index.mem_of_lookup hl) Finmap.notMem_empty,
      fun _ hf => absurd hf List.not_mem_nil⟩
  exact ⟨World.alive_init, World.AtRest.intact hrest rfl, hrest, fun hl => hl, fun hl => hl⟩

theorem inv_step (hlaw : World.Laws cfg U) (hkeys : SimilarKeys cfg U) (h : Inv cfg U log r)
    (hg : BaseRecorded cfg U r a) (hs : Stepped cfg r a r') : ∃ log', Inv cfg U log' r' := by
  cases hs with
  | act a hs =>
      obtain ⟨log', halive, hon, hintact⟩ := World.alive_step hlaw hkeys h.alive hg.sends hs
      exact ⟨log', halive, hintact h.intact hg, h.kept.atRest.onward hon.grows hon.keeps rfl rfl,
        fun hl => hon.final (h.kept.final hl), fun hl => hl⟩
  | abort cntOrder idxOrder hs hc hi =>
      have hon := h.alive.onward_close hs
      exact ⟨log, h.alive.close hs hc hi rfl rfl rfl,
        h.intact.close h.alive hs rfl rfl fun _ hf => Or.inl hf,
        h.kept.atRest.onward hon.grows hon.keeps rfl rfl, h.kept.final, fun hl => hl⟩
  | shutdown hs =>
      exact ⟨log, h.alive, h.intact, h.intact.atRest hs, fun hl => hl, fun hl => hl⟩
  | crash dataDb hd =>
      exact ⟨log, alive_crash h.alive hd rfl rfl rfl, World.AtRest.intact h.kept.atRest rfl,
        h.kept.atRest, fun hl => hl, fun hl => hl⟩

theorem inv_reach (hlaw : World.Laws cfg U) (hkeys : SimilarKeys cfg U)
    (h : Reach (step cfg) (BaseRecorded cfg U) init r) : ∃ log, Inv cfg U log r := by
  refine h.inv (fun r => ∃ log, Inv cfg U log r) ⟨_, inv_init⟩ ?_
  rintro r a r' ⟨log, hi⟩ hg ha
  exact inv_step hlaw hkeys hi hg (step_stepped ha)

/-- Chunks under a key that goes with their features. -/
def Keyed (x : PlainChunk) : Prop := x.data ≠ [] ∧ x.key = [x.data.getLastD 0]

instance : DecidablePred Keyed := fun _ => inferInstanceAs (Decidable (_ ∧ _))

theorem plain_features {x : PlainChunk} (hx : x.data ≠ []) {f : Feature}
    (hf : f ∈ (x.features Components.plain).toList) : f.toUInt8 = x.data.getLastD 0 := by
  have hlast : (x.enc Components.plain).getLastD 0 = x.data.getLastD 0 := by
    show (1 :: (x.key ++ x.data)).getLastD 0 = x.data.getLastD 0
    rw [← List.cons_append, List.getLastD_eq_getLast?, List.getLast?_append_of_ne_nil _ hx,
      ← List.getLastD_eq_getLast?]
  have hcases : f = (x.data.getLastD 0).toUInt64 ∨ f = (x.data.getLastD 0).toUInt64 + 256 ∨
      f = (x.data.getLastD 0).toUInt64 + 512 := by
    have hmem : f ∈ [((x.enc Components.plain).getLastD 0).toUInt64,
        ((x.enc Components.plain).getLastD 0).toUInt64 + 256,
        ((x.enc Components.plain).getLastD 0).toUInt64 + 512] := hf
    rw [hlast] at hmem
    simpa using hmem
  rcases hcases with rfl | rfl | rfl
  · exact UInt8.toUInt8_toUInt64 _
  · rw [UInt64.toUInt8_add, UInt8.toUInt8_toUInt64]
    exact UInt8.add_zero _
  · rw [UInt64.toUInt8_add, UInt8.toUInt8_toUInt64]
    exact UInt8.add_zero _

theorem plain_similarKeys : SimilarKeys Components.plain Keyed := by
  rintro x y ⟨hx, hxk⟩ ⟨hy, hyk⟩ f hf hf'
  rw [hxk, hyk, ← plain_features hx hf, plain_features hy hf']

def keyedFp (data : Bytes) : Fp :=
  (PlainChunk.mk data [data.getLastD 0] 0).fp Components.plain

def acts (as : List Action) : List RestartAction := as.map fun a => .act (.act a)

/-- An upload of client 0, up to its last chunk. -/
def sends (chunks : List Bytes) : List RestartAction :=
  acts (.login 0 :: chunks.map fun data =>
    .chunk data [data.getLastD 0] 0 ⟨.uniqueChunk, [], 0, 0, []⟩)

def ends (metaOrder : List (Feature × Nat)) (cntOrder : List (Fp × Nat))
    (idxOrder : List (Feature × Fp)) : List RestartAction :=
  acts [.recipeEnd, .evictEnd, .logout metaOrder cntOrder idxOrder]

/-- The features of the base `[10, 5]` in `_idx`. -/
def baseIdx : List (Feature × Fp) :=
  [(5, keyedFp [10, 5]), (261, keyedFp [10, 5]), (517, keyedFp [10, 5])]

/-- `[10, 5]` is cached and loses its record in a crash; sent again, it is stored as a
delta against itself; then it is evicted. -/
def lostActions : List RestartAction :=
  sends [[10, 5]] ++ ends [(5, 1), (261, 1), (517, 1)] [(keyedFp [10, 5], 3)] baseIdx ++
    [.crash ∅] ++ sends [[10, 5]] ++
    ends [(5, 2), (261, 2), (517, 2)] [(keyedFp [10, 5], 3)] baseIdx ++ acts World.evictAll

def lostEnd : Restarting := endOf (step Components.plain) init lostActions

/-- A file uploaded after a crash comes back as the delta it is stored as. -/
theorem crash_loses_chunk :
    Reach (step Components.plain) (Sends Keyed) init lostEnd ∧
    ∃ file ∈ lostEnd.sys.world.files, file.chunks = [[10, 5]] ∧
      lostEnd.sys.world.downloadFile Components.plain 0 file ⟨[1], []⟩ =
        .ok [[3, 4, 1, 5, 10, 5]] := by
  refine ⟨endOf_reach (by decide +kernel) (by decide +kernel), ?_⟩
  exact ⟨⟨[keyedFp [10, 5]], [[5]], [[10, 5]]⟩, by decide +kernel, rfl, by decide +kernel⟩

/-- One file, and a shutdown. -/
def savedActions : List RestartAction :=
  sends [[10, 5], [11, 5]] ++ ends [(5, 1), (261, 1), (517, 1)] [(keyedFp [10, 5], 3)] baseIdx ++
    [.shutdown]

def savedEnd : Restarting := endOf (step Components.plain) init savedActions

theorem savedEnd_reach :
    Reach (step Components.plain) (BaseRecorded Components.plain Keyed) init savedEnd :=
  endOf_reach (by decide +kernel) (by decide +kernel)

/-- The server dies in the middle of an upload, a client exits in the next one, and the
one after that is completed, under two keys. -/
def diedActions : List RestartAction :=
  sends [[12, 5], [7, 7]] ++
    [.crash (Index.ofList [(keyedFp [10, 5], [1, 5, 10, 5])] (by decide))] ++
    sends [[13, 5]] ++ [.act (.abort [(keyedFp [10, 5], 3)] baseIdx)] ++
    sends [[14, 5], [20, 6]] ++
    ends [(5, 2), (261, 2), (517, 2), (6, 2), (262, 2), (518, 2)]
      [(keyedFp [10, 5], 3), (keyedFp [20, 6], 3)]
      (baseIdx ++ [(6, keyedFp [20, 6]), (262, keyedFp [20, 6]), (518, keyedFp [20, 6])])

def diedEnd : Restarting := endOf (step Components.plain) savedEnd diedActions

/-- `[30, 9]` loses its record, and is sent again. -/
def againActions : List RestartAction :=
  sends [[30, 9], [14, 5]] ++
    [.crash (Index.ofList [(keyedFp [10, 5], [1, 5, 10, 5]), (keyedFp [30, 9], [1, 9, 30, 9])]
      (by decide))] ++ sends [[30, 9]]

def againEnd : Restarting := endOf (step Components.plain) savedEnd againActions

end Restarting

end EDRStore
