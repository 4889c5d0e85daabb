/-
# `EDRStore.System` — clients and server over many sessions

One server and any number of full-EDR clients, one session at a time.  An
upload logs in, sends its chunks, ends its recipe, evicts, and logs out; a
download reads one stored file back.  What outlives a session is the server's
indexes and containers, and for each client id its inform-cache files there and
its cache meta file here.

The stages of one upload are linked by first-in first-out queues and each of
them looks only at its own element, so an item is taken through all of them
before the next one is sent.
-/
import EDRStore.Upload

namespace EDRStore

/-- Why a schedule ends early: a process ended, or the action is not one the
client takes in this state. -/
inductive Stop where
  | exit (e : Exit)
  | disabled
deriving DecidableEq

/-- An exit of a stage is an exit of the system. -/
def exits {α : Type} : Except Exit α → Except Stop α
  | .ok a => .ok a
  | .error e => .error (.exit e)

@[simp] theorem exits_ok {α : Type} (a : α) : exits (.ok a) = .ok a := rfl

theorem exits_eq_ok {α : Type} {x : Except Exit α} {a : α} (h : exits x = .ok a) : x = .ok a := by
  cases x with
  | ok b => cases h; rfl
  | error e => exact nomatch h

theorem exits_eq_exit {α : Type} {x : Except Exit α} {e : Exit}
    (h : exits x = .error (.exit e)) : x = .error e := by
  cases x with
  | ok b => exact nomatch h
  | error e' => cases h; rfl

/-- Where an upload stands on the client. -/
inductive Phase where
  | sending
  | evicting
  | finished
deriving DecidableEq

/-- A running upload: `CacheMeta` and the eviction buffer of the client, the
`ClientVar` of the server, both recipes, and the plaintext sent so far. -/
structure Session where
  clientId : ClientId
  cacheMeta : CacheMeta
  evictFeatureBuf : List Feature
  cur : ClientStore
  informCache : InformCache
  fileRecipe : List Fp
  keyRecipe : List Key
  chunks : List Bytes
  phase : Phase

/-- A completed upload: the server's recipe, the client's, and the plaintext it
was made from. -/
structure StoredFile where
  fileRecipe : List Fp
  keyRecipe : List Key
  chunks : List Bytes
deriving DecidableEq

structure World where
  srv : Server
  informFiles : ClientId → InformFiles
  metaFiles : ClientId → Option MetaFile
  files : List StoredFile
  session : Option Session

inductive Action where
  | login (c : ClientId)
  /-- The next chunk of the file, with its key and padding seed; `addr` is what
  the receive buffer held before. -/
  | chunk (data : Bytes) (key : Key) (seed : Nat) (addr : KeyForChunkHashDB)
  | recipeEnd
  /-- `EvictFeature` comes to `f`. -/
  | evict (f : Feature)
  | evictEnd
  /-- The connection is closed and both sides store their caches, in the orders
  given. -/
  | logout (metaOrder : List (Feature × Nat)) (cntOrder : List (Fp × Nat))
      (idxOrder : List (Feature × Fp))
  | download (c : ClientId) (file : StoredFile) (garbage : Container)
      (cntOrder : List (Fp × Nat)) (idxOrder : List (Feature × Fp))
deriving DecidableEq

namespace World

variable (cfg : Components)

/-- A new server, and clients that never used it. -/
def init : World where
  srv := .empty
  informFiles := fun _ => .none
  metaFiles := fun _ => none
  files := []
  session := none

/-- `DataReaderThd::Run` over a file recipe: all entries sent. -/
def restoreFile (srv : Server) (informCache : InformCache) :
    ClientStore → List Fp → Except Exit (List RestoreChunk × ClientStore)
  | cur, [] => .ok ([], cur)
  | cur, fp :: fps => do
      let r ← DataDecoderThd.restoreChunk cfg srv informCache fp cur
      let r' ← restoreFile srv informCache r.2 fps
      .ok (r.1 ++ r'.1, r'.2)

/-- A download of `file` by the client id `c`, up to the plaintext. -/
def downloadFile (w : World) (c : ClientId) (file : StoredFile) (garbage : Container) :
    Except Exit (List Bytes) := do
  let r ← restoreFile cfg w.srv (InformCache.loadCntIdx (w.informFiles c))
    (StorageCore.openReader cfg garbage) file.fileRecipe
  DataRetrieverThd.fullEDR cfg file.keyRecipe r.1

/-- The client's side and the server's side of a login to upload. -/
def openSession (w : World) (c : ClientId) : Session where
  clientId := c
  cacheMeta := CacheMeta.new (w.metaFiles c)
  evictFeatureBuf := []
  cur := (w.srv.storageCore.openClient cfg).2
  informCache := InformCache.loadCntIdx (w.informFiles c)
  fileRecipe := []
  keyRecipe := []
  chunks := []
  phase := .sending

/-- The state of the server's stages. -/
def uploadState (w : World) (t : Session) : UploadState := ⟨w.srv, t.cur, t.informCache⟩

/-- One chunk, from the client's choice of form to the writer. -/
def sendChunk (w : World) (t : Session) (data : Bytes) (key : Key) (seed : Nat)
    (addr : KeyForChunkHashDB) : Except Stop World := do
  let item := SenderThd.sendItem cfg .fullEdr t.cacheMeta (prepareChunk cfg data key seed)
  let r ← exits (UploadState.runItem cfg (w.uploadState t) addr item.1)
  .ok { w with
    srv := r.1.srv
    session := some { t with
      cacheMeta := item.2
      cur := r.1.cur
      informCache := r.1.informCache
      fileRecipe := t.fileRecipe ++ [r.2]
      keyRecipe := t.keyRecipe ++ [key]
      chunks := t.chunks ++ [data] } }

/-- An eviction element; only its features are read. -/
def evictInfo : ChunkInfo := ⟨[], ⟨0, 0, 0⟩, ⟨.cacheEvictChunk, [], 0, 0, []⟩, .cacheEvictChunk⟩

/-- `CacheMeta::SendFeatures`, up to the server's inform cache. -/
def sendFeatures (w : World) (t : Session) : Except Stop World := do
  let r ← exits (UploadState.runEvict cfg (w.uploadState t) evictInfo t.evictFeatureBuf)
  .ok { w with
    srv := r.srv
    session := some { t with evictFeatureBuf := [], cur := r.cur, informCache := r.informCache } }

/-- The end of a `ClientVar`: `DeleteEvictChunk`, then `StoreCntIdx`. -/
def closeCache (w : World) (c : ClientId) (informCache : InformCache)
    (cntOrder : List (Fp × Nat)) (idxOrder : List (Feature × Fp)) : Except Stop World :=
  let informCache := informCache.deleteEvictChunk
  if Index.Lists informCache.base2CntIdx cntOrder ∧
      Index.Lists informCache.localFeature2FpDb idxOrder then
    .ok { w with
      informFiles := Function.update w.informFiles c (informCache.storeCntIdx cntOrder idxOrder) }
  else .error .disabled

/-- One action. -/
def step (w : World) : Action → Except Stop World
  | .login c =>
      match w.session with
      | some _ => .error .disabled
      | none =>
          .ok { w with
            srv := { w.srv with storageCore := (w.srv.storageCore.openClient cfg).1 }
            session := some (w.openSession cfg c) }
  | .chunk data key seed addr =>
      match w.session with
      | none => .error .disabled
      | some t =>
          if t.phase = .sending then w.sendChunk cfg t data key seed addr else .error .disabled
  | .recipeEnd =>
      match w.session with
      | none => .error .disabled
      | some t =>
          if t.phase = .sending then .ok { w with session := some { t with phase := .evicting } }
          else .error .disabled
  | .evict f =>
      match w.session with
      | none => .error .disabled
      | some t =>
          if t.phase = .evicting ∧ t.cacheMeta.aged f = true then
            let t := { t with
              cacheMeta := t.cacheMeta.eraseFeature f
              evictFeatureBuf := t.evictFeatureBuf ++ [f] }
            if t.evictFeatureBuf.length % cfg.sendRecipeBatchSize = 0 then w.sendFeatures cfg t
            else .ok { w with session := some t }
          else .error .disabled
  | .evictEnd =>
      match w.session with
      | none => .error .disabled
      | some t =>
          if t.phase = .evicting ∧ t.cacheMeta.noneAged then
            let t := { t with phase := .finished }
            if t.evictFeatureBuf.length ≠ 0 then w.sendFeatures cfg t
            else .ok { w with session := some t }
          else .error .disabled
  | .logout metaOrder cntOrder idxOrder =>
      match w.session with
      | none => .error .disabled
      | some t =>
          if t.phase = .finished ∧ Index.Lists t.cacheMeta.feature2VersionIdx metaOrder then do
            let w ← w.closeCache t.clientId t.informCache cntOrder idxOrder
            .ok { w with
              srv := DataWriterThd.runEnd w.srv t.cur
              metaFiles := Function.update w.metaFiles t.clientId
                (some (t.cacheMeta.storeCacheMeta metaOrder))
              files := w.files ++ [⟨t.fileRecipe, t.keyRecipe, t.chunks⟩]
              session := none }
          else .error .disabled
  | .download c file garbage cntOrder idxOrder =>
      match w.session with
      | some _ => .error .disabled
      | none =>
          if file ∈ w.files then do
            let _ ← exits (w.downloadFile cfg c file garbage)
            w.closeCache c (InformCache.loadCntIdx (w.informFiles c)) cntOrder idxOrder
          else .error .disabled

end World

/-! ## What one chunk does -/

/-- A chunk of a file with the key and the padding seed it was sent under. -/
structure PlainChunk where
  data : Bytes
  key : Key
  seed : Nat
deriving DecidableEq

namespace PlainChunk

variable (cfg : Components) (x : PlainChunk)

/-- The ciphertext, which the cache holds. -/
def enc : Bytes := cfg.twoPhaseEncChunk x.data x.key

/-- The ciphertext of the compressed chunk, which the containers hold. -/
def comp : Bytes := cfg.twoPhaseEncChunk (cfg.compressWithPad x.data x.seed) x.key

/-- The features of the ciphertext. -/
def features : Features := cfg.extractFeature (x.enc cfg)

def fp : Fp := DataRecvThd.dualFp cfg (cfg.generateHash (x.enc cfg)) (cfg.generateHash (x.comp cfg))

/-- The half of a pair that goes to the cache. -/
def cacheChunk (addr : KeyForChunkHashDB) : WrappedChunk :=
  ⟨⟨x.fp cfg, x.features cfg, addr, .cacheInsertChunk⟩, x.enc cfg, []⟩

/-- The base `ProcessNormalChunk` picks for a single chunk. -/
def chosenBase (informCache : InformCache) (addr : KeyForChunkHashDB) : Fp :=
  (SimilarPolicy.findBaseChunkMap informCache.localFeature2FpDb
    ⟨x.fp cfg, x.features cfg, addr, .uniqueChunk⟩).addr.baseFp

/-- A new single chunk as a delta against the cached `base`. -/
def deltaChunk (addr : KeyForChunkHashDB) (base : Fp) (delta : Bytes) : WrappedChunk :=
  ⟨⟨x.fp cfg, x.features cfg, { addr with baseFp := base }, .cacheDeltaChunk⟩, delta, []⟩

end PlainChunk

/-- If the action sends a chunk, `p` holds of the chunk and of what the receive
buffer held before. -/
def Action.OnChunk (p : PlainChunk → KeyForChunkHashDB → Prop) : Action → Prop
  | .chunk data key seed addr => p ⟨data, key, seed⟩ addr
  | _ => True

instance (p : PlainChunk → KeyForChunkHashDB → Prop) [∀ x addr, Decidable (p x addr)] :
    ∀ a : Action, Decidable (a.OnChunk p)
  | .chunk data key seed addr => inferInstanceAs (Decidable (p ⟨data, key, seed⟩ addr))
  | .login _ => inferInstanceAs (Decidable True)
  | .recipeEnd => inferInstanceAs (Decidable True)
  | .evict _ => inferInstanceAs (Decidable True)
  | .evictEnd => inferInstanceAs (Decidable True)
  | .logout _ _ _ => inferInstanceAs (Decidable True)
  | .download _ _ _ _ _ => inferInstanceAs (Decidable True)

/-- What a chunk of a full-EDR upload does to the server's stages. -/
inductive ChunkDone (cfg : Components) (m : CacheMeta) (s : UploadState) (x : PlainChunk)
    (addr : KeyForChunkHashDB) : CacheMeta → UploadState → Prop
  /-- No feature is known: the chunk becomes a cached base, and is not new. -/
  | pairOld (hq : ∀ f ∈ (x.features cfg).toList, f ∉ m.feature2VersionIdx)
      (hm : x.fp cfg ∈ s.srv.fp2AddrDb) :
      ChunkDone cfg m s x addr
        ((m.queryCacheMeta (x.features cfg)).2.updateCacheMeta (x.features cfg))
        (s.insertCached (x.cacheChunk cfg addr))
  | pairNew {s'} (hq : ∀ f ∈ (x.features cfg).toList, f ∉ m.feature2VersionIdx)
      (hm : x.fp cfg ∉ s.srv.fp2AddrDb)
      (hw : UploadState.runWriter cfg
        ((s.insertCached (x.cacheChunk cfg addr)).placeholder (x.fp cfg) addr)
        (UploadState.pairChunk cfg (x.fp cfg) addr (x.comp cfg)) = .ok s') :
      ChunkDone cfg m s x addr
        ((m.queryCacheMeta (x.features cfg)).2.updateCacheMeta (x.features cfg)) s'
  | singleOld (hq : ∃ f ∈ (x.features cfg).toList, f ∈ m.feature2VersionIdx)
      (hm : x.fp cfg ∈ s.srv.fp2AddrDb) :
      ChunkDone cfg m s x addr (m.queryCacheMeta (x.features cfg)).2 s
  | singleDelta {s' f base data delta} (hq : ∃ f ∈ (x.features cfg).toList, f ∈ m.feature2VersionIdx)
      (hm : x.fp cfg ∉ s.srv.fp2AddrDb) (hf : f ∈ (x.features cfg).toList)
      (hb : s.informCache.localFeature2FpDb.lookup f = some base)
      (hv : x.chosenBase cfg s.informCache addr = base)
      (hd : s.informCache.base2DataDb.lookup base = some data)
      (he : cfg.deltaEncode data (x.enc cfg) = some delta)
      (hw : UploadState.runWriter cfg (s.placeholder (x.fp cfg) addr)
        (x.deltaChunk cfg addr base delta) = .ok s') :
      ChunkDone cfg m s x addr (m.queryCacheMeta (x.features cfg)).2 s'
  /-- The client knows a feature and the server's cache is empty. -/
  | singlePlain {s'} (hq : ∃ f ∈ (x.features cfg).toList, f ∈ m.feature2VersionIdx)
      (hm : x.fp cfg ∉ s.srv.fp2AddrDb) (h0 : s.informCache.getCacheSize = 0)
      (hw : UploadState.runWriter cfg (s.placeholder (x.fp cfg) addr)
        (UploadState.singleChunk (x.fp cfg) (x.features cfg) addr (x.enc cfg)) = .ok s') :
      ChunkDone cfg m s x addr (m.queryCacheMeta (x.features cfg)).2 s'

variable {cfg : Components} {m : CacheMeta} {s : UploadState} {x : PlainChunk}
  {addr : KeyForChunkHashDB}

/-- What the client sends for a chunk, by whether it knows one of its features. -/
theorem sendItem_cases (cfg : Components) (m : CacheMeta) (x : PlainChunk) :
    ((∃ f ∈ (x.features cfg).toList, f ∈ m.feature2VersionIdx) ∧
      SenderThd.sendItem cfg .fullEdr m (prepareChunk cfg x.data x.key x.seed) =
        ([⟨.fullEdrUncompressChunk, x.enc cfg, x.features cfg, cfg.generateHash (x.comp cfg)⟩],
          (m.queryCacheMeta (x.features cfg)).2)) ∨
    ((∀ f ∈ (x.features cfg).toList, f ∉ m.feature2VersionIdx) ∧
      SenderThd.sendItem cfg .fullEdr m (prepareChunk cfg x.data x.key x.seed) =
        ([⟨.fullEdrCacheChunk, x.enc cfg, x.features cfg, []⟩,
            ⟨.normalChunk, x.comp cfg, x.features cfg, []⟩],
          (m.queryCacheMeta (x.features cfg)).2.updateCacheMeta (x.features cfg))) := by
  cases hq : (m.queryCacheMeta (x.features cfg)).1 with
  | true =>
      refine Or.inl ⟨CacheMeta.queryCacheMeta_similar.mp hq, ?_⟩
      have hq' : (m.queryCacheMeta (prepareChunk cfg x.data x.key x.seed).features).1 = true := hq
      simp only [SenderThd.sendItem, SelectCompThd.runChunk, SelectCompThd.fullEDR, hq', if_true]
      rfl
  | false =>
      refine Or.inr ⟨?_, ?_⟩
      · intro f hf hm
        have := CacheMeta.queryCacheMeta_similar.mpr ⟨f, hf, hm⟩
        rw [hq] at this
        exact nomatch this
      · have hq' : (m.queryCacheMeta (prepareChunk cfg x.data x.key x.seed).features).1 = false := hq
        simp only [SenderThd.sendItem, SelectCompThd.runChunk, SelectCompThd.fullEDR, hq',
          Bool.false_eq_true, if_false]
        rfl

/-- Every chunk that does not end the server is done in one of these ways. -/
theorem runItem_done {r : UploadState × Fp}
    (h : UploadState.runItem cfg s addr
      (SenderThd.sendItem cfg .fullEdr m (prepareChunk cfg x.data x.key x.seed)).1 = .ok r) :
    r.2 = x.fp cfg ∧ ChunkDone cfg m s x addr
      (SenderThd.sendItem cfg .fullEdr m (prepareChunk cfg x.data x.key x.seed)).2 r.1 := by
  rcases sendItem_cases cfg m x with ⟨hq, heq⟩ | ⟨hq, heq⟩
  · rw [heq] at h ⊢
    rw [UploadState.runItem_single (x.fp cfg) rfl rfl] at h
    split at h
    · rename_i hm
      cases h
      exact ⟨rfl, .singleOld hq hm⟩
    · rename_i hm
      obtain ⟨s', hs, h⟩ := bind_ok h
      cases h
      refine ⟨rfl, ?_⟩
      rcases UploadState.runCache_single_cases rfl hs with
        ⟨f, hf, base, data, delta, hb, hv, hd, he, hw⟩ | ⟨-, h0, hw⟩
      · exact .singleDelta hq hm hf hb hv hd he hw
      · exact .singlePlain hq hm h0 hw
  · rw [heq] at h ⊢
    rw [UploadState.runItem_pair (x.fp cfg) rfl rfl] at h
    simp only at h
    split at h
    · rename_i hm
      cases h
      exact ⟨rfl, .pairOld hq hm⟩
    · rename_i hm
      obtain ⟨s', hs, h⟩ := bind_ok h
      cases h
      exact ⟨rfl, .pairNew hq hm hs⟩

/-! ## What one action does -/

/-- `evictFeatureBuf` after one more feature: kept, or sent and empty again. -/
inductive Flushed (buf : List Feature) (c : InformCache) : List Feature → InformCache → Prop
  | kept : Flushed buf c buf c
  | sent {c'} (h : buf.foldlM InformCache.evictFeature c = .ok c') : Flushed buf c [] c'

/-- The actions that do not stop the schedule, each with the state it leaves. -/
inductive Stepped (cfg : Components) (w : World) : Action → World → Prop
  | login (c : ClientId) (hs : w.session = none) :
      Stepped cfg w (.login c) { w with
        srv := { w.srv with storageCore := (w.srv.storageCore.openClient cfg).1 }
        session := some (w.openSession cfg c) }
  | chunk {t m s} (x : PlainChunk) (addr : KeyForChunkHashDB) (hs : w.session = some t)
      (hp : t.phase = .sending)
      (hd : ChunkDone cfg t.cacheMeta (w.uploadState t) x addr m s) :
      Stepped cfg w (.chunk x.data x.key x.seed addr) { w with
        srv := s.srv
        session := some { t with
          cacheMeta := m
          cur := s.cur
          informCache := s.informCache
          fileRecipe := t.fileRecipe ++ [x.fp cfg]
          keyRecipe := t.keyRecipe ++ [x.key]
          chunks := t.chunks ++ [x.data] } }
  | recipeEnd {t} (hs : w.session = some t) (hp : t.phase = .sending) :
      Stepped cfg w .recipeEnd { w with session := some { t with phase := .evicting } }
  | evict {t buf c} (f : Feature) (hs : w.session = some t) (hp : t.phase = .evicting)
      (hf : t.cacheMeta.aged f = true)
      (hb : Flushed (t.evictFeatureBuf ++ [f]) t.informCache buf c) :
      Stepped cfg w (.evict f) { w with session := some { t with
        cacheMeta := t.cacheMeta.eraseFeature f
        evictFeatureBuf := buf
        informCache := c } }
  | evictEnd {t c} (hs : w.session = some t) (hp : t.phase = .evicting)
      (hb : t.evictFeatureBuf.foldlM InformCache.evictFeature t.informCache = Except.ok c) :
      Stepped cfg w .evictEnd { w with session := some { t with
        evictFeatureBuf := []
        informCache := c
        phase := .finished } }
  | logout {t} (metaOrder : List (Feature × Nat)) (cntOrder : List (Fp × Nat))
      (idxOrder : List (Feature × Fp)) (hs : w.session = some t) (hp : t.phase = .finished)
      (hm : Index.Lists t.cacheMeta.feature2VersionIdx metaOrder)
      (hc : Index.Lists t.informCache.deleteEvictChunk.base2CntIdx cntOrder)
      (hi : Index.Lists t.informCache.deleteEvictChunk.localFeature2FpDb idxOrder) :
      Stepped cfg w (.logout metaOrder cntOrder idxOrder)
        { srv := DataWriterThd.runEnd w.srv t.cur
          informFiles := Function.update w.informFiles t.clientId
            (t.informCache.deleteEvictChunk.storeCntIdx cntOrder idxOrder)
          metaFiles := Function.update w.metaFiles t.clientId
            (some (t.cacheMeta.storeCacheMeta metaOrder))
          files := w.files ++ [⟨t.fileRecipe, t.keyRecipe, t.chunks⟩]
          session := none }
  | download {chunks} (c : ClientId) (file : StoredFile) (garbage : Container)
      (cntOrder : List (Fp × Nat)) (idxOrder : List (Feature × Fp)) (hs : w.session = none)
      (hm : file ∈ w.files) (hd : w.downloadFile cfg c file garbage = .ok chunks)
      (hc : Index.Lists (InformCache.loadCntIdx (w.informFiles c)).deleteEvictChunk.base2CntIdx
        cntOrder)
      (hi : Index.Lists
        (InformCache.loadCntIdx (w.informFiles c)).deleteEvictChunk.localFeature2FpDb idxOrder) :
      Stepped cfg w (.download c file garbage cntOrder idxOrder) { w with
        informFiles := Function.update w.informFiles c
          ((InformCache.loadCntIdx (w.informFiles c)).deleteEvictChunk.storeCntIdx
            cntOrder idxOrder) }

namespace World

variable {w w' : World}

theorem sendFeatures_eq (w : World) (t : Session) :
    w.sendFeatures cfg t = exits (t.evictFeatureBuf.foldlM InformCache.evictFeature t.informCache)
      >>= fun c => .ok { w with
        session := some { t with evictFeatureBuf := [], informCache := c } } := by
  rw [sendFeatures, UploadState.runEvict_eq]
  show (exits (t.evictFeatureBuf.foldlM InformCache.evictFeature t.informCache >>= _) >>= _) = _
  cases t.evictFeatureBuf.foldlM InformCache.evictFeature t.informCache with
  | ok c => rfl
  | error e => rfl

theorem closeCache_ok {c : ClientId} {informCache : InformCache} {cntOrder : List (Fp × Nat)}
    {idxOrder : List (Feature × Fp)}
    (h : w.closeCache c informCache cntOrder idxOrder = .ok w') :
    Index.Lists informCache.deleteEvictChunk.base2CntIdx cntOrder ∧
      Index.Lists informCache.deleteEvictChunk.localFeature2FpDb idxOrder ∧
      w' = { w with
        informFiles := Function.update w.informFiles c
          (informCache.deleteEvictChunk.storeCntIdx cntOrder idxOrder) } := by
  simp only [closeCache] at h
  split at h
  · rename_i hl
    cases h
    exact ⟨hl.1, hl.2, rfl⟩
  · exact nomatch h

theorem step_stepped {a : Action} (h : w.step cfg a = .ok w') : Stepped cfg w a w' := by
  cases a with
  | login c =>
      simp only [step] at h
      split at h
      · exact nomatch h
      · rename_i hs
        cases h
        exact .login c hs
  | chunk data key seed addr =>
      simp only [step] at h
      split at h
      · exact nomatch h
      · rename_i t hs
        split at h
        · rename_i hp
          obtain ⟨r, hr, h⟩ := bind_ok h
          cases h
          obtain ⟨hfp, hd⟩ := runItem_done (x := ⟨data, key, seed⟩) (exits_eq_ok hr)
          have hst := Stepped.chunk ⟨data, key, seed⟩ addr hs hp hd
          rw [← hfp] at hst
          exact hst
        · exact nomatch h
  | recipeEnd =>
      simp only [step] at h
      split at h
      · exact nomatch h
      · rename_i t hs
        split at h
        · rename_i hp
          cases h
          exact .recipeEnd hs hp
        · exact nomatch h
  | evict f =>
      simp only [step] at h
      split at h
      · exact nomatch h
      · rename_i t hs
        split at h
        · rename_i hp
          split at h
          · rw [sendFeatures_eq] at h
            obtain ⟨c, hc, h⟩ := bind_ok h
            cases h
            exact Stepped.evict (t := t) f hs hp.1 hp.2 (.sent (exits_eq_ok hc))
          · cases h
            exact Stepped.evict (t := t) f hs hp.1 hp.2 .kept
        · exact nomatch h
  | evictEnd =>
      simp only [step] at h
      split at h
      · exact nomatch h
      · rename_i t hs
        split at h
        · rename_i hp
          split at h
          · rw [sendFeatures_eq] at h
            obtain ⟨c, hc, h⟩ := bind_ok h
            cases h
            exact Stepped.evictEnd (t := t) hs hp.1 (exits_eq_ok hc)
          · rename_i hb
            have hb := List.length_eq_zero_iff.mp (not_not.mp hb)
            cases h
            have hst := @Stepped.evictEnd cfg w t t.informCache hs hp.1 (by rw [hb]; rfl)
            rw [← hb] at hst
            exact hst
        · exact nomatch h
  | logout metaOrder cntOrder idxOrder =>
      simp only [step] at h
      split at h
      · exact nomatch h
      · rename_i t hs
        split at h
        · rename_i hp
          obtain ⟨w₁, hw, h⟩ := bind_ok h
          obtain ⟨hc, hi, rfl⟩ := closeCache_ok hw
          cases h
          exact .logout metaOrder cntOrder idxOrder hs hp.1 hp.2 hc hi
        · exact nomatch h
  | download c file garbage cntOrder idxOrder =>
      simp only [step] at h
      split at h
      · exact nomatch h
      · rename_i hs
        split at h
        · rename_i hm
          obtain ⟨chunks, hd, h⟩ := bind_ok h
          obtain ⟨hc, hi, rfl⟩ := closeCache_ok h
          exact .download c file garbage cntOrder idxOrder hs hm (exits_eq_ok hd) hc hi
        · exact nomatch h

end World

end EDRStore
