/-
# `EDRStore.Upload` — the upload stages of the server

`DataRecvThd`, `DualDedupThd` and `CacheCompThd`, each as what it does to one
element, and their composition with `DataWriterThd`: every stage hands what it
pushes to the next one.
-/
import EDRStore.Client

namespace EDRStore

namespace DataRecvThd

variable (cfg : Components)

/-- The fingerprint of a chunk known in both forms: `H(H(uncompressed) || H(compressed))`. -/
def dualFp (uncompFp compFp : Fp) : Fp := cfg.generateHash (uncompFp ++ compFp)

/-- `DataRecvThd::ProcessChunks` on one logical item: what is pushed, the
fingerprint for the recipe, and `fp_2_addr_db`.  `addr` is what `tmp_chunk`
holds in `info.addr` from before. -/
def processItem (fp2AddrDb : Index Fp KeyForChunkHashDB) (addr : KeyForChunkHashDB) :
    List SendChunk → Except Exit (List WrappedChunk × Fp × Index Fp KeyForChunkHashDB)
  | cache :: rest =>
      match cache.type, rest with
      -- a cache chunk is followed by its compressed chunk in the same message
      | .fullEdrCacheChunk, comp :: _ =>
          let fp := dualFp cfg (cfg.generateHash cache.data) (cfg.generateHash comp.data)
          let info : ChunkInfo := ⟨fp, cache.cipherFeatures, addr, .cacheInsertChunk⟩
          .ok ([⟨info, cache.data, []⟩, ⟨{ info with stat := .chunkPair }, comp.data, []⟩], fp,
            fp2AddrDb)
      | .fullEdrUncompressChunk, _ =>
          let fp := dualFp cfg (cfg.generateHash cache.data) cache.compressedFp
          .ok ([⟨⟨fp, cache.cipherFeatures, addr, .singleChunk⟩, cache.data, []⟩], fp, fp2AddrDb)
      | .normalChunk, _ =>
          let fp := cfg.generateHash cache.data
          let r := DedupDetect.detectDuplicate fp2AddrDb
            ⟨fp, cache.cipherFeatures, addr, .uniqueChunk⟩
          if r.1.stat = .uniqueChunk then
            .ok ([⟨{ r.1 with features := cfg.extractFeature cache.data }, cache.data, []⟩], fp,
              r.2)
          else .ok ([], fp, r.2)
      | _, _ => .error .recvChunkType
  | [] => .error .recvChunkType

/-- The pieces `ProcessEvictFeature` cuts a message into; the fuel is the number
of features. -/
def splitFeatures : Nat → List Feature → List (List Feature)
  | 0, _ => []
  | fuel + 1, features =>
      if features.length > featureBatchSize then
        features.take featureBatchSize :: splitFeatures fuel (features.drop featureBatchSize)
      else [features]

/-- `DataRecvThd::ProcessEvictFeature`; the fields of the element that are not
assigned are not read. -/
def processEvictFeature (garbage : ChunkInfo) (features : List Feature) : List WrappedChunk :=
  (splitFeatures features.length features).map fun fs =>
    ⟨{ garbage with stat := .cacheEvictChunk }, [], fs⟩

theorem splitFeatures_flatten (fuel : Nat) :
    ∀ features : List Feature, features.length ≤ fuel →
      (splitFeatures fuel features).flatten = features := by
  induction fuel with
  | zero =>
      intro features h
      rw [List.length_eq_zero_iff.mp (Nat.le_zero.mp h)]
      rfl
  | succ fuel ih =>
      intro features h
      simp only [splitFeatures]
      split
      · rename_i hlong
        have hpos : 0 < featureBatchSize := by decide
        rw [List.flatten_cons, ih _ (by rw [List.length_drop]; omega), List.take_append_drop]
      · simp

end DataRecvThd

namespace DualDedupThd

variable (cfg : Components)

/-- One turn of the loop of `DualDedupThd::Run`. -/
def runChunk (fp2AddrDb : Index Fp KeyForChunkHashDB) (input : WrappedChunk) :
    Except Exit (List WrappedChunk × Index Fp KeyForChunkHashDB) :=
  match input.info.stat with
  | .chunkPair =>
      let r := DedupDetect.detectDuplicate fp2AddrDb input.info
      if r.1.stat = .uniqueChunk then
        -- compute the feature here
        .ok ([{ input with info := { r.1 with
            stat := .uniqueChunkAfterCache
            features := cfg.extractFeature input.data } }], r.2)
      else .ok ([], r.2)
  | .singleChunk =>
      let r := DedupDetect.detectDuplicate fp2AddrDb input.info
      if r.1.stat = .uniqueChunk then .ok ([{ input with info := r.1 }], r.2)
      else .ok ([], r.2)
  | .cacheInsertChunk => .ok ([input], fp2AddrDb)
  | .cacheEvictChunk => .ok ([input], fp2AddrDb)
  | _ => .error .dualInputType

end DualDedupThd

namespace CacheCompThd

variable (cfg : Components)

/-- One turn of the loop of `CacheCompThd::Run`. -/
def runChunk (informCache : InformCache) (input : WrappedChunk) :
    Except Exit (List WrappedChunk × InformCache) :=
  match input.info.stat with
  | .uniqueChunkAfterCache =>
      .ok ([{ input with info := { input.info with stat := .uniqueChunk } }], informCache)
  | .uniqueChunk => do
      let r ← informCache.processNormalChunk cfg input
      match r.2 with
      | some output => .ok ([output], informCache)
      | none =>
          if informCache.getCacheSize = 0 then
            .ok ([{ r.1 with info := { r.1.info with stat := .uniqueChunk } }], informCache)
          else .error .cacheChunkType
  | .cacheInsertChunk => .ok ([], informCache.insertCachedChunk input)
  | .cacheEvictChunk => do
      let informCache ← informCache.evictCacheChunk input
      .ok ([], informCache)
  | _ => .error .cacheInputType

end CacheCompThd

/-! ## The stages in a row -/

/-- The server with the client variables of one upload. -/
structure UploadState where
  srv : Server
  cur : ClientStore
  informCache : InformCache

namespace UploadState

variable (cfg : Components)

/-- The writer, on one element of its queue. -/
def runWriter (s : UploadState) (chunk : WrappedChunk) : Except Exit UploadState := do
  let r ← DataWriterThd.runChunk cfg s.srv chunk s.cur
  .ok { s with srv := r.1, cur := r.2 }

/-- The cache stage, and the writer on what it pushes. -/
def runCache (s : UploadState) (chunk : WrappedChunk) : Except Exit UploadState := do
  let r ← CacheCompThd.runChunk cfg s.informCache chunk
  r.1.foldlM (runWriter cfg) { s with informCache := r.2 }

/-- The dedup stage, and the later ones on what it pushes. -/
def runDual (s : UploadState) (chunk : WrappedChunk) : Except Exit UploadState := do
  let r ← DualDedupThd.runChunk cfg s.srv.fp2AddrDb chunk
  r.1.foldlM (runCache cfg) { s with srv := { s.srv with fp2AddrDb := r.2 } }

/-- One logical item through all stages, with its fingerprint for the recipe. -/
def runItem (s : UploadState) (addr : KeyForChunkHashDB) (item : List SendChunk) :
    Except Exit (UploadState × Fp) := do
  let r ← DataRecvThd.processItem cfg s.srv.fp2AddrDb addr item
  let s ← r.1.foldlM (runDual cfg) { s with srv := { s.srv with fp2AddrDb := r.2.2 } }
  .ok (s, r.2.1)

/-- One message of features through all stages. -/
def runEvict (s : UploadState) (garbage : ChunkInfo) (features : List Feature) :
    Except Exit UploadState :=
  (DataRecvThd.processEvictFeature garbage features).foldlM (runDual cfg) s

/-! ## What one item of a full-EDR upload does -/

variable {cfg} {s s' : UploadState} {addr : KeyForChunkHashDB}

/-- The entry of a new fingerprint, before the writer replaces it. -/
def placeholder (s : UploadState) (fp : Fp) (addr : KeyForChunkHashDB) : UploadState :=
  { s with srv := { s.srv with fp2AddrDb := s.srv.fp2AddrDb.insert fp addr } }

/-- The cache chunk of a pair put into the inform cache. -/
def insertCached (s : UploadState) (chunk : WrappedChunk) : UploadState :=
  { s with informCache := s.informCache.insertCachedChunk chunk }

/-- `foldlM` over one element. -/
theorem foldlM_one {E α β : Type} (f : β → α → Except E β) (b : β) (a : α) :
    [a].foldlM f b = f b a := by
  rw [List.foldlM_cons]
  cases f b a with
  | ok b' => rfl
  | error e => rfl

theorem runDual_insert {chunk : WrappedChunk} (h : chunk.info.stat = .cacheInsertChunk) :
    runDual cfg s chunk = .ok (s.insertCached chunk) := by
  simp only [runDual, DualDedupThd.runChunk, h, ok_bind, foldlM_one, runCache,
    CacheCompThd.runChunk]
  rfl

theorem runDual_pair {chunk : WrappedChunk} (h : chunk.info.stat = .chunkPair) :
    runDual cfg s chunk =
      if chunk.info.fp ∈ s.srv.fp2AddrDb then .ok s
      else runWriter cfg (s.placeholder chunk.info.fp chunk.info.addr)
        { chunk with info := { chunk.info with
            stat := .uniqueChunk, features := cfg.extractFeature chunk.data } } := by
  by_cases hm : chunk.info.fp ∈ s.srv.fp2AddrDb
  · simp only [runDual, DualDedupThd.runChunk, h, DedupDetect.detectDuplicate_duplicate hm,
      reduceCtorEq, if_false, ok_bind, if_pos hm]
    rfl
  · simp only [runDual, DualDedupThd.runChunk, h, DedupDetect.detectDuplicate_unique hm,
      if_true, ok_bind, if_neg hm, foldlM_one, runCache, CacheCompThd.runChunk]
    rfl

theorem runDual_single {chunk : WrappedChunk} (h : chunk.info.stat = .singleChunk) :
    runDual cfg s chunk =
      if chunk.info.fp ∈ s.srv.fp2AddrDb then .ok s
      else runCache cfg (s.placeholder chunk.info.fp chunk.info.addr)
        { chunk with info := { chunk.info with stat := .uniqueChunk } } := by
  by_cases hm : chunk.info.fp ∈ s.srv.fp2AddrDb
  · simp only [runDual, DualDedupThd.runChunk, h, DedupDetect.detectDuplicate_duplicate hm,
      reduceCtorEq, if_false, ok_bind, if_pos hm]
    rfl
  · simp only [runDual, DualDedupThd.runChunk, h, DedupDetect.detectDuplicate_unique hm,
      if_true, ok_bind, if_neg hm, foldlM_one]
    rfl

/-- The queue element of a pair's compressed chunk once it is known to be new. -/
def pairChunk (cfg : Components) (fp : Fp) (addr : KeyForChunkHashDB) (data : Bytes) :
    WrappedChunk :=
  ⟨⟨fp, cfg.extractFeature data, addr, .uniqueChunk⟩, data, []⟩

/-- What a pair does: its first half goes to the cache, its second half is stored
if the fingerprint is new. -/
theorem runItem_pair {cache comp : SendChunk} (fp : Fp) (ht : cache.type = .fullEdrCacheChunk)
    (hfp : fp = DataRecvThd.dualFp cfg (cfg.generateHash cache.data)
      (cfg.generateHash comp.data)) :
    runItem cfg s addr [cache, comp] =
      let s₁ := s.insertCached ⟨⟨fp, cache.cipherFeatures, addr, .cacheInsertChunk⟩, cache.data, []⟩
      if fp ∈ s.srv.fp2AddrDb then .ok (s₁, fp)
      else runWriter cfg (s₁.placeholder fp addr) (pairChunk cfg fp addr comp.data) >>=
        fun s₂ => .ok (s₂, fp) := by
  subst hfp
  simp only [runItem, DataRecvThd.processItem, ht, ok_bind, List.foldlM_cons,
    List.foldlM_nil, runDual_insert, runDual_pair]
  split
  · rename_i hm
    rw [if_pos (show _ ∈ s.srv.fp2AddrDb from hm)]
    rfl
  · rename_i hm
    rw [if_neg (show _ ∉ s.srv.fp2AddrDb from hm)]
    rw [bind_assoc]
    rfl

/-- The queue element of a single chunk once it is known to be new. -/
def singleChunk (fp : Fp) (features : Features) (addr : KeyForChunkHashDB) (data : Bytes) :
    WrappedChunk :=
  ⟨⟨fp, features, addr, .uniqueChunk⟩, data, []⟩

/-- What a single chunk does: if its fingerprint is new it goes through the
cache stage. -/
theorem runItem_single {chunk : SendChunk} (fp : Fp) (ht : chunk.type = .fullEdrUncompressChunk)
    (hfp : fp = DataRecvThd.dualFp cfg (cfg.generateHash chunk.data) chunk.compressedFp) :
    runItem cfg s addr [chunk] =
      if fp ∈ s.srv.fp2AddrDb then .ok (s, fp)
      else runCache cfg (s.placeholder fp addr)
          (singleChunk fp chunk.cipherFeatures addr chunk.data) >>= fun s₂ => .ok (s₂, fp) := by
  subst hfp
  simp only [runItem, DataRecvThd.processItem, ht, ok_bind, foldlM_one, runDual_single]
  split <;> rfl

/-- What a normal chunk does: the receiver has already checked it for
duplicates, and the dedup stage takes no chunk with that status. -/
theorem runItem_normal {chunk : SendChunk} (ht : chunk.type = .normalChunk) :
    runItem cfg s addr [chunk] =
      if cfg.generateHash chunk.data ∈ s.srv.fp2AddrDb then .ok (s, cfg.generateHash chunk.data)
      else .error .dualInputType := by
  simp only [runItem, DataRecvThd.processItem, ht]
  let info : ChunkInfo := ⟨cfg.generateHash chunk.data, chunk.cipherFeatures, addr, .uniqueChunk⟩
  by_cases hm : cfg.generateHash chunk.data ∈ s.srv.fp2AddrDb
  · have hd := DedupDetect.detectDuplicate_duplicate (show info.fp ∈ s.srv.fp2AddrDb from hm)
    simp only [info] at hd
    simp only [hd, reduceCtorEq, if_false, ok_bind, if_pos hm]
    rfl
  · have hd := DedupDetect.detectDuplicate_unique (show info.fp ∉ s.srv.fp2AddrDb from hm)
    simp only [info] at hd
    simp only [hd, if_true, ok_bind, if_neg hm, foldlM_one]
    rfl

/-- A new single chunk in the cache stage: stored as a delta against a cached
base, or passed on as it is when the cache is empty. -/
theorem runCache_single_cases {chunk : WrappedChunk} (h : chunk.info.stat = .uniqueChunk)
    (hs : runCache cfg s chunk = .ok s') :
    (∃ f ∈ chunk.info.features.toList, ∃ base data delta,
      s.informCache.localFeature2FpDb.lookup f = some base ∧
      (SimilarPolicy.findBaseChunkMap s.informCache.localFeature2FpDb chunk.info).addr.baseFp = base ∧
      s.informCache.base2DataDb.lookup base = some data ∧
      cfg.deltaEncode data chunk.data = some delta ∧
      runWriter cfg s { chunk with
        info := { chunk.info with
          addr := { chunk.info.addr with baseFp := base }
          stat := .cacheDeltaChunk }
        data := delta } = .ok s') ∨
    ((∀ f ∈ chunk.info.features.toList, s.informCache.localFeature2FpDb.lookup f = none) ∧
      s.informCache.getCacheSize = 0 ∧ runWriter cfg s chunk = .ok s') := by
  unfold runCache at hs
  obtain ⟨⟨out, cache⟩, hc, hs⟩ := bind_ok hs
  simp only [CacheCompThd.runChunk, h] at hc
  obtain ⟨⟨input', out'⟩, hp, hc⟩ := bind_ok hc
  rcases InformCache.processNormalChunk_cases cfg hp with
    ⟨rfl, hno, rfl⟩ | ⟨f, hf, base, data, delta, hl, hv, hd, he, rfl⟩
  · simp only at hc
    split at hc
    · rename_i h0
      cases hc
      refine Or.inr ⟨hno, h0, ?_⟩
      rw [foldlM_one] at hs
      have heq : ({ chunk with info := { chunk.info with stat := .uniqueChunk } } : WrappedChunk)
          = chunk := by rw [← h]
      simp only [heq] at hs
      exact hs
    · exact nomatch hc
  · cases hc
    rw [foldlM_one] at hs
    exact Or.inl ⟨f, hf, base, data, delta, hl, hv, hd, he, hs⟩

/-- The exits of the cache stage on a new single chunk. -/
theorem runCache_single_error {chunk : WrappedChunk} (h : chunk.info.stat = .uniqueChunk)
    {e : Exit} (hs : runCache cfg s chunk = .error e) :
    (e = .cacheChunkType ∧
      ∀ f ∈ chunk.info.features.toList, s.informCache.localFeature2FpDb.lookup f = none) ∨
    (e = .cacheBaseMissing ∧ ∃ f ∈ chunk.info.features.toList, ∃ base,
      s.informCache.localFeature2FpDb.lookup f = some base ∧
      s.informCache.base2DataDb.lookup base = none) ∨
    e = .deltaEncode ∨ ∃ chunk', (chunk'.info.stat = .uniqueChunk ∨
      chunk'.info.stat = .cacheDeltaChunk) ∧ runWriter cfg s chunk' = .error e := by
  unfold runCache at hs
  rcases bind_error hs with hc | ⟨⟨out, cache⟩, hc, hs⟩
  · simp only [CacheCompThd.runChunk, h] at hc
    rcases bind_error hc with hp | ⟨⟨input', out'⟩, hp, hc⟩
    · rcases InformCache.processNormalChunk_error cfg hp with ⟨he, hx⟩ | he
      · exact Or.inr (Or.inl ⟨he, hx⟩)
      · exact Or.inr (Or.inr (Or.inl he))
    · rcases InformCache.processNormalChunk_cases cfg hp with
        ⟨rfl, hno, rfl⟩ | ⟨f, hf, base, data, delta, hl, -, hd, he, rfl⟩
      · simp only at hc
        split at hc
        · exact nomatch hc
        · cases hc
          exact Or.inl ⟨rfl, hno⟩
      · exact nomatch hc
  · simp only [CacheCompThd.runChunk, h] at hc
    obtain ⟨⟨input', out'⟩, hp, hc⟩ := bind_ok hc
    rcases InformCache.processNormalChunk_cases cfg hp with
      ⟨rfl, hno, rfl⟩ | ⟨f, hf, base, data, delta, hl, -, hd, he, rfl⟩
    · simp only at hc
      split at hc
      · cases hc
        rw [foldlM_one] at hs
        exact Or.inr (Or.inr (Or.inr ⟨_, Or.inl rfl, hs⟩))
      · exact nomatch hc
    · cases hc
      rw [foldlM_one] at hs
      exact Or.inr (Or.inr (Or.inr ⟨_, Or.inr rfl, hs⟩))

/-- The cache stage drops the listed features one by one; the writer sees
nothing of them. -/
theorem runEvict_eq (garbage : ChunkInfo) (features : List Feature) :
    runEvict cfg s garbage features =
      features.foldlM InformCache.evictFeature s.informCache >>=
        fun informCache => .ok { s with informCache := informCache } := by
  have hone : ∀ (s : UploadState) (fs : List Feature),
      runDual cfg s ⟨{ garbage with stat := .cacheEvictChunk }, [], fs⟩ =
        fs.foldlM InformCache.evictFeature s.informCache >>=
          fun informCache => .ok { s with informCache := informCache } := by
    intro s fs
    simp only [runDual, DualDedupThd.runChunk, ok_bind, foldlM_one, runCache,
      CacheCompThd.runChunk, InformCache.evictCacheChunk]
    cases fs.foldlM InformCache.evictFeature s.informCache with
    | ok c => rfl
    | error e => rfl
  have hall : ∀ (pieces : List (List Feature)) (s : UploadState),
      (pieces.map fun fs => (⟨{ garbage with stat := .cacheEvictChunk }, [], fs⟩ : WrappedChunk)).foldlM
          (runDual cfg) s =
        pieces.flatten.foldlM InformCache.evictFeature s.informCache >>=
          fun informCache => .ok { s with informCache := informCache } := by
    intro pieces
    induction pieces with
    | nil => intro s; rfl
    | cons fs pieces ih =>
        intro s
        rw [List.map_cons, List.foldlM_cons, hone, List.flatten_cons, List.foldlM_append]
        cases fs.foldlM InformCache.evictFeature s.informCache with
        | ok c => exact ih _
        | error e => rfl
  rw [runEvict, DataRecvThd.processEvictFeature, hall,
    DataRecvThd.splitFeatures_flatten _ _ (Nat.le_refl _)]

end UploadState

end EDRStore
