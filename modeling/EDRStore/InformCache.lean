/-
# `EDRStore.InformCache` — the server's per-client base cache

`inform_cache.cc`: the uncompressed base chunks a client announced, found by
feature (`local_feature_2_fp_db_`), counted by how many of their features are
still in (`base_2_cnt_idx_`), with the data in a database of its own that
outlives the session.  The two maps go to files between sessions
(`StoreCntIdx`, `LoadCntIdx`); the loader stops early on an empty count file.
-/
import EDRStore.Components
import EDRStore.Reduction

namespace EDRStore

structure InformCache where
  localFeature2FpDb : Index Feature Fp
  base2CntIdx : Index Fp Nat
  base2DataDb : Index Fp Bytes

/-- What a client id leaves on the server's disk: the `_cnt` and `_idx` files,
their entries in the order they were written, and the `_db` database. -/
structure InformFiles where
  cntFile : Option (List (Fp × Nat))
  idxFile : Option (List (Feature × Fp))
  dataDb : Index Fp Bytes

/-- A client id never seen before. -/
def InformFiles.none : InformFiles := { cntFile := .none, idxFile := .none, dataDb := ∅ }

namespace InformCache

variable (cfg : Components)

/-- `base_2_cnt_idx_[fp].first += SUPER_FEATURE_PER_CHUNK`, in 32 bits. -/
def addCnt (cnt : Nat) : Nat := (cnt + superFeaturePerChunk) % 2 ^ 32

/-- `InformCache::InsertCachedChunk`. -/
def insertCachedChunk (c : InformCache) (cacheChunk : WrappedChunk) : InformCache :=
  let fp := cacheChunk.info.fp
  let features :=
    SimilarPolicy.updateFeatureIndex c.localFeature2FpDb cacheChunk.info.features fp
  match c.base2CntIdx.lookup fp with
  | some cnt =>
      { c with
        localFeature2FpDb := features
        base2CntIdx := c.base2CntIdx.insert fp (addCnt cnt) }
  | none =>
      { localFeature2FpDb := features
        base2CntIdx := c.base2CntIdx.insert fp superFeaturePerChunk
        base2DataDb := c.base2DataDb.insert fp cacheChunk.data }

/-- `InformCache::ProcessNormalChunk`: the input with its verdict, and the delta
chunk when there is a base.  The fields of the output that are not assigned are
not read from a `CACHE_DELTA_CHUNK`. -/
def processNormalChunk (c : InformCache) (inputChunk : WrappedChunk) :
    Except Exit (WrappedChunk × Option WrappedChunk) :=
  let info := SimilarPolicy.findBaseChunkMap c.localFeature2FpDb inputChunk.info
  let input := { inputChunk with info := info }
  match info.stat with
  | .similarChunk =>
      match c.base2DataDb.lookup info.addr.baseFp with
      | some base => do
          let delta ← orExit .deltaEncode (cfg.deltaEncode base inputChunk.data)
          .ok (input, some { input with
            info := { info with stat := .cacheDeltaChunk }
            data := delta })
      | none => .error .cacheBaseMissing
  | .nonSimilarChunk => .ok (input, none)
  | _ => .error .cacheStatType

/-- One turn of the loop of `EvictCacheChunk`. -/
def evictFeature (c : InformCache) (feature : Feature) : Except Exit InformCache :=
  match c.localFeature2FpDb.lookup feature with
  | some fp =>
      match c.base2CntIdx.lookup fp with
      | some cnt =>
          .ok { c with
            base2CntIdx := c.base2CntIdx.insert fp (cnt - 1)
            localFeature2FpDb := c.localFeature2FpDb.erase feature }
      | none => .error .evictCountMissing
  | none => .error .evictFeatureMissing

/-- `InformCache::EvictCacheChunk`. -/
def evictCacheChunk (c : InformCache) (evictChunk : WrappedChunk) : Except Exit InformCache :=
  evictChunk.evictFeatures.foldlM evictFeature c

/-- `InformCache::DeleteEvictChunk`. -/
def deleteEvictChunk (c : InformCache) : InformCache :=
  { c with
    base2CntIdx := c.base2CntIdx.filter fun _ cnt => cnt ≠ 0
    base2DataDb := c.base2DataDb.filter fun fp _ => c.base2CntIdx.lookup fp ≠ some 0 }

/-- `InformCache::IsBaseChunkExist`. -/
def isBaseChunkExist (c : InformCache) (baseFp : Fp) : Bool :=
  (c.base2CntIdx.lookup baseFp).isSome

/-- `InformCache::FetchBaseChunk`. -/
def fetchBaseChunk (c : InformCache) (baseFp : Fp) : Except Exit Bytes :=
  orExit .cacheFetchMissing (c.base2DataDb.lookup baseFp)

/-- `InformCache::GetCacheSize`. -/
def getCacheSize (c : InformCache) : Nat := c.localFeature2FpDb.keys.card

/-- `InformCache::LoadCntIdx`. -/
def loadCntIdx (files : InformFiles) : InformCache :=
  let none := { localFeature2FpDb := ∅, base2CntIdx := ∅, base2DataDb := files.dataDb }
  match files.cntFile with
  | some [] => none    -- the feature index is not read either
  | cntFile =>
      let cnt := { none with base2CntIdx := Index.insertList ∅ (cntFile.getD []) }
      match files.idxFile with
      | some [] => cnt
      | idxFile => { cnt with localFeature2FpDb := Index.insertList ∅ (idxFile.getD []) }

/-- `InformCache::StoreCntIdx`, the two maps written in the orders given. -/
def storeCntIdx (c : InformCache) (cntOrder : List (Fp × Nat)) (idxOrder : List (Feature × Fp)) :
    InformFiles :=
  { cntFile := some cntOrder, idxFile := some idxOrder, dataDb := c.base2DataDb }

/-! ## Looking into the cache after each operation -/

@[simp] theorem addCnt_lt (cnt : Nat) : addCnt cnt < 2 ^ 32 := Nat.mod_lt _ (by decide)

variable {c : InformCache}

theorem insertCachedChunk_present {chunk : WrappedChunk} {cnt : Nat}
    (h : c.base2CntIdx.lookup chunk.info.fp = some cnt) :
    c.insertCachedChunk chunk = { c with
      localFeature2FpDb := c.localFeature2FpDb.insertAll chunk.info.features.toList chunk.info.fp
      base2CntIdx := c.base2CntIdx.insert chunk.info.fp (addCnt cnt) } := by
  simp only [insertCachedChunk, h]
  rfl

theorem insertCachedChunk_absent {chunk : WrappedChunk}
    (h : c.base2CntIdx.lookup chunk.info.fp = none) :
    c.insertCachedChunk chunk =
      { localFeature2FpDb := c.localFeature2FpDb.insertAll chunk.info.features.toList chunk.info.fp
        base2CntIdx := c.base2CntIdx.insert chunk.info.fp superFeaturePerChunk
        base2DataDb := c.base2DataDb.insert chunk.info.fp chunk.data } := by
  simp only [insertCachedChunk, h]
  rfl

theorem lookup_insertCachedChunk_feature (chunk : WrappedChunk) (f : Feature) :
    (c.insertCachedChunk chunk).localFeature2FpDb.lookup f =
      if f ∈ chunk.info.features.toList then some chunk.info.fp
      else c.localFeature2FpDb.lookup f := by
  cases h : c.base2CntIdx.lookup chunk.info.fp with
  | some cnt => rw [insertCachedChunk_present h, Index.lookup_insertAll]
  | none => rw [insertCachedChunk_absent h, Index.lookup_insertAll]

theorem lookup_insertCachedChunk_cnt (chunk : WrappedChunk) (fp : Fp) :
    (c.insertCachedChunk chunk).base2CntIdx.lookup fp =
      if fp = chunk.info.fp then
        some (((c.base2CntIdx.lookup chunk.info.fp).map addCnt).getD superFeaturePerChunk)
      else c.base2CntIdx.lookup fp := by
  cases h : c.base2CntIdx.lookup chunk.info.fp with
  | some cnt => rw [insertCachedChunk_present h, Index.lookup_insert_ite]; rfl
  | none => rw [insertCachedChunk_absent h, Index.lookup_insert_ite]; rfl

theorem lookup_insertCachedChunk_data (chunk : WrappedChunk) (fp : Fp) :
    (c.insertCachedChunk chunk).base2DataDb.lookup fp =
      if fp = chunk.info.fp ∧ c.base2CntIdx.lookup chunk.info.fp = none then some chunk.data
      else c.base2DataDb.lookup fp := by
  cases h : c.base2CntIdx.lookup chunk.info.fp with
  | some cnt => rw [insertCachedChunk_present h]; simp
  | none => rw [insertCachedChunk_absent h, Index.lookup_insert_ite]; simp

theorem getCacheSize_eq_zero : c.getCacheSize = 0 ↔ c.localFeature2FpDb = ∅ :=
  Index.card_keys_eq_zero

/-- Two ways to leave `ProcessNormalChunk`: no feature is in, or the delta
against the base that one of them names. -/
theorem processNormalChunk_cases {input input' : WrappedChunk} {out : Option WrappedChunk}
    (h : c.processNormalChunk cfg input = .ok (input', out)) :
    (out = none ∧ (∀ f ∈ input.info.features.toList, c.localFeature2FpDb.lookup f = none) ∧
      input' = { input with info := { input.info with stat := .nonSimilarChunk } }) ∨
    (∃ f ∈ input.info.features.toList, ∃ fp base delta,
      c.localFeature2FpDb.lookup f = some fp ∧
      (SimilarPolicy.findBaseChunkMap c.localFeature2FpDb input.info).addr.baseFp = fp ∧
      c.base2DataDb.lookup fp = some base ∧ cfg.deltaEncode base input.data = some delta ∧
      out = some { input with
        info := { input.info with
          addr := { input.info.addr with baseFp := fp }
          stat := .cacheDeltaChunk }
        data := delta }) := by
  unfold processNormalChunk at h
  unfold SimilarPolicy.findBaseChunkMap at h ⊢
  generalize hr : SimilarPolicy.findBaseChunk c.localFeature2FpDb.lookup input.info = r at h ⊢
  have hv : SimilarPolicy.Verdict c.localFeature2FpDb.lookup input.info r :=
    hr ▸ SimilarPolicy.findBaseChunk_verdict _ _
  cases hv with
  | nonSimilar hn =>
      cases h
      exact Or.inl ⟨rfl, hn, rfl⟩
  | similar f fp hf hb =>
      simp only at h
      cases hd : c.base2DataDb.lookup fp with
      | none => rw [hd] at h; exact nomatch h
      | some base =>
          rw [hd] at h
          obtain ⟨delta, hdelta, hok⟩ := bind_ok h
          cases hok
          exact Or.inr ⟨f, hf, fp, base, delta, hb, rfl, hd, orExit_ok hdelta, rfl⟩

/-- The exits of `ProcessNormalChunk`. -/
theorem processNormalChunk_error {input : WrappedChunk} {e : Exit}
    (h : c.processNormalChunk cfg input = .error e) :
    (e = .cacheBaseMissing ∧ ∃ f ∈ input.info.features.toList, ∃ fp,
      c.localFeature2FpDb.lookup f = some fp ∧ c.base2DataDb.lookup fp = none) ∨
    e = .deltaEncode := by
  unfold processNormalChunk SimilarPolicy.findBaseChunkMap at h
  generalize hr : SimilarPolicy.findBaseChunk c.localFeature2FpDb.lookup input.info = r at h
  have hv : SimilarPolicy.Verdict c.localFeature2FpDb.lookup input.info r :=
    hr ▸ SimilarPolicy.findBaseChunk_verdict _ _
  cases hv with
  | nonSimilar hn => exact nomatch h
  | similar f fp hf hb =>
      simp only at h
      cases hd : c.base2DataDb.lookup fp with
      | none =>
          rw [hd] at h
          cases h
          exact Or.inl ⟨rfl, f, hf, fp, hb, hd⟩
      | some base =>
          rw [hd] at h
          rcases bind_error h with h | ⟨delta, -, h⟩
          · exact Or.inr (orExit_error h).1
          · exact nomatch h

theorem evictFeature_cases {f : Feature} {c' : InformCache} (h : c.evictFeature f = .ok c') :
    ∃ fp cnt, c.localFeature2FpDb.lookup f = some fp ∧ c.base2CntIdx.lookup fp = some cnt ∧
      c' = { c with
        base2CntIdx := c.base2CntIdx.insert fp (cnt - 1)
        localFeature2FpDb := c.localFeature2FpDb.erase f } := by
  unfold evictFeature at h
  cases hf : c.localFeature2FpDb.lookup f with
  | none => rw [hf] at h; exact nomatch h
  | some fp =>
      rw [hf] at h
      simp only at h
      cases hc : c.base2CntIdx.lookup fp with
      | none => rw [hc] at h; exact nomatch h
      | some cnt =>
          rw [hc] at h
          cases h
          exact ⟨fp, cnt, rfl, hc, rfl⟩

theorem lookup_deleteEvictChunk_cnt (fp : Fp) :
    c.deleteEvictChunk.base2CntIdx.lookup fp = (c.base2CntIdx.lookup fp).filter (· ≠ 0) := by
  simp [deleteEvictChunk, Index.lookup_filter]

theorem lookup_deleteEvictChunk_data (fp : Fp) :
    c.deleteEvictChunk.base2DataDb.lookup fp =
      if c.base2CntIdx.lookup fp = some 0 then none else c.base2DataDb.lookup fp := by
  simp only [deleteEvictChunk, Index.lookup_filter]
  cases c.base2DataDb.lookup fp with
  | none => simp
  | some d => by_cases h : c.base2CntIdx.lookup fp = some 0 <;> simp [h]

/-- The counts and the data come back whatever becomes of the features. -/
theorem load_store_cnt {cntOrder : List (Fp × Nat)} (idxOrder : List (Feature × Fp))
    (hc : Index.Lists c.base2CntIdx cntOrder) :
    (loadCntIdx (c.storeCntIdx cntOrder idxOrder)).base2CntIdx = c.base2CntIdx ∧
      (loadCntIdx (c.storeCntIdx cntOrder idxOrder)).base2DataDb = c.base2DataDb := by
  cases cntOrder with
  | nil => exact ⟨(Index.eq_empty_of_lists_nil hc).symm, rfl⟩
  | cons e cntOrder =>
      have hcnt := Index.insertList_of_lists hc
      cases idxOrder with
      | nil => exact ⟨hcnt, rfl⟩
      | cons e' idxOrder => exact ⟨hcnt, rfl⟩

/-- Storing and loading gives the cache back, provided an empty count index
comes with an empty feature index: the loader skips the latter then. -/
theorem load_store {cntOrder : List (Fp × Nat)} {idxOrder : List (Feature × Fp)}
    (hc : Index.Lists c.base2CntIdx cntOrder) (hi : Index.Lists c.localFeature2FpDb idxOrder)
    (h0 : c.base2CntIdx = ∅ → c.localFeature2FpDb = ∅) :
    loadCntIdx (c.storeCntIdx cntOrder idxOrder) = c := by
  cases cntOrder with
  | nil =>
      have hcnt := Index.eq_empty_of_lists_nil hc
      have hidx := h0 hcnt
      obtain ⟨local', cnt, data⟩ := c
      subst hcnt hidx
      rfl
  | cons e cntOrder =>
      have hcnt := Index.insertList_of_lists hc
      have hidx := Index.insertList_of_lists hi
      cases idxOrder with
      | nil =>
          simp only [loadCntIdx, storeCntIdx, Option.getD_some, hcnt]
          have hemp : c.localFeature2FpDb = ∅ := hidx.symm
          rw [← hemp]
      | cons e' idxOrder =>
          simp only [loadCntIdx, storeCntIdx, Option.getD_some, hcnt, hidx]

end InformCache

end EDRStore
