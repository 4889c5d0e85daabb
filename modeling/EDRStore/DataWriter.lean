/-
# `EDRStore.DataWriter` — `DataWriterThd`

The last stage of an upload: each queue element is stored as it is, or as a
delta against the base its features point to, and its record replaces whatever
`fp_2_addr_db` holds for its fingerprint.

`Stores` says once what one element does; `runChunk_stores` derives it from the
code, and later results never look into the code again.
-/
import EDRStore.StorageLog
import EDRStore.Reduction

namespace EDRStore

/-- What the threads of all clients share. -/
structure Server where
  fp2AddrDb : Index Fp KeyForChunkHashDB
  feature2FpDb : Index Feature Fp
  storageCore : StorageCore

/-- A server started on empty indexes and no containers. -/
def Server.empty : Server := { fp2AddrDb := ∅, feature2FpDb := ∅, storageCore := .empty }

namespace DataWriterThd

variable (cfg : Components)

/-- `DataWriterThd::FetchBaseChunk`: the base's bytes, its size (0 when it could
not be read), and the client after the read. -/
def fetchBaseChunk (srv : Server) (baseFp : Fp) (cur : ClientStore) :
    Except Exit (Bytes × Nat × ClientStore) :=
  match srv.fp2AddrDb.lookup baseFp with
  | none => .error .writerBaseMissing
  | some baseAddr =>
      match srv.storageCore.readChunk baseAddr cur with
      | (some baseData, cur) => .ok (baseData, baseAddr.len, cur)
      | (none, cur) => .ok (cfg.uninitData, 0, cur)

/-- `WriteChunk` of the chunk as it is, under the given status. -/
def writeAs (stat : ChunkStatus) (core : StorageCore) (inputChunk : WrappedChunk)
    (cur : ClientStore) : WrappedChunk × StorageCore × ClientStore :=
  let r := core.writeChunk cfg inputChunk.info.addr inputChunk.data cur
  ({ inputChunk with info := { inputChunk.info with addr := { r.1 with stat := stat } } },
    r.2.1, r.2.2)

/-- `DataWriterThd::ProcNonSimilarChunk`. -/
def procNonSimilarChunk (core : StorageCore) (inputChunk : WrappedChunk) (cur : ClientStore) :
    WrappedChunk × StorageCore × ClientStore :=
  writeAs cfg .compBaseChunk core inputChunk cur

/-- `DataWriterThd::ProcCacheDeltaChunk`. -/
def procCacheDeltaChunk (core : StorageCore) (inputChunk : WrappedChunk) (cur : ClientStore) :
    WrappedChunk × StorageCore × ClientStore :=
  writeAs cfg .cacheDeltaChunk core inputChunk cur

/-- The write of `ProcSimilarChunk` for a base of size 0.  There is no return
after it: the delta is written as well. -/
def avoidDelta (core : StorageCore) (inputChunk : WrappedChunk) (baseSize : Nat)
    (cur : ClientStore) : KeyForChunkHashDB × StorageCore × ClientStore :=
  if baseSize = 0 then core.writeChunk cfg inputChunk.info.addr inputChunk.data cur
  else (inputChunk.info.addr, core, cur)

/-- The rest of `ProcSimilarChunk`: the delta, written and marked. -/
def writeDelta (inputChunk : WrappedChunk) (delta : Bytes)
    (r : KeyForChunkHashDB × StorageCore × ClientStore) :
    WrappedChunk × StorageCore × ClientStore :=
  let w := r.2.1.writeChunk cfg r.1 delta r.2.2
  ({ inputChunk with info := { inputChunk.info with addr := { w.1 with stat := .compDeltaChunk } } },
    w.2.1, w.2.2)

/-- `DataWriterThd::ProcSimilarChunk`. -/
def procSimilarChunk (srv : Server) (inputChunk : WrappedChunk) (cur : ClientStore) :
    Except Exit (WrappedChunk × StorageCore × ClientStore) := do
  let base ← fetchBaseChunk cfg srv inputChunk.info.addr.baseFp cur
  let r := avoidDelta cfg srv.storageCore inputChunk base.2.1 base.2.2
  let delta ← orExit .deltaEncode (cfg.deltaEncode (base.1.take base.2.1) inputChunk.data)
  .ok (writeDelta cfg inputChunk delta r)

/-- The end of a turn: `fp_2_addr_db_->InsertBothBuffer`. -/
def updateFpIndex (srv : Server) (chunk : WrappedChunk) : Server :=
  { srv with fp2AddrDb := srv.fp2AddrDb.insert chunk.info.fp chunk.info.addr }

/-- One turn of the loop of `DataWriterThd::Run`. -/
def runChunk (srv : Server) (chunk : WrappedChunk) (cur : ClientStore) :
    Except Exit (Server × ClientStore) :=
  match chunk.info.stat with
  | .cacheDeltaChunk =>
      let r := procCacheDeltaChunk cfg srv.storageCore chunk cur
      .ok (updateFpIndex { srv with storageCore := r.2.1 } r.1, r.2.2)
  | .uniqueChunk =>
      let chunk :=
        { chunk with info := SimilarPolicy.findBaseChunkDb srv.feature2FpDb chunk.info }
      match chunk.info.stat with
      | .similarChunk => do
          let r ← procSimilarChunk cfg srv chunk cur
          .ok (updateFpIndex { srv with storageCore := r.2.1 } r.1, r.2.2)
      | .nonSimilarChunk =>
          let r := procNonSimilarChunk cfg srv.storageCore chunk cur
          let feature2FpDb :=
            SimilarPolicy.updateFeatureIndex srv.feature2FpDb r.1.info.features r.1.info.fp
          .ok (updateFpIndex { srv with storageCore := r.2.1, feature2FpDb := feature2FpDb } r.1,
            r.2.2)
      | _ => .error .writerUniqueType
  | _ => .error .writerChunkType

/-- The loop of `DataWriterThd::Run` over the elements it pops. -/
def runLoop (srv : Server) (cur : ClientStore) (chunks : List WrappedChunk) :
    Except Exit (Server × ClientStore) :=
  chunks.foldlM (fun s chunk => runChunk cfg s.1 chunk s.2) (srv, cur)

/-- After the loop: the tail container. -/
def runEnd (srv : Server) (cur : ClientStore) : Server :=
  { srv with storageCore := srv.storageCore.saveTail cur }

/-! ## What one element does -/

variable {cfg} {log log' : Content} {srv srv' : Server} {cur cur' : ClientStore}
  {chunk : WrappedChunk}

/-- The bytes a delta is computed against: the base as logged, or nothing when
its container is not found. -/
def baseBytes (log : Content) (srv : Server) (cur : ClientStore) (baseAddr : KeyForChunkHashDB) :
    Bytes :=
  if Readable srv.storageCore cur baseAddr.containerId then baseAddr.extent.read log else []

/-- The form one element is stored in: the status and base of its record, the
bytes behind it, and the features entered for it. -/
inductive Form (cfg : Components) (log : Content) (srv : Server) (cur : ClientStore)
    (chunk : WrappedChunk) : KeyForChunkHashDB → Bytes → Index Feature Fp → Nat → Prop
  | cacheDelta {addr data} (hs : chunk.info.stat = .cacheDeltaChunk)
      (hstat : addr.stat = .cacheDeltaChunk) (hbase : addr.baseFp = chunk.info.addr.baseFp)
      (hdata : data = chunk.data) :
      Form cfg log srv cur chunk addr data srv.feature2FpDb 1
  | base {addr data} (hs : chunk.info.stat = .uniqueChunk)
      (hno : ∀ f ∈ chunk.info.features.toList, srv.feature2FpDb.lookup f = none)
      (hstat : addr.stat = .compBaseChunk) (hdata : data = chunk.data) :
      Form cfg log srv cur chunk addr data
        (srv.feature2FpDb.insertAll chunk.info.features.toList chunk.info.fp) 1
  | delta {addr baseAddr delta n} (f : Feature) (hs : chunk.info.stat = .uniqueChunk)
      (hf : f ∈ chunk.info.features.toList)
      (hbase : srv.feature2FpDb.lookup f = some addr.baseFp)
      (haddr : srv.fp2AddrDb.lookup addr.baseFp = some baseAddr)
      (hstat : addr.stat = .compDeltaChunk)
      (hdelta : baseAddr.extent.Within log →
        cfg.deltaEncode (baseBytes log srv cur baseAddr) chunk.data = some delta)
      -- a base that is not found, or is empty, costs a second record
      (hn : n = if Readable srv.storageCore cur baseAddr.containerId ∧ baseAddr.len ≠ 0
        then 1 else 2) :
      Form cfg log srv cur chunk addr delta srv.feature2FpDb n

/-- One turn of the writer: it appends the bytes of the record it publishes. -/
structure Stores (cfg : Components) (log log' : Content) (srv srv' : Server)
    (cur cur' : ClientStore) (chunk : WrappedChunk) (addr : KeyForChunkHashDB) : Prop where
  evolves : Evolves cfg log log' srv.storageCore srv'.storageCore cur cur'
  within : addr.extent.Within log'
  readable : Readable srv'.storageCore cur' addr.containerId
  published : srv'.fp2AddrDb = srv.fp2AddrDb.insert chunk.info.fp addr
  form : ∃ n, Form cfg log srv cur chunk addr (addr.extent.read log') srv'.feature2FpDb n ∧
    srv'.storageCore.writeChunkNum = srv.storageCore.writeChunkNum + n

theorem Stores.lookup {addr : KeyForChunkHashDB}
    (h : Stores cfg log log' srv srv' cur cur' chunk addr)
    (fp : Fp) : srv'.fp2AddrDb.lookup fp =
      if fp = chunk.info.fp then some addr else srv.fp2AddrDb.lookup fp := by
  rw [h.published, Index.lookup_insert_ite]

/-- A fetched base is what the log holds at its address, cut to nothing when the
container is not found. -/
theorem fetchBaseChunk_spec (hst : LogOk cfg log srv.storageCore)
    (ho : OpenOk cfg log srv.storageCore cur.curContainer)
    (hc : CacheOk srv.storageCore cur.containerCache) {baseFp : Fp} {base : Bytes × Nat × ClientStore}
    (h : fetchBaseChunk cfg srv baseFp cur = .ok base) :
    ∃ baseAddr, srv.fp2AddrDb.lookup baseFp = some baseAddr ∧
      base.2.2 = (srv.storageCore.readChunk baseAddr cur).2 ∧
      (base.2.1 = if Readable srv.storageCore cur baseAddr.containerId then baseAddr.len else 0) ∧
      (baseAddr.extent.Within log → base.1.take base.2.1 = baseBytes log srv cur baseAddr) := by
  unfold fetchBaseChunk at h
  cases hb : srv.fp2AddrDb.lookup baseFp with
  | none => rw [hb] at h; exact nomatch h
  | some baseAddr =>
      rw [hb] at h
      simp only at h
      refine ⟨baseAddr, rfl, ?_⟩
      by_cases hr : Readable srv.storageCore cur baseAddr.containerId
      · obtain ⟨data, hdata, hw⟩ := readChunk_found hst hc ho hr
        generalize srv.storageCore.readChunk baseAddr cur = r at h hdata
        obtain ⟨d, c⟩ := r
        cases hdata
        cases h
        refine ⟨rfl, by rw [if_pos hr], fun hwin => ?_⟩
        rw [baseBytes, if_pos hr, hw hwin]
        refine List.take_of_length_le ?_
        rw [Extent.read, length_slice (by exact hwin)]
        exact Nat.le_refl _
      · rw [readChunk_absent hc hr] at h
        cases h
        refine ⟨by rw [readChunk_absent hc hr], by rw [if_neg hr], fun _ => ?_⟩
        rw [baseBytes, if_neg hr, List.take_zero]

theorem writeAs_stores (chunk : WrappedChunk) (hid : cfg.FreshIds)
    (hst : LogOk cfg log srv.storageCore)
    (ho : OpenOk cfg log srv.storageCore cur.curContainer)
    (hc : CacheOk srv.storageCore cur.containerCache) (stat : ChunkStatus) :
    let r := writeAs cfg stat srv.storageCore chunk cur
    ∃ log', Evolves cfg log log' srv.storageCore r.2.1 cur r.2.2 ∧
      r.1.info.addr.extent.Within log' ∧ r.1.info.addr.extent.read log' = chunk.data ∧
      Readable r.2.1 r.2.2 r.1.info.addr.containerId ∧
      r.2.1.writeChunkNum = srv.storageCore.writeChunkNum + 1 := by
  obtain ⟨log', hw⟩ := writeChunk_wrote hid hst ho chunk.info.addr chunk.data
  exact ⟨log', Evolves.ofWrote hc hw, hw.within, hw.reads, hw.readable_new, hw.counted⟩

/-- The extra write of `ProcSimilarChunk`, taken or not. -/
theorem avoidDelta_evolves (hid : cfg.FreshIds) {core : StorageCore}
    (hst : LogOk cfg log core) (ho : OpenOk cfg log core cur.curContainer)
    (hc : CacheOk core cur.containerCache) {baseSize : Nat}
    {r : KeyForChunkHashDB × StorageCore × ClientStore}
    (h : avoidDelta cfg core chunk baseSize cur = r) :
    ∃ log', Evolves cfg log log' core r.2.1 cur r.2.2 ∧ r.1.baseFp = chunk.info.addr.baseFp ∧
      r.2.1.writeChunkNum = core.writeChunkNum + if baseSize = 0 then 1 else 0 := by
  unfold avoidDelta at h
  split at h
  · rename_i h0
    subst h
    obtain ⟨log', hw⟩ := writeChunk_wrote hid hst ho chunk.info.addr chunk.data
    exact ⟨log', Evolves.ofWrote hc hw, rfl, by rw [if_pos h0]; exact hw.counted⟩
  · rename_i h0
    subst h
    exact ⟨log, Evolves.refl hst ho hc, rfl, by rw [if_neg h0]; rfl⟩

/-- What `ProcSimilarChunk` leaves behind. -/
theorem procSimilarChunk_spec (hid : cfg.FreshIds) (hst : LogOk cfg log srv.storageCore)
    (ho : OpenOk cfg log srv.storageCore cur.curContainer)
    (hc : CacheOk srv.storageCore cur.containerCache)
    {r : WrappedChunk × StorageCore × ClientStore}
    (h : procSimilarChunk cfg srv chunk cur = .ok r) :
    ∃ log' baseAddr delta, srv.fp2AddrDb.lookup chunk.info.addr.baseFp = some baseAddr ∧
      Evolves cfg log log' srv.storageCore r.2.1 cur r.2.2 ∧
      r.1.info.fp = chunk.info.fp ∧ r.1.info.addr.baseFp = chunk.info.addr.baseFp ∧
      r.1.info.addr.stat = .compDeltaChunk ∧
      r.1.info.addr.extent.Within log' ∧ r.1.info.addr.extent.read log' = delta ∧
      Readable r.2.1 r.2.2 r.1.info.addr.containerId ∧
      (baseAddr.extent.Within log →
        cfg.deltaEncode (baseBytes log srv cur baseAddr) chunk.data = some delta) ∧
      r.2.1.writeChunkNum = srv.storageCore.writeChunkNum +
        if Readable srv.storageCore cur baseAddr.containerId ∧ baseAddr.len ≠ 0 then 1 else 2 := by
  unfold procSimilarChunk at h
  obtain ⟨base, hbase, h⟩ := bind_ok h
  obtain ⟨delta, hdelta, h⟩ := bind_ok h
  have hdelta := orExit_ok hdelta
  obtain ⟨baseAddr, haddr, hread, hsize, hbytes⟩ := fetchBaseChunk_spec hst ho hc hbase
  have e1 := Evolves.ofRead hst ho hc baseAddr
  rw [← hread] at e1
  obtain ⟨log1, e2, hb2, hn2⟩ :=
    avoidDelta_evolves hid e1.logOk e1.openOk e1.cacheOk
      (Eq.refl (avoidDelta cfg srv.storageCore chunk base.2.1 base.2.2))
  obtain ⟨log2, hw⟩ := writeChunk_wrote hid e2.logOk e2.openOk
    (avoidDelta cfg srv.storageCore chunk base.2.1 base.2.2).1 delta
  cases h
  refine ⟨log2, baseAddr, delta, haddr, (e1.trans e2).trans (Evolves.ofWrote e2.cacheOk hw), rfl,
    hb2, rfl, hw.within, hw.reads, hw.readable_new, ?_, ?_⟩
  · intro hwin
    rw [← hbytes hwin]
    exact hdelta
  · have hcount := hw.counted
    rw [hn2] at hcount
    refine hcount.trans ?_
    rw [hsize]
    by_cases hr : Readable srv.storageCore cur baseAddr.containerId
    · by_cases hl : baseAddr.len = 0 <;> simp [hr, hl]
    · simp [hr]

/-- Every turn that does not end the process is one of the three forms. -/
theorem runChunk_stores (hid : cfg.FreshIds) (hst : LogOk cfg log srv.storageCore)
    (ho : OpenOk cfg log srv.storageCore cur.curContainer)
    (hc : CacheOk srv.storageCore cur.containerCache)
    (h : runChunk cfg srv chunk cur = .ok (srv', cur')) :
    ∃ log' addr, Stores cfg log log' srv srv' cur cur' chunk addr := by
  unfold runChunk at h
  split at h
  · rename_i hs
    cases h
    obtain ⟨log', hev, hwin, hread, hr, hn⟩ :=
      writeAs_stores chunk hid hst ho hc .cacheDeltaChunk
    exact ⟨log', _, hev, hwin, hr, rfl, 1, Form.cacheDelta hs rfl rfl hread, hn⟩
  · rename_i hs
    simp only [SimilarPolicy.findBaseChunkDb] at h
    generalize hr : SimilarPolicy.findBaseChunk srv.feature2FpDb.lookup chunk.info = r at h
    have hv : SimilarPolicy.Verdict srv.feature2FpDb.lookup chunk.info r :=
      hr ▸ SimilarPolicy.findBaseChunk_verdict _ _
    cases hv with
    | nonSimilar hno =>
        simp only at h
        cases h
        obtain ⟨log', hev, hwin, hread, hrd, hn⟩ :=
          writeAs_stores { chunk with info := { chunk.info with stat := .nonSimilarChunk } }
            hid hst ho hc .compBaseChunk
        exact ⟨log', _, hev, hwin, hrd, rfl, 1, Form.base hs hno rfl hread, hn⟩
    | similar f base hf hb =>
        simp only at h
        obtain ⟨r, hr, h⟩ := bind_ok h
        cases h
        obtain ⟨log', baseAddr, delta, haddr, hev, hfp, hbfp, hstat, hwin, hread, hrd, hd, hn⟩ :=
          procSimilarChunk_spec hid hst ho hc hr
        refine ⟨log', r.1.info.addr, hev, hwin, hrd, ?_, _, ?_, hn⟩
        · rw [← hfp]; rfl
        · rw [hread]
          have hb' : srv.feature2FpDb.lookup f = some r.1.info.addr.baseFp := by rw [hbfp]; exact hb
          exact Form.delta f hs hf hb' (by rw [hbfp]; exact haddr) hstat hd rfl
  · exact nomatch h

/-! ## When the writer ends the process -/

theorem fetchBaseChunk_error {baseFp : Fp} {e : Exit}
    (h : fetchBaseChunk cfg srv baseFp cur = .error e) :
    e = .writerBaseMissing ∧ srv.fp2AddrDb.lookup baseFp = none := by
  unfold fetchBaseChunk at h
  cases haddr : srv.fp2AddrDb.lookup baseFp with
  | none =>
      rw [haddr] at h
      cases h
      exact ⟨rfl, rfl⟩
  | some baseAddr =>
      rw [haddr] at h
      simp only at h
      split at h <;> exact nomatch h

theorem procSimilarChunk_error {e : Exit} (h : procSimilarChunk cfg srv chunk cur = .error e) :
    (e = .writerBaseMissing ∧ srv.fp2AddrDb.lookup chunk.info.addr.baseFp = none) ∨
      e = .deltaEncode := by
  unfold procSimilarChunk at h
  rcases bind_error h with h | ⟨base, -, h⟩
  · exact Or.inl (fetchBaseChunk_error h)
  · rcases bind_error h with h | ⟨delta, -, h⟩
    · exact Or.inr (orExit_error h).1
    · exact nomatch h

/-- The exits of one turn, with the states that lead to each. -/
theorem runChunk_error {e : Exit} (h : runChunk cfg srv chunk cur = .error e) :
    (e = .writerChunkType ∧ chunk.info.stat ≠ .cacheDeltaChunk ∧ chunk.info.stat ≠ .uniqueChunk) ∨
    (e = .writerBaseMissing ∧ chunk.info.stat = .uniqueChunk ∧
      ∃ f ∈ chunk.info.features.toList, ∃ base, srv.feature2FpDb.lookup f = some base ∧
        srv.fp2AddrDb.lookup base = none) ∨
    (e = .deltaEncode ∧ chunk.info.stat = .uniqueChunk) := by
  unfold runChunk at h
  split at h
  · exact nomatch h
  · rename_i hs
    simp only [SimilarPolicy.findBaseChunkDb] at h
    generalize hr : SimilarPolicy.findBaseChunk srv.feature2FpDb.lookup chunk.info = r at h
    have hv : SimilarPolicy.Verdict srv.feature2FpDb.lookup chunk.info r :=
      hr ▸ SimilarPolicy.findBaseChunk_verdict _ _
    cases hv with
    | nonSimilar hno => exact nomatch h
    | similar f base hf hb =>
        rcases bind_error h with h | ⟨r, -, h⟩
        · rcases procSimilarChunk_error h with ⟨he, hm⟩ | he
          · exact Or.inr (Or.inl ⟨he, hs, f, hf, base, hb, hm⟩)
          · exact Or.inr (Or.inr ⟨he, hs⟩)
        · exact nomatch h
  · rename_i h1 h2
    cases h
    exact Or.inl ⟨rfl, fun hs => h1 hs, fun hs => h2 hs⟩

end DataWriterThd

end EDRStore
