/-
# `EDRStore.DataReader` — `DataReaderThd` and `DataDecoderThd`

The server's side of a restore: `FetchChunk` looks a fingerprint up and reads
the chunk with the base its record names, `DecodeChunk` turns the pair into what
is sent to the client.  A chunk delta-encoded against a cached base is decoded
on the server while that base is still cached, and sent as delta and base
otherwise.
-/
import EDRStore.DataWriter
import EDRStore.InformCache

namespace EDRStore

/-- `SendChunkHeader_t::type`, one byte that holds a `DATA_TYPE_SET` or, for a
chunk no decoder handles, a `CHUNK_STATUS_SET` value. -/
inductive SendType where
  | data (type : DataType)
  | stat (stat : ChunkStatus)
deriving DecidableEq, Repr

/-- One entry of a restore message. -/
structure RestoreChunk where
  type : SendType
  data : Bytes
deriving DecidableEq, Repr

/-- `Reader2Decoder_t`; the base is unassigned for a base chunk. -/
structure RawChunk where
  inputStat : ChunkStatus
  inputData : Bytes
  baseChunk : Option (ChunkStatus × Bytes)
deriving DecidableEq, Repr

namespace DataReaderThd

variable (cfg : Components)

/-- `ReadChunk` into a chunk buffer; the caller looks at no return value. -/
def readInto (srv : Server) (addr : KeyForChunkHashDB) (cur : ClientStore) : Bytes × ClientStore :=
  let r := srv.storageCore.readChunk addr cur
  (r.1.getD cfg.uninitData, r.2)

/-- `DataReaderThd::ProcNormalDeltaChunk`. -/
def procNormalDeltaChunk (srv : Server) (inputAddr : KeyForChunkHashDB) (cur : ClientStore) :
    Except Exit ((ChunkStatus × Bytes) × ClientStore) := do
  let baseAddr ← orExit .reqBaseMissing (srv.fp2AddrDb.lookup inputAddr.baseFp)
  let r := readInto cfg srv baseAddr cur
  .ok ((baseAddr.stat, r.1), r.2)

/-- `DataReaderThd::ProcCacheDeltaChunk`. -/
def procCacheDeltaChunk (srv : Server) (informCache : InformCache)
    (inputAddr : KeyForChunkHashDB) (cur : ClientStore) :
    Except Exit ((ChunkStatus × Bytes) × ClientStore) :=
  if informCache.isBaseChunkExist inputAddr.baseFp then do
    -- directly read from the cache
    let base ← informCache.fetchBaseChunk inputAddr.baseFp
    .ok ((.uncompBaseChunk, base), cur)
  else do
    let baseAddr ← orExit .reqBaseMissing (srv.fp2AddrDb.lookup inputAddr.baseFp)
    match baseAddr.stat with
    | .compDeltaChunk =>
        -- the compressed base is itself a delta: restore it first
        let r := readInto cfg srv baseAddr cur
        let baseBaseAddr ← orExit .reqBaseBaseMissing (srv.fp2AddrDb.lookup baseAddr.baseFp)
        let r' := readInto cfg srv baseBaseAddr r.2
        let base ← orExit .deltaDecode (cfg.deltaDecode r'.1 r.1)
        .ok ((.compBaseChunk, base), r'.2)
    | .compBaseChunk =>
        let r := readInto cfg srv baseAddr cur
        .ok ((.compBaseChunk, r.1), r.2)
    | .cacheDeltaChunk => .ok ((.multiLevelDeltaChunk, cfg.uninitData), cur)
    | _ => .error .cacheDeltaBaseStat

/-- `DataReaderThd::FetchChunk`. -/
def fetchChunk (srv : Server) (informCache : InformCache) (fp : Fp) (cur : ClientStore) :
    Except Exit (RawChunk × ClientStore) := do
  let addr ← orExit .reqChunkMissing (srv.fp2AddrDb.lookup fp)
  let r := readInto cfg srv addr cur
  match addr.stat with
  | .compDeltaChunk =>
      let b ← procNormalDeltaChunk cfg srv addr r.2
      .ok (⟨addr.stat, r.1, some b.1⟩, b.2)
  | .compBaseChunk => .ok (⟨addr.stat, r.1, none⟩, r.2)
  | .cacheDeltaChunk =>
      let b ← procCacheDeltaChunk cfg srv informCache addr r.2
      .ok (⟨addr.stat, r.1, some b.1⟩, b.2)
  | _ => .error .reqChunkStat

end DataReaderThd

namespace DataDecoderThd

variable (cfg : Components)

/-- `DataDecoderThd::DecodeChunk`: the entries appended to the send buffer. -/
def decodeChunk (rawChunk : RawChunk) : Except Exit (List RestoreChunk) :=
  match rawChunk.inputStat with
  | .compDeltaChunk =>
      match rawChunk.baseChunk with
      | some (.compBaseChunk, base) => do
          let data ← orExit .deltaDecode (cfg.deltaDecode base rawChunk.inputData)
          .ok [⟨.data .compNormalChunk, data⟩]
      | _ => .error .multiLevelDelta
  | .cacheDeltaChunk =>
      match rawChunk.baseChunk with
      | some (.compBaseChunk, base) =>
          -- let the client perform decompression
          .ok [⟨.data .cacheRestoreDelta, rawChunk.inputData⟩, ⟨.data .cacheRestoreBase, base⟩]
      | some (.uncompBaseChunk, base) => do
          let data ← orExit .deltaDecode (cfg.deltaDecode base rawChunk.inputData)
          .ok [⟨.data .uncompNormalChunk, data⟩]
      | some (.multiLevelDeltaChunk, _) =>
          .ok [⟨.stat .multiLevelDeltaChunk, rawChunk.inputData⟩]
      | _ => .error .sendingBaseType
  | .compBaseChunk => .ok [⟨.data .compNormalChunk, rawChunk.inputData⟩]
  | _ => .error .sendingType

/-- `FetchChunk`, then `DecodeChunk` on what it pushed. -/
def restoreChunk (srv : Server) (informCache : InformCache) (fp : Fp) (cur : ClientStore) :
    Except Exit (List RestoreChunk × ClientStore) := do
  let r ← DataReaderThd.fetchChunk cfg srv informCache fp cur
  let out ← decodeChunk cfg r.1
  .ok (out, r.2)

end DataDecoderThd

/-! ## Restoring a chunk from its record -/

/-- The container of `addr` has a file, or is the reader's own open one. -/
def Found (cfg : Components) (log : Content) (st : StorageCore) (cur : ClientStore)
    (addr : KeyForChunkHashDB) : Prop :=
  addr.containerId ∈ st.containers ∨
    (OpenOk cfg log st cur.curContainer ∧ cur.curContainer.id = addr.containerId)

variable {cfg : Components} {log : Content} {srv : Server} {cur : ClientStore}

theorem Found.ofReadable {st : StorageCore} (ho : OpenOk cfg log st cur.curContainer)
    {addr : KeyForChunkHashDB} (hr : Readable st cur addr.containerId) :
    Found cfg log st cur addr := by
  rcases hr with hs | hid
  · exact Or.inl hs
  · exact Or.inr ⟨ho, hid⟩

/-- What is found is read, and the reader can go on. -/
theorem readInto_spec (hst : LogOk cfg log srv.storageCore)
    (hc : CacheOk srv.storageCore cur.containerCache) {addr : KeyForChunkHashDB}
    (hr : Found cfg log srv.storageCore cur addr) (hw : addr.extent.Within log) :
    ∃ cache, DataReaderThd.readInto cfg srv addr cur =
        (addr.extent.read log, { cur with containerCache := cache }) ∧
      CacheOk srv.storageCore cache := by
  rcases hr with hs | ⟨ho, hid⟩
  · obtain ⟨data, cache, heq, hcache, hdata⟩ := readChunk_saved hst hc hs
    refine ⟨cache, ?_, hcache⟩
    simp only [DataReaderThd.readInto, heq, Option.getD_some, hdata hw]
  · refine ⟨cur.containerCache, ?_, hc⟩
    simp only [DataReaderThd.readInto, readChunk_open hc ho hid, Option.getD_some]

/-- A base record restores to its bytes. -/
theorem restoreChunk_base (informCache : InformCache) (hst : LogOk cfg log srv.storageCore)
    (hc : CacheOk srv.storageCore cur.containerCache) {fp : Fp}
    {addr : KeyForChunkHashDB} (hl : srv.fp2AddrDb.lookup fp = some addr)
    (hs : addr.stat = .compBaseChunk)
    (hr : Found cfg log srv.storageCore cur addr) (hw : addr.extent.Within log) :
    ∃ cache, DataDecoderThd.restoreChunk cfg srv informCache fp cur =
        .ok ([⟨.data .compNormalChunk, addr.extent.read log⟩],
          { cur with containerCache := cache }) ∧
      CacheOk srv.storageCore cache := by
  obtain ⟨cache, hread, hcache⟩ := readInto_spec hst hc hr hw
  refine ⟨cache, ?_, hcache⟩
  simp only [DataDecoderThd.restoreChunk, DataReaderThd.fetchChunk, hl, orExit_some, ok_bind,
    hread, hs, DataDecoderThd.decodeChunk]

/-- A one-level delta record restores to what its delta decodes to. -/
theorem restoreChunk_delta (informCache : InformCache) (hst : LogOk cfg log srv.storageCore)
    (hc : CacheOk srv.storageCore cur.containerCache) {fp : Fp}
    {addr baseAddr : KeyForChunkHashDB} {data : Bytes}
    (hl : srv.fp2AddrDb.lookup fp = some addr) (hs : addr.stat = .compDeltaChunk)
    (hr : Found cfg log srv.storageCore cur addr) (hw : addr.extent.Within log)
    (hl' : srv.fp2AddrDb.lookup addr.baseFp = some baseAddr) (hs' : baseAddr.stat = .compBaseChunk)
    (hr' : Found cfg log srv.storageCore cur baseAddr) (hw' : baseAddr.extent.Within log)
    (hd : cfg.deltaDecode (baseAddr.extent.read log) (addr.extent.read log) = some data) :
    ∃ cache, DataDecoderThd.restoreChunk cfg srv informCache fp cur =
        .ok ([⟨.data .compNormalChunk, data⟩], { cur with containerCache := cache }) ∧
      CacheOk srv.storageCore cache := by
  obtain ⟨cache, hread, hcache⟩ := readInto_spec hst hc hr hw
  obtain ⟨cache', hread', hcache'⟩ := readInto_spec hst hcache
    (show Found cfg log srv.storageCore { cur with containerCache := cache } baseAddr from hr') hw'
  refine ⟨cache', ?_, hcache'⟩
  simp only [DataDecoderThd.restoreChunk, DataReaderThd.fetchChunk,
    DataReaderThd.procNormalDeltaChunk, hl, hl', orExit_some, ok_bind, hread, hread', hs, hs',
    DataDecoderThd.decodeChunk, hd]

end EDRStore
