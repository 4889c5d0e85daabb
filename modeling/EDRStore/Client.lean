/-
# `EDRStore.Client` — what a client sends and what it makes of what comes back

`SelectCompThd` decides in which form each chunk goes to the server, `SenderThd`
encrypts the compressed ones, and on the way back `DataRetrieverThd` undoes the
form each chunk is sent in, with the one key recorded for that chunk.
-/
import EDRStore.CacheMeta
import EDRStore.DataReader

namespace EDRStore

/-- `EncFeatureChunk_t`: a plaintext chunk with its ciphertext, the features of
the ciphertext, its key and its padding seed. -/
structure EncFeatureChunk where
  data : Bytes
  encData : Bytes
  features : Features
  key : Key
  seed : Nat

/-- `SendChunk_t`.  The last two header fields are read for a
`FULL_EDR_UNCOMPRESS_CHUNK`, the first of them for a `FULL_EDR_CACHE_CHUNK` too. -/
structure SendChunk where
  type : DataType
  data : Bytes
  cipherFeatures : Features
  compressedFp : Fp

/-- What `KeyGenThd` and `CipherSimilarThd` make of a chunk once its key and
padding seed are known. -/
def prepareChunk (cfg : Components) (data : Bytes) (key : Key) (seed : Nat) : EncFeatureChunk :=
  let encData := cfg.twoPhaseEncChunk data key
  { data := data, encData := encData, features := cfg.extractFeature encData, key := key,
    seed := seed }

namespace SelectCompThd

variable (cfg : Components)

/-- `SelectCompThd::OnlyEncMode`, a normal chunk. -/
def onlyEncMode (input : EncFeatureChunk) : SendChunk :=
  { type := .normalChunk, data := input.encData, cipherFeatures := input.features,
    compressedFp := [] }

/-- `SelectCompThd::EncCompMode`, a normal chunk. -/
def encCompMode (input : EncFeatureChunk) : SendChunk :=
  { type := .compressedNormalChunk, data := cfg.compressWithPad input.data input.seed,
    cipherFeatures := input.features, compressedFp := [] }

/-- `SelectCompThd::FullEDR`, a normal chunk: the cache chunk if one is needed,
the chunk itself, and the cache metadata afterwards. -/
def fullEDR (m : CacheMeta) (input : EncFeatureChunk) :
    Option SendChunk × SendChunk × CacheMeta :=
  let q := m.queryCacheMeta input.features
  if q.1 then
    let compressedData := cfg.compressWithPad input.data input.seed
    let encData := cfg.twoPhaseEncChunk compressedData input.key
    (none,
      { type := .fullEdrUncompressChunk, data := input.encData, cipherFeatures := input.features,
        compressedFp := cfg.generateHash encData },
      q.2)
  else
    (some
      { type := .fullEdrCacheChunk, data := input.encData, cipherFeatures := input.features,
        compressedFp := [] },
      { type := .compressedNormalChunk, data := cfg.compressWithPad input.data input.seed,
        cipherFeatures := input.features, compressedFp := [] },
      q.2.updateCacheMeta input.features)

/-- The switch of `SelectCompThd::Run`. -/
def runChunk (method : MethodType) (m : CacheMeta) (input : EncFeatureChunk) :
    Option SendChunk × SendChunk × CacheMeta :=
  match method with
  | .onlySimilarEnc => (none, onlyEncMode input, m)
  | .similarEncComp => (none, encCompMode cfg input, m)
  | .fullEdr => fullEDR cfg m input

end SelectCompThd

namespace SenderThd

variable (cfg : Components)

/-- `SenderThd::Run` on one chunk: a compressed chunk is encrypted here. -/
def sendChunk (key : Key) (chunk : SendChunk) : SendChunk :=
  match chunk.type with
  | .compressedNormalChunk =>
      { chunk with type := .normalChunk, data := cfg.twoPhaseEncChunk chunk.data key }
  | _ => chunk

/-- The entries of one logical item, as they stand in a message. -/
def sendItem (method : MethodType) (m : CacheMeta) (input : EncFeatureChunk) :
    List SendChunk × CacheMeta :=
  let r := SelectCompThd.runChunk cfg method m input
  (r.1.toList.map (sendChunk cfg input.key) ++ [sendChunk cfg input.key r.2.1], r.2.2)

end SenderThd

namespace DataRetrieverThd

variable (cfg : Components)

/-- `DataRetrieverThd::ProcCompChunk`. -/
def procCompChunk (input : Bytes) (key : Key) : Except Exit Bytes := do
  let data ← orExit .retrieverDecrypt (cfg.twoPhaseDecChunk input key)
  .ok (cfg.decompressWithPad data)

/-- `DataRetrieverThd::ProcUncompChunk`. -/
def procUncompChunk (input : Bytes) (key : Key) : Except Exit Bytes :=
  orExit .retrieverDecrypt (cfg.twoPhaseDecChunk input key)

/-- `DataRetrieverThd::ProcRestoreBaseChunk`. -/
def procRestoreBaseChunk (input : Bytes) (key : Key) : Except Exit Bytes := do
  let data ← orExit .retrieverDecrypt (cfg.twoPhaseDecChunk input key)
  .ok (cfg.twoPhaseEncChunk (cfg.decompressWithPad data) key)

/-- One turn of the loop of `DataRetrieverThd::FullEDR`: the restored chunk and
the entries left. -/
def fullEDRItem (key : Key) : List RestoreChunk → Except Exit (Bytes × List RestoreChunk)
  | ⟨.data .compNormalChunk, data⟩ :: rest => do
      let chunk ← procCompChunk cfg data key
      .ok (chunk, rest)
  | ⟨.data .uncompNormalChunk, data⟩ :: rest => do
      let chunk ← procUncompChunk cfg data key
      .ok (chunk, rest)
  | ⟨.data .cacheRestoreDelta, delta⟩ :: base :: rest => do
      let base ← procRestoreBaseChunk cfg base.data key
      let enc ← orExit .deltaDecode (cfg.deltaDecode base delta)
      let chunk ← procUncompChunk cfg enc key
      .ok (chunk, rest)
  -- directly ignore multi-level delta
  | ⟨.stat .multiLevelDeltaChunk, data⟩ :: rest => .ok (data, rest)
  | _ => .error .retrieverChunkType

/-- `DataRetrieverThd::FullEDR`: one item for each recorded key. -/
def fullEDR : List Key → List RestoreChunk → Except Exit (List Bytes)
  | [], _ => .ok []
  | key :: keys, entries => do
      let r ← fullEDRItem cfg key entries
      let chunks ← fullEDR keys r.2
      .ok (r.1 :: chunks)

end DataRetrieverThd

end EDRStore
