/-
# `EDRStore.Baseline` — the storage path of the other server

`Baseline` is the system EDRStore is compared with: its server compresses by
itself what the clients send, chunk or delta, and keeps in one status byte
which of the four forms it stored.  Modelled are the turn of
`DataWriterThd::Run`, `DataReaderThd::FetchChunk` and
`DataDecoderThd::DecodeChunk`; `SimilarPolicy`, `DeltaComp`, `CompressUtil` and
`StorageCore` are the files of EDRStore again, but for the `ReadChunk` that
ends the process where the other one returns `false`.
-/
import EDRStore.DataReader
import EDRStore.CompressUtil

namespace EDRStore
namespace Baseline

/-- One constructor for each `exit(EXIT_FAILURE)` of the modelled functions. -/
inductive Exit where
  /-- `DataWriterThd::Run`. -/
  | writerChunkType
  /-- `DataWriterThd::FetchBaseChunk`. -/
  | writerBaseMissing
  | writerBaseType
  /-- `StorageCore::ReadChunk`. -/
  | containerMissing
  /-- `DeltaComp`. -/
  | deltaEncode
  | deltaDecode
  /-- `DataReaderThd::FetchChunk`. -/
  | reqChunkMissing
  | reqBaseMissing
  /-- `DataDecoderThd::DecodeChunk`. -/
  | multiLevelDelta
deriving DecidableEq, Repr

/-- What is logged before the process ends. -/
def Exit.message : Exit → String
  | .writerChunkType => "wrong chunk type.\n"
  | .writerBaseMissing => "req base chunk not exits.\n"
  | .writerBaseType => "wrong base chunk type.\n"
  | .containerMissing => "cannot find the container: %s\n"
  | .deltaEncode => "delta encoding fails: %d.\n"
  | .deltaDecode => "delta decoding fails: %d.\n"
  | .reqChunkMissing => "cannot find the req chunk addr.\n"
  | .reqBaseMissing => "cannot find the req base chunk addr.\n"
  | .multiLevelDelta => "exists multi-level delta.\n"

/-- A call that gives nothing ends the process. -/
def orExit {α : Type} (e : Exit) : Option α → Except Exit α
  | some a => .ok a
  | none => .error e

@[simp] theorem orExit_some {α : Type} (e : Exit) (a : α) : orExit e (some a) = .ok a := rfl

@[simp] theorem orExit_none {α : Type} (e : Exit) : orExit e (none : Option α) = .error e := rfl

/-- `WrappedChunk_t`. -/
structure WrappedChunk where
  info : ChunkInfo
  data : Bytes
deriving DecidableEq, Repr

/-- `StorageCore::ReadChunk`. -/
def readChunk (st : StorageCore) (addr : KeyForChunkHashDB) (cur : ClientStore) :
    Except Exit (Bytes × ClientStore) :=
  match st.readChunk addr cur with
  | (some data, cur) => .ok (data, cur)
  | (none, _) => .error .containerMissing

/-! ## The writer -/

namespace DataWriterThd

variable (cfg : Components) (util : CompressUtil)

/-- `DataWriterThd::FetchBaseChunk`. -/
def fetchBaseChunk (srv : Server) (baseFp : Fp) (cur : ClientStore) :
    Except Exit (Bytes × ClientStore) := do
  let baseAddr ← orExit .writerBaseMissing (srv.fp2AddrDb.lookup baseFp)
  let rawBaseChunk ← readChunk srv.storageCore baseAddr cur
  match baseAddr.stat with
  | .compBaseChunk => .ok (util.decompressOneChunk rawBaseChunk.1, rawBaseChunk.2)
  | .uncompBaseChunk => .ok rawBaseChunk
  | _ => .error .writerBaseType

/-- What both `Proc` functions end with: `data` compressed if possible, written,
and the status by what became of it. -/
def writeCompressed (comp uncomp : ChunkStatus) (core : StorageCore) (inputChunk : WrappedChunk)
    (data : Bytes) (cur : ClientStore) : WrappedChunk × StorageCore × ClientStore :=
  let c := util.compressOneChunk data
  let w := core.writeChunk cfg inputChunk.info.addr c.2 cur
  let stat := if c.1 then comp else uncomp
  ({ inputChunk with info := { inputChunk.info with addr := { w.1 with stat := stat } } },
    w.2.1, w.2.2)

/-- `DataWriterThd::ProcSimilarChunk`; the chunk's own buffer takes the compressed delta. -/
def procSimilarChunk (srv : Server) (inputChunk : WrappedChunk) (cur : ClientStore) :
    Except Exit (WrappedChunk × StorageCore × ClientStore) := do
  let base ← fetchBaseChunk util srv inputChunk.info.addr.baseFp cur
  let delta ← orExit .deltaEncode (cfg.deltaEncode base.1 inputChunk.data)
  let r := writeCompressed cfg util .compDeltaChunk .uncompDeltaChunk srv.storageCore inputChunk
    delta base.2
  .ok ({ r.1 with data := (util.compressOneChunk delta).2 }, r.2)

/-- `DataWriterThd::ProcNonSimilarChunk`. -/
def procNonSimilarChunk (core : StorageCore) (inputChunk : WrappedChunk) (cur : ClientStore) :
    WrappedChunk × StorageCore × ClientStore :=
  writeCompressed cfg util .compBaseChunk .uncompBaseChunk core inputChunk inputChunk.data cur

/-- The end of a turn: `fp_2_addr_db_->InsertBothBuffer`. -/
def updateFpIndex (srv : Server) (chunk : WrappedChunk) : Server :=
  { srv with fp2AddrDb := srv.fp2AddrDb.insert chunk.info.fp chunk.info.addr }

/-- One turn of the loop of `DataWriterThd::Run`. -/
def runChunk (srv : Server) (chunk : WrappedChunk) (cur : ClientStore) :
    Except Exit (Server × ClientStore) :=
  let chunk := { chunk with info := SimilarPolicy.findBaseChunkDb srv.feature2FpDb chunk.info }
  match chunk.info.stat with
  | .similarChunk => do
      let r ← procSimilarChunk cfg util srv chunk cur
      .ok (updateFpIndex { srv with storageCore := r.2.1 } r.1, r.2.2)
  | .nonSimilarChunk =>
      let r := procNonSimilarChunk cfg util srv.storageCore chunk cur
      let feature2FpDb :=
        SimilarPolicy.updateFeatureIndex srv.feature2FpDb r.1.info.features r.1.info.fp
      .ok (updateFpIndex { srv with storageCore := r.2.1, feature2FpDb := feature2FpDb } r.1,
        r.2.2)
  | _ => .error .writerChunkType

/-- The loop of `DataWriterThd::Run` over the elements it pops. -/
def runLoop (srv : Server) (cur : ClientStore) (chunks : List WrappedChunk) :
    Except Exit (Server × ClientStore) :=
  chunks.foldlM (fun s chunk => runChunk cfg util s.1 chunk s.2) (srv, cur)

/-- After the loop: the tail container. -/
def runEnd (srv : Server) (cur : ClientStore) : Server :=
  { srv with storageCore := srv.storageCore.saveTail cur }

end DataWriterThd

/-! ## The reader and the decoder -/

namespace DataReaderThd

/-- `DataReaderThd::FetchChunk`: what it pushes for the decoder. -/
def fetchChunk (srv : Server) (fp : Fp) (cur : ClientStore) :
    Except Exit (RawChunk × ClientStore) := do
  let addr ← orExit .reqChunkMissing (srv.fp2AddrDb.lookup fp)
  let r ← readChunk srv.storageCore addr cur
  if addr.stat = .uncompDeltaChunk ∨ addr.stat = .compDeltaChunk then
    let baseAddr ← orExit .reqBaseMissing (srv.fp2AddrDb.lookup addr.baseFp)
    let b ← readChunk srv.storageCore baseAddr r.2
    .ok (⟨addr.stat, r.1, some (baseAddr.stat, b.1)⟩, b.2)
  else
    .ok (⟨addr.stat, r.1, none⟩, r.2)

end DataReaderThd

namespace DataDecoderThd

variable (cfg : Components) (util : CompressUtil)

/-- `DataDecoderThd::DecodeChunk`: the entry appended to the send buffer. -/
def decodeChunk (rawChunk : RawChunk) : Except Exit RestoreChunk :=
  let realInputChunk :=
    if rawChunk.inputStat = .compBaseChunk ∨ rawChunk.inputStat = .compDeltaChunk then
      util.decompressOneChunk rawChunk.inputData
    else rawChunk.inputData
  if rawChunk.inputStat = .compDeltaChunk ∨ rawChunk.inputStat = .uncompDeltaChunk then do
    let realBaseChunk ←
      match rawChunk.baseChunk with
      | some (.compBaseChunk, base) => .ok (util.decompressOneChunk base)
      | some (.uncompBaseChunk, base) => .ok base
      | _ => .error .multiLevelDelta
    let outputChunk ← orExit .deltaDecode (cfg.deltaDecode realBaseChunk realInputChunk)
    .ok ⟨.data .normalChunk, outputChunk⟩
  else .ok ⟨.data .normalChunk, realInputChunk⟩

/-- `FetchChunk`, then `DecodeChunk` on what it pushed. -/
def restoreChunk (srv : Server) (fp : Fp) (cur : ClientStore) :
    Except Exit (RestoreChunk × ClientStore) := do
  let r ← DataReaderThd.fetchChunk srv fp cur
  let out ← decodeChunk cfg util r.1
  .ok (out, r.2)

/-- The fingerprints of a recipe, one after the other. -/
def restoreAll (srv : Server) : List Fp → ClientStore → Except Exit (List RestoreChunk × ClientStore)
  | [], cur => .ok ([], cur)
  | fp :: fps, cur => do
      let r ← restoreChunk cfg util srv fp cur
      let rs ← restoreAll srv fps r.2
      .ok (r.1 :: rs.1, rs.2)

end DataDecoderThd

end Baseline
end EDRStore
