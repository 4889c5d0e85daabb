/-
# `EDRStore.Decoder` — the messages of a restore

`DataDecoderThd::Run` as it builds its messages, and `DataRetrieverThd` as it
takes them apart with a key for each logical chunk.  The counter that decides
when a message is full counts logical chunks; a delta whose base is no longer
cached is one of them and takes two entries.
-/
import EDRStore.Wire

namespace EDRStore

/-! ## Type codes -/

/-- The value of the enumerator. -/
def ChunkStatus.code : ChunkStatus → UInt8
  | .uniqueChunk => 0
  | .uniqueChunkAfterCache => 1
  | .duplicateChunk => 2
  | .similarChunk => 3
  | .nonSimilarChunk => 4
  | .compDeltaChunk => 5
  | .uncompDeltaChunk => 6
  | .compBaseChunk => 7
  | .uncompBaseChunk => 8
  | .cacheInsertChunk => 9
  | .cacheDeltaChunk => 10
  | .cacheEvictChunk => 11
  | .multiLevelDeltaChunk => 12
  | .chunkPair => 13
  | .singleChunk => 14

def SendType.code : SendType → UInt8
  | .data t => t.code
  | .stat s => s.code

/-! ## The decoder -/

/-- `Reader2Decoder_t`: what the decoder looks at, and what the headers of the
input and the base chunk hold in the fields nobody sets. -/
structure Reader2Decoder where
  raw : RawChunk
  stale : SendChunkHeader
  baseStale : SendChunkHeader

/-- The header of an entry. -/
def RestoreChunk.header (stale : SendChunkHeader) (c : RestoreChunk) : SendChunkHeader :=
  { stale with size := c.data.length, type := c.type.code }

/-- An entry as it stands in a message. -/
def RestoreChunk.bytes (stale : SendChunkHeader) (c : RestoreChunk) : Bytes :=
  (c.header stale).encode ++ c.data

/-- The entries of a logical chunk with their headers: the second one is the base. -/
def Reader2Decoder.headed (x : Reader2Decoder) (entries : List RestoreChunk) :
    List (RestoreChunk × SendChunkHeader) :=
  entries.zip [x.stale, x.baseStale]

structure DecoderState where
  sendChunkBuf : SendMsgBuffer
  /-- What `SendData` was called with, in order. -/
  sent : List Bytes

namespace DataDecoderThd

variable (cfg : Components) (clientId batchSize : Nat)

/-- Header and data copied behind what the buffer holds. -/
def addEntry (b : SendMsgBuffer) (e : RestoreChunk × SendChunkHeader) : SendMsgBuffer :=
  (b.append (e.1.header e.2).encode).append e.1.data

/-- `DataDecoderThd::SendChunks`. -/
def sendChunks (s : DecoderState) : DecoderState :=
  { sendChunkBuf := s.sendChunkBuf.clear
    sent := s.sent ++ [s.sendChunkBuf.message clientId .serverRestoreChunk] }

/-- One turn of the loop of `DataDecoderThd::Run`: the entries of `DecodeChunk`
appended, one logical chunk counted. -/
def runChunk (s : DecoderState) (x : Reader2Decoder) : Except Exit DecoderState := do
  let entries ← decodeChunk cfg x.raw
  let s := { s with sendChunkBuf := ((x.headed entries).foldl addEntry s.sendChunkBuf).countItem }
  .ok (if s.sendChunkBuf.curItemNum % batchSize = 0 then sendChunks clientId s else s)

/-- `DataDecoderThd::Run`, up to `SendEnd`. -/
def run (s : DecoderState) (queue : List Reader2Decoder) : Except Exit DecoderState := do
  let s ← queue.foldlM (runChunk cfg clientId batchSize) s
  .ok (if s.sendChunkBuf.curItemNum ≠ 0 then sendChunks clientId s else s)

/-- `ClientVar::InitDownloadBuffer`, with what the allocated buffer holds. -/
def new (dataBuf : Bytes) : DecoderState where
  sendChunkBuf := { dataBuf := dataBuf, size := 0, curItemNum := 0 }
  sent := []

end DataDecoderThd

/-! ## The retriever -/

/-- `send_recipe_batch_size_` times the size of a record, in 64 bits, as the
allocator and a stream take it: from 2^63 on no buffer is given, and a stream
takes the number for a negative one and reads nothing. -/
def recipeBatchBytes (recipeBatchSize : Nat) : Nat :=
  if recipeBatchSize * chunkHashSize % 2 ^ 64 < 2 ^ 63 then recipeBatchSize * chunkHashSize % 2 ^ 64
  else 0

/-- A logical chunk as `DataRetrieverThd::FullEDR` has processed it: the key it
used, `remain_recipe_num_` just before it was decremented, the entries, and the
restored chunk. -/
structure Retrieved where
  key : Key
  remain : Nat
  entries : List RestoreChunk
  chunk : Bytes

/-- The members of `DataRetrieverThd` that its loop changes. -/
structure RetrieverState where
  recvBuf : Bytes
  keyRecipe : BatchBuf
  remainRecipeNum : Nat
  /-- What is left to read of the key recipe. -/
  keyRecipeHdl : Bytes
  totalRecvChunkNum : Nat
  /-- What was pushed, in order. -/
  output : List Retrieved

namespace DataRetrieverThd

variable (cfg : Components) (recipeBatchSize : Nat)

/-- `DataRetrieverThd::FetchKeyRecipe`. -/
def fetchKeyRecipe (s : RetrieverState) : RetrieverState :=
  let got := s.keyRecipeHdl.take (recipeBatchBytes recipeBatchSize)
  { s with
    keyRecipe := { buf := memcpy s.keyRecipe.buf 0 got, cnt := 0 }
    remainRecipeNum := u32 (got.length / chunkHashSize)
    keyRecipeHdl := s.keyRecipeHdl.drop (recipeBatchBytes recipeBatchSize) }

/-- The header and the data at `offset`, and where they end; `offset` is a
`size_t` here. -/
def entryAt (dataBuf : Bytes) (offset : Nat) : SendChunkHeader × Bytes × Nat :=
  let header := SendChunkHeader.decode (slice dataBuf offset sendChunkHeaderSize)
  let offset := offset + sendChunkHeaderSize
  (header, slice dataBuf offset header.size, offset + header.size)

/-- The branches of the switch of `DataRetrieverThd::FullEDR`. -/
def restoreType (b : UInt8) : Option SendType :=
  match b.toNat with
  | 7 => some (.data .compNormalChunk)
  | 8 => some (.data .uncompNormalChunk)
  | 5 => some (.data .cacheRestoreDelta)
  | 12 => some (.stat .multiLevelDeltaChunk)
  | _ => none

/-- How `DataRetrieverThd::FullEDR` takes one logical chunk from the message. -/
def parseItem (dataBuf : Bytes) (offset : Nat) : Except Exit (List RestoreChunk × Nat) :=
  let e := entryAt dataBuf offset
  match restoreType e.1.type with
  | some (.data .cacheRestoreDelta) =>
      -- read the compressed base chunk; its type is not looked at
      let e' := entryAt dataBuf e.2.2
      .ok ([⟨.data .cacheRestoreDelta, e.2.1⟩, ⟨.data .cacheRestoreBase, e'.2.1⟩], e'.2.2)
  | some t => .ok ([⟨t, e.2.1⟩], e.2.2)
  | none => .error .retrieverChunkType

/-- One turn of the loop of `DataRetrieverThd::FullEDR`. -/
def fullEDRTurn (s : RetrieverState) (dataBuf : Bytes) (offset : Nat) :
    Except Exit (RetrieverState × Nat) := do
  let s := if s.remainRecipeNum = 0 then fetchKeyRecipe recipeBatchSize s else s
  let key := slice s.keyRecipe.buf (s.keyRecipe.cnt * chunkHashSize) chunkHashSize
  let item ← parseItem dataBuf offset
  let r ← fullEDRItem cfg key item.1
  .ok ({ s with
    keyRecipe := { s.keyRecipe with cnt := u32 (s.keyRecipe.cnt + 1) }
    remainRecipeNum := u32 (s.remainRecipeNum + (2 ^ 32 - 1))
    totalRecvChunkNum := (s.totalRecvChunkNum + 1) % 2 ^ 64
    output := s.output ++ [⟨key, s.remainRecipeNum, item.1, r.1⟩] }, item.2)

/-- The loop of `DataRetrieverThd::FullEDR`, once for each of `cur_item_num`. -/
def fullEDRLoop (dataBuf : Bytes) : Nat → RetrieverState → Nat → Except Exit RetrieverState
  | 0, s, _ => .ok s
  | n + 1, s, offset => do
      let r ← fullEDRTurn cfg recipeBatchSize s dataBuf offset
      fullEDRLoop dataBuf n r.1 r.2

/-- One `SERVER_RESTORE_CHUNK` message received and processed. -/
def recvRestore (s : RetrieverState) (message : Bytes) : Except Exit RetrieverState :=
  let buf := memcpy s.recvBuf 0 message
  let head := NetworkHead.decode (buf.take networkHeadSize)
  fullEDRLoop cfg recipeBatchSize (buf.drop networkHeadSize) head.curItemNum
    { s with recvBuf := buf } 0

/-- `DataRetrieverThd::Run` on the messages before the final one. -/
def run (s : RetrieverState) (messages : List Bytes) : Except Exit RetrieverState :=
  messages.foldlM (recvRestore cfg recipeBatchSize) s

/-- The constructor, with what the two allocated buffers hold. -/
def new (recvBuf keyBuf keyRecipeHdl : Bytes) : RetrieverState where
  recvBuf := recvBuf
  keyRecipe := { buf := keyBuf, cnt := 0 }
  remainRecipeNum := 0
  keyRecipeHdl := keyRecipeHdl
  totalRecvChunkNum := 0
  output := []

end DataRetrieverThd

end EDRStore
