/-
# `EDRStore.Sender` — `SenderThd`, message by message

What `SelectCompThd::Run` pushes, with the two queue elements it reuses, and
what `SenderThd` makes of it: chunks gathered into messages of
`send_chunk_batch_size_` logical ones, and the key of each logical chunk
gathered into the key recipe.
-/
import EDRStore.Wire

namespace EDRStore

/-! ## The queue before the sender -/

/-- `SelectComp2Sender_t`. -/
structure SelectComp2Sender where
  sendChunk : SendChunk
  key : Key

/-- What is left of `old` when `new` is built in its place: a header field that
`new` does not set keeps its value. -/
def SendChunk.over (old new : SendChunk) : SendChunk :=
  match new.type with
  | .fullEdrUncompressChunk => new
  | .fullEdrCacheChunk => { new with compressedFp := old.compressedFp }
  | _ => { new with cipherFeatures := old.cipherFeatures, compressedFp := old.compressedFp }

namespace SelectCompThd

variable (cfg : Components)

/-- `SelectCompThd::Run`: what each turn pushes.  `send` and `cache` are what
`tmp_send_chunk` and `tmp_cache_chunk` hold from the turns before. -/
def run (method : MethodType) :
    CacheMeta → SelectComp2Sender → SelectComp2Sender → List EncFeatureChunk →
      List (List SelectComp2Sender)
  | _, _, _, [] => []
  | m, send, cache, input :: rest =>
      let r := runChunk cfg method m input
      let send' : SelectComp2Sender := ⟨send.sendChunk.over r.2.1, input.key⟩
      match r.1 with
      | some chunk =>
          let cache' := { cache with sendChunk := cache.sendChunk.over chunk }
          [cache', send'] :: run method r.2.2 send' cache' rest
      | none => [send'] :: run method r.2.2 send' cache rest

end SelectCompThd

/-! ## The sender -/

structure SenderState where
  sendChunkBuf : SendMsgBuffer
  keyRecipe : RecipeWriter
  /-- What `SendData` was called with, in order. -/
  sent : List Bytes

namespace SenderThd

variable (cfg : Components) (clientId batchSize recipeBatchSize : Nat)

/-- The constructor, with what the two allocated buffers hold. -/
def new (dataBuf keyBuf : Bytes) : SenderState where
  sendChunkBuf := { dataBuf := dataBuf, size := 0, curItemNum := 0 }
  keyRecipe := { batch := ⟨keyBuf, 0⟩, hdl := [] }
  sent := []

/-- Header and data copied behind what the buffer holds. -/
def addChunk (s : SenderState) (chunk : SendChunk) : SenderState :=
  { s with sendChunkBuf := (s.sendChunkBuf.append chunk.header.encode).append chunk.data }

/-- `SenderThd::SendChunks`. -/
def sendChunks (s : SenderState) : SenderState :=
  { s with
    sendChunkBuf := s.sendChunkBuf.clear
    sent := s.sent ++ [s.sendChunkBuf.message clientId .clientUploadChunk] }

/-- `SenderThd::StoreKeyRecipe`; the size is a `size_t`. -/
def storeKeyRecipe (s : SenderState) (key : Key) : SenderState :=
  { s with keyRecipe := s.keyRecipe.add (fun cnt => cnt * chunkHashSize) recipeBatchSize key }

/-- The count after the last entry of a logical chunk, and the message when
`send_chunk_batch_size_` are together. -/
def countItem (s : SenderState) : SenderState :=
  let s := { s with sendChunkBuf := s.sendChunkBuf.countItem }
  if s.sendChunkBuf.curItemNum % batchSize = 0 then sendChunks clientId s else s

/-- A chunk that ends a logical one: sent, and its key recorded. -/
def sendLogical (s : SenderState) (chunk : SendChunk) (key : Key) : SenderState :=
  storeKeyRecipe recipeBatchSize (countItem clientId batchSize (addChunk s chunk)) key

/-- `SenderThd::ProcessRecipeEnd`. -/
def processRecipeEnd (s : SenderState) (chunk : SendChunk) : SenderState :=
  let buf := s.sendChunkBuf.append chunk.data
  { s with sendChunkBuf := buf, sent := s.sent ++ [buf.message clientId .clientUploadRecipeEnd] }

/-- One turn of the loop of `SenderThd::Run`, up to the evictions that follow
the end of the recipe. -/
def runChunk (s : SenderState) (input : SelectComp2Sender) : Except Exit SenderState :=
  match input.sendChunk.type with
  | .compressedNormalChunk =>
      .ok (sendLogical clientId batchSize recipeBatchSize s
        (sendChunk cfg input.key input.sendChunk) input.key)
  | .normalChunk =>
      .ok (sendLogical clientId batchSize recipeBatchSize s input.sendChunk input.key)
  -- do not need to update key recipe
  | .fullEdrCacheChunk => .ok (addChunk s input.sendChunk)
  | .fullEdrUncompressChunk =>
      .ok (sendLogical clientId batchSize recipeBatchSize s input.sendChunk input.key)
  | .recipeChunk =>
      let s := if s.sendChunkBuf.curItemNum ≠ 0 then sendChunks clientId s else s
      let s := { s with keyRecipe := s.keyRecipe.finish fun cnt => cnt * chunkHashSize }
      .ok (processRecipeEnd clientId s input.sendChunk)
  | _ => .error .senderChunkType

/-- The loop of `SenderThd::Run`. -/
def run (s : SenderState) (queue : List SelectComp2Sender) : Except Exit SenderState :=
  queue.foldlM (runChunk cfg clientId batchSize recipeBatchSize) s

end SenderThd

/-! ## The receiver -/

namespace DataRecvThd

/-- The header and the data that lie at `offset`, and where they end; `offset` is
a `uint32_t`. -/
def entryAt (dataBuf : Bytes) (offset : Nat) : SendChunkHeader × Bytes × Nat :=
  let header := SendChunkHeader.decode (slice dataBuf offset sendChunkHeaderSize)
  let offset := u32 (offset + sendChunkHeaderSize)
  (header, slice dataBuf offset header.size, u32 (offset + header.size))

/-- How `DataRecvThd::ProcessChunks` takes one logical chunk from the message. -/
def parseItem (dataBuf : Bytes) (offset : Nat) : Except Exit (List SendChunk × Nat) :=
  let e := entryAt dataBuf offset
  match DataType.ofCode e.1.type with
  | some .fullEdrCacheChunk =>
      -- read the later compressed normal chunk; its type is not looked at
      let e' := entryAt dataBuf e.2.2
      .ok ([⟨.fullEdrCacheChunk, e.2.1, e.1.cipherFeatures, e.1.compressedFp⟩,
        ⟨(DataType.ofCode e'.1.type).getD .normalChunk, e'.2.1, e'.1.cipherFeatures,
          e'.1.compressedFp⟩], e'.2.2)
  | some .fullEdrUncompressChunk =>
      .ok ([⟨.fullEdrUncompressChunk, e.2.1, e.1.cipherFeatures, e.1.compressedFp⟩], e.2.2)
  | some .normalChunk =>
      .ok ([⟨.normalChunk, e.2.1, e.1.cipherFeatures, e.1.compressedFp⟩], e.2.2)
  | _ => .error .recvChunkType

/-- The loop of `DataRecvThd::ProcessChunks`, once for each of `cur_item_num`. -/
def parseItems (dataBuf : Bytes) : Nat → Nat → Except Exit (List (List SendChunk))
  | 0, _ => .ok []
  | n + 1, offset => do
      let r ← parseItem dataBuf offset
      let items ← parseItems dataBuf n r.2
      .ok (r.1 :: items)

/-- One message received into the buffer, whose old contents lie behind it. -/
def recvChunks (recvBuf message : Bytes) : Except Exit (Nat × List (List SendChunk)) := do
  let buf := memcpy recvBuf 0 message
  let head := NetworkHead.decode (buf.take networkHeadSize)
  let items ← parseItems (buf.drop networkHeadSize) head.curItemNum 0
  .ok (head.curItemNum, items)

/-- One message after the other, in the same buffer. -/
def recvAll : Bytes → List Bytes → Except Exit (List (Nat × List (List SendChunk)))
  | _, [] => .ok []
  | recvBuf, message :: rest => do
      let r ← recvChunks recvBuf message
      let rs ← recvAll (memcpy recvBuf 0 message) rest
      .ok (r :: rs)

end DataRecvThd

end EDRStore
