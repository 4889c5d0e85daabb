/-
# `EDRStore.Wire` — messages as bytes

The structures that cross the network, laid out as the compiler lays them out,
and the buffer both sides build their messages in: chunks are copied behind one
another, `header->size` counts their bytes and `header->cur_item_num` the
logical chunks, each in 32 bits, and `SendData` takes a 32-bit size too.
-/
import EDRStore.Client
import EDRStore.Lib.Bytes

namespace EDRStore

/-- `sizeof(SendChunkHeader_t)`. -/
def sendChunkHeaderSize : Nat := 64

/-- `sizeof(SendChunk_t)`: header and buffer, up to a multiple of 8. -/
def sendChunkSize : Nat := (sendChunkHeaderSize + encMaxChunkSize + 7) / 8 * 8

/-- `sizeof(NetworkHead_t)`. -/
def networkHeadSize : Nat := 16

/-! ## Type codes -/

namespace DataType

/-- The value of the enumerator. -/
def code : DataType → UInt8
  | .normalChunk => 0
  | .compressedNormalChunk => 1
  | .recipeChunk => 2
  | .fullEdrCacheChunk => 3
  | .fullEdrUncompressChunk => 4
  | .cacheRestoreDelta => 5
  | .cacheRestoreBase => 6
  | .compNormalChunk => 7
  | .uncompNormalChunk => 8

def ofCode (b : UInt8) : Option DataType :=
  match b.toNat with
  | 0 => some .normalChunk
  | 1 => some .compressedNormalChunk
  | 2 => some .recipeChunk
  | 3 => some .fullEdrCacheChunk
  | 4 => some .fullEdrUncompressChunk
  | 5 => some .cacheRestoreDelta
  | 6 => some .cacheRestoreBase
  | 7 => some .compNormalChunk
  | 8 => some .uncompNormalChunk
  | _ => none

@[simp] theorem ofCode_code (t : DataType) : ofCode t.code = some t := by cases t <;> rfl

end DataType

/-- The values of `NETWORK_PROTOCOL_SET` that head a message built here. -/
inductive MsgType where
  | clientUploadChunk
  | clientUploadRecipeEnd
  | clientKeyGen
  | keyManagerKeyGenReply
  | serverRestoreChunk
  | serverRestoreFinal
  | clientUploadFeature
deriving DecidableEq, Repr

def MsgType.code : MsgType → Nat
  | .clientUploadChunk => 3
  | .clientUploadRecipeEnd => 5
  | .clientKeyGen => 9
  | .keyManagerKeyGenReply => 10
  | .serverRestoreChunk => 12
  | .serverRestoreFinal => 13
  | .clientUploadFeature => 14

theorem MsgType.code_lt (t : MsgType) : t.code < 2 ^ 32 := by cases t <;> decide

/-! ## Headers -/

/-- `SendChunkHeader_t`. -/
structure SendChunkHeader where
  size : Nat
  type : UInt8
  cipherFeatures : Features
  compressedFp : Fp

namespace SendChunkHeader

/-- The bytes of the structure; three bytes of padding follow the type. -/
def encode (h : SendChunkHeader) : Bytes :=
  toLe 4 h.size ++ ([h.type, 0, 0, 0] ++ (toLe 8 h.cipherFeatures.sf0.toNat ++
    (toLe 8 h.cipherFeatures.sf1.toNat ++ (toLe 8 h.cipherFeatures.sf2.toNat ++ h.compressedFp))))

def decode (b : Bytes) : SendChunkHeader where
  size := ofLe (slice b 0 4)
  type := b.getD 4 0
  cipherFeatures :=
    { sf0 := UInt64.ofNat (ofLe (slice b 8 8))
      sf1 := UInt64.ofNat (ofLe (slice b 16 8))
      sf2 := UInt64.ofNat (ofLe (slice b 24 8)) }
  compressedFp := slice b 32 chunkHashSize

variable {h : SendChunkHeader}

theorem length_encode (hf : h.compressedFp.length = chunkHashSize) :
    h.encode.length = sendChunkHeaderSize := by
  simp only [encode, List.length_append, length_toLe, hf]
  rfl

theorem word_back (f : Feature) : UInt64.ofNat (ofLe (toLe 8 f.toNat)) = f := by
  rw [ofLe_toLe_of_lt (show f.toNat < 256 ^ 8 from f.toNat_lt), UInt64.ofNat_toNat]

/-- A field behind `pre`. -/
theorem slice_field {pre src post : Bytes} {off len : Nat} (ho : pre.length = off)
    (hl : src.length = len) : slice (pre ++ (src ++ post)) off len = src := by
  subst ho hl
  rw [← List.append_assoc]
  exact slice_append_mid pre src post

theorem slice_last {pre src : Bytes} {off len : Nat} (ho : pre.length = off)
    (hl : src.length = len) : slice (pre ++ src) off len = src := by
  have h := @slice_field pre src [] off len ho hl
  rwa [List.append_nil] at h

theorem decode_encode (hs : h.size < 2 ^ 32) (hf : h.compressedFp.length = chunkHashSize) :
    decode h.encode = h := by
  obtain ⟨size, type, ⟨f0, f1, f2⟩, fp⟩ := h
  have hsize : slice (encode ⟨size, type, ⟨f0, f1, f2⟩, fp⟩) 0 4 = toLe 4 size :=
    slice_field (show ([] : Bytes).length = 0 from rfl) (length_toLe _ _)
  have h0 : slice (encode ⟨size, type, ⟨f0, f1, f2⟩, fp⟩) 8 8 = toLe 8 f0.toNat := by
    rw [encode, ← List.append_assoc]
    exact slice_field (by rw [List.length_append, length_toLe]; rfl) (length_toLe _ _)
  have h1 : slice (encode ⟨size, type, ⟨f0, f1, f2⟩, fp⟩) 16 8 = toLe 8 f1.toNat := by
    rw [encode, ← List.append_assoc, ← List.append_assoc]
    exact slice_field (by simp only [List.length_append, length_toLe]; rfl) (length_toLe _ _)
  have h2 : slice (encode ⟨size, type, ⟨f0, f1, f2⟩, fp⟩) 24 8 = toLe 8 f2.toNat := by
    rw [encode, ← List.append_assoc, ← List.append_assoc, ← List.append_assoc]
    exact slice_field (by simp only [List.length_append, length_toLe]; rfl) (length_toLe _ _)
  have hfp : slice (encode ⟨size, type, ⟨f0, f1, f2⟩, fp⟩) 32 chunkHashSize = fp := by
    rw [encode, ← List.append_assoc, ← List.append_assoc, ← List.append_assoc,
      ← List.append_assoc]
    exact slice_last (by simp only [List.length_append, length_toLe]; rfl) hf
  have ht : (encode ⟨size, type, ⟨f0, f1, f2⟩, fp⟩).getD 4 0 = type := rfl
  unfold decode
  rw [hsize, h0, h1, h2, hfp, ht, ofLe_toLe_of_lt (show size < 256 ^ 4 from hs), word_back,
    word_back, word_back]

/-- A header and the bytes it counts are found again where they were copied to. -/
theorem read_entry {data pre dataBuf : Bytes} (hs : h.size < 2 ^ 32)
    (hf : h.compressedFp.length = chunkHashSize) (hsize : h.size = data.length)
    (hpre : pre ++ (h.encode ++ data) <+: dataBuf) :
    decode (slice dataBuf pre.length sendChunkHeaderSize) = h ∧
      slice dataBuf (pre.length + sendChunkHeaderSize) h.size = data := by
  have hlen : h.encode.length = sendChunkHeaderSize := length_encode hf
  rw [← List.append_assoc] at hpre
  have hhead : slice dataBuf pre.length sendChunkHeaderSize = h.encode := by
    rw [← hlen]
    exact slice_mid_of_prefix ((List.prefix_append _ _).trans hpre)
  constructor
  · rw [hhead, decode_encode hs hf]
  · rw [hsize, ← hlen, ← List.length_append]
    exact slice_mid_of_prefix hpre

end SendChunkHeader

/-- `NetworkHead_t`. -/
structure NetworkHead where
  clientId : Nat
  msgType : Nat
  curItemNum : Nat
  size : Nat
deriving DecidableEq, Repr

namespace NetworkHead

def encode (h : NetworkHead) : Bytes :=
  toLe 4 h.clientId ++ (toLe 4 h.msgType ++ (toLe 4 h.curItemNum ++ toLe 4 h.size))

def decode (b : Bytes) : NetworkHead where
  clientId := ofLe (slice b 0 4)
  msgType := ofLe (slice b 4 4)
  curItemNum := ofLe (slice b 8 4)
  size := ofLe (slice b 12 4)

@[simp] theorem length_encode (h : NetworkHead) : h.encode.length = networkHeadSize := by
  simp only [encode, List.length_append, length_toLe]
  rfl

/-- The fields are 32-bit words. -/
structure Fits (h : NetworkHead) : Prop where
  clientId : h.clientId < 2 ^ 32
  msgType : h.msgType < 2 ^ 32
  curItemNum : h.curItemNum < 2 ^ 32
  size : h.size < 2 ^ 32

theorem decode_encode {h : NetworkHead} (hf : h.Fits) (rest : Bytes) :
    decode (h.encode ++ rest) = h := by
  obtain ⟨cid, t, k, size⟩ := h
  have h0 : slice (encode ⟨cid, t, k, size⟩ ++ rest) 0 4 = toLe 4 cid := by
    rw [encode, List.append_assoc]
    exact SendChunkHeader.slice_field (show ([] : Bytes).length = 0 from rfl) (length_toLe _ _)
  have h1 : slice (encode ⟨cid, t, k, size⟩ ++ rest) 4 4 = toLe 4 t := by
    rw [encode, List.append_assoc, List.append_assoc]
    exact SendChunkHeader.slice_field (length_toLe _ _) (length_toLe _ _)
  have h2 : slice (encode ⟨cid, t, k, size⟩ ++ rest) 8 4 = toLe 4 k := by
    rw [encode, List.append_assoc, List.append_assoc, List.append_assoc, ← List.append_assoc]
    exact SendChunkHeader.slice_field (by simp only [List.length_append, length_toLe])
      (length_toLe _ _)
  have h3 : slice (encode ⟨cid, t, k, size⟩ ++ rest) 12 4 = toLe 4 size := by
    rw [encode, List.append_assoc, List.append_assoc, List.append_assoc, ← List.append_assoc,
      ← List.append_assoc]
    exact SendChunkHeader.slice_field (by simp only [List.length_append, length_toLe])
      (length_toLe _ _)
  unfold decode
  rw [h0, h1, h2, h3, ofLe_toLe_of_lt (show cid < 256 ^ 4 from hf.clientId),
    ofLe_toLe_of_lt (show t < 256 ^ 4 from hf.msgType),
    ofLe_toLe_of_lt (show k < 256 ^ 4 from hf.curItemNum),
    ofLe_toLe_of_lt (show size < 256 ^ 4 from hf.size)]

/-- A message in the receive buffer: its header, and behind it what it carries and
what the buffer held before. -/
theorem received {h : NetworkHead} (hf : h.Fits) (recvBuf body : Bytes) :
    ∃ rest, decode ((memcpy recvBuf 0 (h.encode ++ body)).take networkHeadSize) = h ∧
      (memcpy recvBuf 0 (h.encode ++ body)).drop networkHeadSize = body ++ rest := by
  obtain ⟨rest, hrest⟩ := prefix_memcpy_zero recvBuf (h.encode ++ body)
  have hdec := decode_encode hf []
  rw [List.append_nil] at hdec
  refine ⟨rest, ?_, ?_⟩
  · rw [← hrest, List.append_assoc, List.take_left' (length_encode h), hdec]
  · rw [← hrest, List.append_assoc, List.drop_left' (length_encode h)]

end NetworkHead

/-! ## The buffer a message is built in -/

/-- `SendMsgBuffer_t`, with the two fields of its header that change. -/
structure SendMsgBuffer where
  dataBuf : Bytes
  size : Nat
  curItemNum : Nat

namespace SendMsgBuffer

/-- `memcpy` to the end of what the buffer holds, and the new size. -/
def append (b : SendMsgBuffer) (src : Bytes) : SendMsgBuffer :=
  { b with dataBuf := memcpy b.dataBuf b.size src, size := u32 (b.size + src.length) }

/-- `cur_item_num++`. -/
def countItem (b : SendMsgBuffer) : SendMsgBuffer := { b with curItemNum := u32 (b.curItemNum + 1) }

/-- After a message was sent. -/
def clear (b : SendMsgBuffer) : SendMsgBuffer := { b with size := 0, curItemNum := 0 }

/-- The header of the next message. -/
def head (b : SendMsgBuffer) (clientId : Nat) (t : MsgType) : NetworkHead :=
  { clientId := clientId, msgType := t.code, curItemNum := b.curItemNum, size := b.size }

/-- `SendData(send_buf, header->size + sizeof(NetworkHead_t))`. -/
def message (b : SendMsgBuffer) (clientId : Nat) (t : MsgType) : Bytes :=
  ((b.head clientId t).encode ++ b.dataBuf).take (u32 (b.size + networkHeadSize))

/-- The buffer has been filled with `bs`, which is `k` logical chunks. -/
structure Holds (b : SendMsgBuffer) (bs : Bytes) (k : Nat) : Prop where
  data : bs <+: b.dataBuf
  size : b.size = bs.length
  curItemNum : b.curItemNum = k

variable {b : SendMsgBuffer} {bs : Bytes} {k : Nat}

theorem Holds.append (h : b.Holds bs k) (src : Bytes) (hlt : bs.length + src.length < 2 ^ 32) :
    (b.append src).Holds (bs ++ src) k where
  data := by
    show bs ++ src <+: memcpy b.dataBuf b.size src
    rw [h.size]
    exact memcpy_prefix h.data src
  size := by
    show u32 (b.size + src.length) = (bs ++ src).length
    rw [h.size, u32_of_lt hlt, List.length_append]
  curItemNum := h.curItemNum

theorem Holds.countItem (h : b.Holds bs k) (hlt : k + 1 < 2 ^ 32) :
    b.countItem.Holds bs (k + 1) where
  data := h.data
  size := h.size
  curItemNum := by
    show u32 (b.curItemNum + 1) = k + 1
    rw [h.curItemNum, u32_of_lt hlt]

theorem holds_clear (b : SendMsgBuffer) : b.clear.Holds [] 0 where
  data := List.nil_prefix
  size := rfl
  curItemNum := rfl

/-- A message is its header and what the buffer was filled with. -/
theorem Holds.message (h : b.Holds bs k) (hlt : bs.length + networkHeadSize < 2 ^ 32)
    (clientId : Nat) (t : MsgType) :
    b.message clientId t = NetworkHead.encode ⟨clientId, t.code, k, bs.length⟩ ++ bs := by
  obtain ⟨rest, hrest⟩ := h.data
  have hhead : b.head clientId t = ⟨clientId, t.code, k, bs.length⟩ := by
    unfold head
    rw [h.curItemNum, h.size]
  have hlen : (NetworkHead.encode ⟨clientId, t.code, k, bs.length⟩ ++ bs).length =
      bs.length + networkHeadSize := by
    rw [List.length_append, NetworkHead.length_encode, Nat.add_comm]
  unfold SendMsgBuffer.message
  rw [hhead, h.size, u32_of_lt hlt, ← hrest, ← List.append_assoc, ← hlen, List.take_left]

theorem length_append {src : Bytes} (h : b.size + src.length ≤ b.dataBuf.length) :
    (b.append src).dataBuf.length = b.dataBuf.length :=
  length_memcpy h

end SendMsgBuffer

/-! ## Chunks in a message -/

namespace SendChunk

/-- `send_chunk.header`. -/
def header (c : SendChunk) : SendChunkHeader :=
  { size := c.data.length, type := c.type.code, cipherFeatures := c.cipherFeatures,
    compressedFp := c.compressedFp }

/-- A chunk as it stands in a message. -/
def bytes (c : SendChunk) : Bytes := c.header.encode ++ c.data

/-- `c` is a value of `SendChunk_t`: its two arrays have their fixed sizes. -/
structure Wf (c : SendChunk) : Prop where
  data : c.data.length ≤ encMaxChunkSize
  compressedFp : c.compressedFp.length = chunkHashSize

variable {c : SendChunk}

theorem Wf.length_header (h : c.Wf) : c.header.encode.length = sendChunkHeaderSize :=
  SendChunkHeader.length_encode h.compressedFp

theorem Wf.length_bytes (h : c.Wf) : c.bytes.length = sendChunkHeaderSize + c.data.length := by
  rw [bytes, List.length_append, h.length_header]

theorem Wf.length_bytes_le (h : c.Wf) : c.bytes.length ≤ sendChunkSize := by
  have hd := h.data
  have hmax : sendChunkHeaderSize + encMaxChunkSize ≤ sendChunkSize := by decide
  rw [h.length_bytes]
  omega

theorem Wf.size_lt (h : c.Wf) : c.data.length < 2 ^ 32 :=
  Nat.lt_of_le_of_lt h.data (by decide)

end SendChunk

/-! ## Recipes -/

/-- `BatchBuf_t`. -/
structure BatchBuf where
  buf : Bytes
  cnt : Nat

/-- A recipe file that is being written, and the records not yet in it. -/
structure RecipeWriter where
  batch : BatchBuf
  hdl : Bytes

namespace RecipeWriter

/-- One more record; the buffer is written out whenever the count reaches a
multiple of the batch size.  `size` is how the caller computes the bytes that a
number of records takes. -/
def add (size : Nat → Nat) (batchSize : Nat) (w : RecipeWriter) (record : Bytes) : RecipeWriter :=
  let buf := memcpy w.batch.buf (size w.batch.cnt) record
  let cnt := u32 (w.batch.cnt + 1)
  if cnt % batchSize = 0 then { batch := ⟨buf, 0⟩, hdl := w.hdl ++ buf.take (size cnt) }
  else { w with batch := ⟨buf, cnt⟩ }

/-- The records left at the end. -/
def finish (size : Nat → Nat) (w : RecipeWriter) : RecipeWriter :=
  if w.batch.cnt ≠ 0 then
    { batch := { w.batch with cnt := 0 }, hdl := w.hdl ++ w.batch.buf.take (size w.batch.cnt) }
  else w

end RecipeWriter

end EDRStore
