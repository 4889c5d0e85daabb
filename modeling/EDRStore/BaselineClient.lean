/-
# `EDRStore.BaselineClient` — the clients of the other server

A client of `Baseline` sends one body for each chunk, in one of three ways: the
chunk as it is, its encryption under a key derived from the chunk alone, or the
encryption of the chunk compressed and padded.  No client keeps any state, and
the key manager keeps none either: a key is the hash of the secret and the
chunk's fingerprint, however the requests fall into batches (`KeyGenThd.run_eq`).

`processChunk_runChunk` is the way back: whatever the buffers held before, the
retriever undoes what `SelectCompThd` did.  Compressing first costs the chunks
that the compression library takes for a frame of its own (`Recognised`).
-/
import EDRStore.BaselineStore
import EDRStore.TwoPhaseEnc
import EDRStore.Lib.Batch
import EDRStore.Chunker

namespace EDRStore

/-! ## The cipher library, both ways -/

/-- What `EVP_DecryptUpdate` and `EVP_DecryptFinal_ex` write as well. -/
structure Cipher extends Evp where
  decryptUpdate : CipherType → Key → Bytes → Bytes → Bytes
  decryptFinal : CipherType → Key → Bytes → Bytes → Bytes

namespace Cipher

variable (lib : Cipher)

/-- `CryptoUtil::DecryptWithKeyIV`. -/
def decryptWithKeyIV (type : CipherType) (cipher : Bytes) (key : Key) (iv : Bytes) : Bytes :=
  let iv := match type with
    | .aes256Ctr => iv
    | .aes256Ecb => []
  lib.decryptUpdate type key iv cipher ++ lib.decryptFinal type key iv cipher

/-- Decryption under the same key and iv undoes encryption. -/
def RoundTrip : Prop :=
  ∀ type key iv data,
    let cipher := lib.encryptUpdate type key iv data ++ lib.encryptFinal type key iv data
    lib.decryptUpdate type key iv cipher ++ lib.decryptFinal type key iv cipher = data

variable {lib}

theorem decryptWithKeyIV_encryptWithKeyIV (hrt : lib.RoundTrip) (type : CipherType) (data : Bytes)
    (key : Key) (iv : Bytes) :
    lib.decryptWithKeyIV type (lib.encryptWithKeyIV type data key iv) key iv = data := by
  cases type with
  | aes256Ctr => exact hrt .aes256Ctr key iv data
  | aes256Ecb => exact hrt .aes256Ecb key [] data

/-- A stream of the key's first byte. -/
def sample : Cipher where
  encryptUpdate := fun _ key _ data => data.map (· ^^^ key.headD 0)
  encryptFinal := fun _ _ _ _ => []
  decryptUpdate := fun _ key _ data => data.map (· ^^^ key.headD 0)
  decryptFinal := fun _ _ _ _ => []

theorem sample_roundTrip : sample.RoundTrip := by
  intro type key iv data
  have hid : ((· ^^^ key.headD 0) ∘ (· ^^^ key.headD 0) : UInt8 → UInt8) = id := by
    funext b
    rw [Function.comp_apply, UInt8.xor_assoc, UInt8.xor_self, UInt8.xor_zero]
    rfl
  simp only [sample, List.append_nil, List.map_map, hid, List.map_id]

theorem sample_ctrSizes : sample.CtrSizes := by
  intro key iv data
  simp [sample]

end Cipher

namespace CompPad

variable (pad : CompPad)

/-- What `PaddingWithSeed` leaves in front of its last four bytes, whatever size it
takes the padding from. -/
theorem paddingWithSeed_spec (seed originalSize : Nat) {compressed buf : Bytes}
    (h : compressed <+: buf) :
    let r := pad.paddingWithSeed seed originalSize compressed.length buf
    let n := paddingBlkNum seed originalSize compressed.length
    r.1.take r.2 = compressed ++ pad.padding seed n ++ toLe 4 compressed.length ∧
      r.2 = compressed.length + 4 * n + 4 := by
  intro r n
  have hpad := pad.writePadding_spec seed h n
  have hlen : compressed.length + 4 * n = (compressed ++ pad.padding seed n).length := by
    rw [List.length_append, length_padding]
  have hsize : r.2 = compressed.length + 4 * n + 4 :=
    show compressed.length + n * 4 + 4 = _ by rw [Nat.mul_comm]
  have hwhole : compressed.length + 4 * n + 4 =
      (compressed ++ pad.padding seed n ++ toLe 4 compressed.length).length := by
    rw [List.length_append, ← hlen, length_toLe]
  obtain ⟨rest, hrest⟩ := memcpy_prefix hpad (toLe 4 compressed.length)
  refine ⟨?_, hsize⟩
  show (memcpy (pad.writePadding seed compressed.length buf n) (compressed.length + 4 * n)
    (toLe 4 compressed.length)).take r.2 = _
  rw [hsize, hwhole, hlen, ← hrest, List.take_left]

end CompPad

namespace CompressUtil

variable {util : CompressUtil}

/-- The last four bytes say how much of the input is handed to the decompressor. -/
theorem decompressWithPad_of_padded {compressed fill input : Bytes} (hlt : compressed.length < 256 ^ 4)
    (h : compressed ++ fill ++ toLe 4 compressed.length <+: input) (outputData : Bytes) :
    util.decompressWithPad input (compressed.length + fill.length + 4) outputData =
      (memcpy outputData 0 (util.decompressOneChunk compressed),
        (util.decompressOneChunk compressed).length) := by
  have hslice : slice input (compressed.length + fill.length + 4 - 4) 4 =
      toLe 4 compressed.length := by
    have := slice_mid_of_prefix h
    rwa [length_toLe, List.length_append] at this
  have htake : input.take compressed.length = compressed := by
    refine (List.prefix_iff_eq_take.mp (List.IsPrefix.trans ?_ h)).symm
    rw [List.append_assoc]
    exact List.prefix_append _ _
  unfold decompressWithPad
  simp only [hslice, ofLe_toLe_of_lt hlt, htake]

end CompressUtil

namespace Baseline

/-- `CLIENT_ENC_TYPE_SET`. -/
inductive EncType where
  | plain
  | serverAidedMle
  | encCompMle
deriving DecidableEq, Repr

namespace MLE

/-- `iv_`. -/
def iv : Bytes := List.replicate chunkHashSize 0

/-- `MLE::EncChunk`. -/
def encChunk (lib : Cipher) (plainChunk : Bytes) (key : Key) : Bytes :=
  lib.encryptWithKeyIV .aes256Ctr plainChunk key iv

/-- `MLE::DecChunk`. -/
def decChunk (lib : Cipher) (cipherChunk : Bytes) (key : Key) : Bytes :=
  lib.decryptWithKeyIV .aes256Ctr cipherChunk key iv

end MLE

namespace BasicKM

/-- `global_secret_`. -/
def globalSecret : Bytes := List.replicate chunkHashSize 1

/-- The loop of `BasicKM::Run` over one message: the keys of the reply. -/
def processMsg (cfg : Components) (fps : List Fp) : List Key :=
  fps.map fun fp => cfg.generateHash (globalSecret ++ fp)

end BasicKM

/-- `EncFeatureChunk_t`, as far as the threads read it. -/
structure EncFeatureChunk where
  rawChunk : RawPlainChunk
  encData : Bytes
  encSize : Nat
  key : Key

/-- `SelectComp2Sender_t`: the body, and the key for the key recipe. -/
structure SendChunk where
  data : Bytes
  key : Key
deriving DecidableEq

/-! ## Sending -/

section Sending

variable (cfg : Components) (util : CompressUtil) (lib : Cipher)

namespace KeyGenThd

/-- The loop body of `KeyGenThd::ProcessBatch`, with the key of the reply. -/
def processChunk (method : EncType) (x : RawPlainChunk) (key : Key) : EncFeatureChunk :=
  match method with
  -- use an all '0' virtual key
  | .plain => ⟨x, x.content, x.size, List.replicate chunkHashSize 0⟩
  | .serverAidedMle | .encCompMle => ⟨x, MLE.encChunk lib x.content key, x.size, key⟩

/-- `KeyGenThd::ProcessBatch`; without encryption the reply is not asked for. -/
def processBatch (method : EncType) (batch : List RawPlainChunk) : List EncFeatureChunk :=
  batch.zipWith (processChunk lib method) (BasicKM.processMsg cfg (batch.map RawPlainChunk.fp))

/-- `KeyGenThd::Run` up to the recipe: full batches, and the tail one. -/
def run (method : EncType) (batchSize : Nat) (chunks : List RawPlainChunk) :
    List EncFeatureChunk :=
  ((Batch.batches batchSize chunks).map (processBatch cfg lib method)).flatten

/-- A chunk under the key that the key manager has for it. -/
def keyed (method : EncType) (x : RawPlainChunk) : EncFeatureChunk :=
  processChunk lib method x (cfg.generateHash (BasicKM.globalSecret ++ x.fp))

theorem processBatch_eq (method : EncType) (batch : List RawPlainChunk) :
    processBatch cfg lib method batch = batch.map (keyed cfg lib method) := by
  rw [processBatch, BasicKM.processMsg, List.map_map, List.zipWith_map_right]
  induction batch with
  | nil => rfl
  | cons x batch ih => rw [List.zipWith_cons_cons, ih]; rfl

/-- The batches make no difference. -/
theorem run_eq (method : EncType) (batchSize : Nat) (chunks : List RawPlainChunk) :
    run cfg lib method batchSize chunks = chunks.map (keyed cfg lib method) := by
  have hbatch : processBatch cfg lib method = List.map (keyed cfg lib method) :=
    funext (processBatch_eq cfg lib method)
  rw [run, hbatch, ← List.map_flatten, Batch.flatten_batches]

end KeyGenThd

/-- `CompPad::CompressWithPad`: the padding is drawn anew each time, and may fill the
chunk up to `MAX_CHUNK_SIZE`. -/
def compressWithPad (data : Bytes) (seed : Nat) (draws : Nat → Nat) (outputData : Bytes) :
    Bytes × Nat :=
  let compressed := (util.compressOneChunk data).2
  (util.compPad fun _ => draws).paddingWithSeed seed maxChunkSize compressed.length
    (memcpy outputData 0 compressed)

namespace SelectCompThd

/-- `SelectCompThd::Run` on one chunk: `rand()`, the padding, and what the buffer of
the compressed chunk holds. -/
def runChunk (method : EncType) (input : EncFeatureChunk) (seed : Nat) (draws : Nat → Nat)
    (tmpCompressedChunk : Bytes) : SendChunk :=
  match method with
  | .plain | .serverAidedMle => ⟨input.encData.take input.encSize, input.key⟩
  | .encCompMle =>
      let padded := compressWithPad util input.rawChunk.content seed draws tmpCompressedChunk
      -- pad the key with seed to simulate MLE
      let key := memcpy input.key (chunkHashSize - 4) (toLe 4 seed)
      ⟨(MLE.encChunk lib (padded.1.take padded.2) key).take padded.2, key⟩

end SelectCompThd

/-- What is sent for a chunk: `KeyGenThd`, then `SelectCompThd`. -/
def sendItem (method : EncType) (x : RawPlainChunk) (seed : Nat) (draws : Nat → Nat)
    (tmpCompressedChunk : Bytes) : SendChunk :=
  SelectCompThd.runChunk util lib method (KeyGenThd.keyed cfg lib method x) seed draws
    tmpCompressedChunk

end Sending

/-! ## Retrieving -/

/-- `DataRetrieverThd::ProcessChunk`, with what the two buffers hold: the chunk
pushed. -/
def DataRetrieverThd.processChunk (util : CompressUtil) (lib : Cipher) (method : EncType)
    (inputChunk : Bytes) (key : Key) (tmpPaddingChunk outputData : Bytes) : Bytes :=
  match method with
  | .plain => inputChunk
  | .serverAidedMle => (MLE.decChunk lib inputChunk key).take inputChunk.length
  | .encCompMle =>
      let r := util.decompressWithPad (memcpy tmpPaddingChunk 0 (MLE.decChunk lib inputChunk key))
        inputChunk.length outputData
      r.1.take r.2

/-- `DataRetrieverThd::ProcessBatchChunks` over all messages, one key for each chunk. -/
def DataRetrieverThd.processAll (util : CompressUtil) (lib : Cipher) (method : EncType)
    (tmpPaddingChunk outputData : Bytes) (keys : List Key) (bodies : List Bytes) : List Bytes :=
  bodies.zipWith (fun body key =>
    processChunk util lib method body key tmpPaddingChunk outputData) keys

/-! ## There and back -/

instance (util : CompressUtil) (data : Bytes) : Decidable (util.Recognised data) :=
  decidable_of_iff
    ((util.compressed data).isSome ∨ ∀ out ∈ util.decompressed data, out = data)
    (or_congr_left Option.isSome_iff_exists)

variable {cfg : Components} {util : CompressUtil} {lib : Cipher}

/-- What the clients rely on. -/
structure ClientLaws (util : CompressUtil) (lib : Cipher) : Prop where
  decrypts : lib.RoundTrip
  ctrSizes : lib.CtrSizes
  fitsCapacity : util.lib.FitsCapacity
  roundTrip : util.lib.RoundTrip

/-- A chunk that the method gives back: one that is compressed first must not look
like a frame. -/
def Handles (util : CompressUtil) (method : EncType) (data : Bytes) : Prop :=
  method = .encCompMle → util.Recognised data

instance (util : CompressUtil) (method : EncType) (data : Bytes) :
    Decidable (Handles util method data) := inferInstanceAs (Decidable (_ → _))

namespace MLE

theorem length_encChunk (hctr : lib.CtrSizes) (data : Bytes) (key : Key) :
    (encChunk lib data key).length = data.length := by
  obtain ⟨hup, hfin⟩ := hctr key iv data
  show (lib.encryptUpdate .aes256Ctr key iv data ++ lib.encryptFinal .aes256Ctr key iv data).length = _
  rw [List.length_append, hup, hfin, Nat.add_zero]

/-- What is sent is the whole ciphertext. -/
theorem take_encChunk (hctr : lib.CtrSizes) {data : Bytes} {size : Nat} (h : data.length = size)
    (key : Key) : (encChunk lib data key).take size = encChunk lib data key := by
  rw [← h, ← length_encChunk hctr data key, List.take_length]

theorem decChunk_encChunk (hrt : lib.RoundTrip) (data : Bytes) (key : Key) :
    decChunk lib (encChunk lib data key) key = data :=
  Cipher.decryptWithKeyIV_encryptWithKeyIV hrt _ _ _ _

end MLE

/-- The padding of a chunk. -/
def fill (util : CompressUtil) (data : Bytes) (seed : Nat) (draws : Nat → Nat) : Bytes :=
  (util.compPad fun _ => draws).padding seed
    (CompPad.paddingBlkNum seed maxChunkSize (util.compressOneChunk data).2.length)

theorem compressWithPad_spec (util : CompressUtil) (data : Bytes) (seed : Nat) (draws : Nat → Nat)
    (outputData : Bytes) :
    let compressed := (util.compressOneChunk data).2
    let r := compressWithPad util data seed draws outputData
    r.1.take r.2 = compressed ++ fill util data seed draws ++ toLe 4 compressed.length ∧
      r.2 = compressed.length + (fill util data seed draws).length + 4 := by
  intro compressed r
  obtain ⟨hbytes, hsize⟩ := (util.compPad fun _ => draws).paddingWithSeed_spec seed maxChunkSize
    (prefix_memcpy_zero outputData compressed)
  exact ⟨hbytes, by rw [fill, CompPad.length_padding]; exact hsize⟩

theorem length_padded (data : Bytes) (seed : Nat) (draws : Nat → Nat) (outputData : Bytes) :
    let r := compressWithPad util data seed draws outputData
    (r.1.take r.2).length = r.2 := by
  intro r
  obtain ⟨hbytes, hsize⟩ := compressWithPad_spec util data seed draws outputData
  rw [hbytes, List.length_append, List.length_append, length_toLe]
  exact hsize.symm

/-- Padding takes a chunk to `MAX_CHUNK_SIZE` at most, and the size behind it to four
bytes more. -/
theorem size_compressWithPad (hcap : util.lib.FitsCapacity) {data : Bytes}
    (hmax : data.length ≤ maxChunkSize) (seed : Nat) (draws : Nat → Nat) (outputData : Bytes) :
    4 ≤ (compressWithPad util data seed draws outputData).2 ∧
      (compressWithPad util data seed draws outputData).2 ≤ maxChunkSize + 4 := by
  obtain ⟨-, hsize⟩ := compressWithPad_spec util data seed draws outputData
  have hc := (CompressUtil.length_compressOneChunk hcap data).trans hmax
  have hn := CompPad.paddingBlkNum_le seed hc
  rw [hsize, fill, CompPad.length_padding]
  omega

section Item

variable {method : EncType} {x : RawPlainChunk}

/-- The three forms of a body. -/
theorem sendItem_data (hctr : lib.CtrSizes) (hx : x.content.length = x.size) (seed : Nat)
    (draws : Nat → Nat) (buf : Bytes) :
    (sendItem cfg util lib method x seed draws buf).data =
      match method with
      | .plain => x.content
      | .serverAidedMle =>
          MLE.encChunk lib x.content (cfg.generateHash (BasicKM.globalSecret ++ x.fp))
      | .encCompMle =>
          let padded := compressWithPad util x.content seed draws buf
          MLE.encChunk lib (padded.1.take padded.2)
            (sendItem cfg util lib .encCompMle x seed draws buf).key := by
  cases method with
  | plain => exact List.take_of_length_le (Nat.le_of_eq hx)
  | serverAidedMle => exact MLE.take_encChunk hctr hx _
  | encCompMle => exact MLE.take_encChunk hctr (length_padded x.content seed draws buf) _

/-- No body is empty, and none is longer than a chunk and four bytes. -/
theorem length_sendItem (hctr : lib.CtrSizes) (hcap : util.lib.FitsCapacity)
    (hx : x.content.length = x.size) (hpos : 0 < x.size) (hmax : x.size ≤ maxChunkSize)
    (seed : Nat) (draws : Nat → Nat) (buf : Bytes) :
    1 ≤ (sendItem cfg util lib method x seed draws buf).data.length ∧
      (sendItem cfg util lib method x seed draws buf).data.length ≤ maxChunkSize + 4 := by
  rw [sendItem_data hctr hx]
  cases method with
  | plain => exact ⟨hx ▸ hpos, hx ▸ hmax.trans (Nat.le_add_right _ _)⟩
  | serverAidedMle =>
      simp only [MLE.length_encChunk hctr, hx]
      exact ⟨hpos, hmax.trans (Nat.le_add_right _ _)⟩
  | encCompMle =>
      obtain ⟨hlo, hhi⟩ := size_compressWithPad hcap (hx ▸ hmax) seed draws buf
      simp only [MLE.length_encChunk hctr, length_padded]
      exact ⟨le_trans (by decide) hlo, hhi⟩

/-- The retriever gives back the chunk, under the key of the key recipe. -/
theorem processChunk_sendItem (law : ClientLaws util lib) (hx : x.content.length = x.size)
    (hpos : 0 < x.size) (hmax : x.size ≤ maxChunkSize) (hh : Handles util method x.content)
    (seed : Nat) (draws : Nat → Nat) (buf tmpPaddingChunk outputData : Bytes) :
    let item := sendItem cfg util lib method x seed draws buf
    DataRetrieverThd.processChunk util lib method item.data item.key tmpPaddingChunk outputData =
      x.content := by
  intro item
  have hdata : item.data = _ := sendItem_data law.ctrSizes hx seed draws buf
  cases method with
  | plain => exact hdata
  | serverAidedMle =>
      have hlen := MLE.length_encChunk law.ctrSizes x.content
        (cfg.generateHash (BasicKM.globalSecret ++ x.fp))
      show (MLE.decChunk lib item.data item.key).take item.data.length = _
      rw [hdata, hlen, show item.key = cfg.generateHash (BasicKM.globalSecret ++ x.fp) from rfl,
        MLE.decChunk_encChunk law.decrypts, List.take_length]
  | encCompMle =>
      obtain ⟨hbytes, hsize⟩ := compressWithPad_spec util x.content seed draws buf
      have hc := (CompressUtil.length_compressOneChunk law.fitsCapacity x.content).trans (hx ▸ hmax)
      have hlen : item.data.length = (util.compressOneChunk x.content).2.length +
          (fill util x.content seed draws).length + 4 := by
        rw [hdata]
        simp only [MLE.length_encChunk law.ctrSizes, hbytes, List.length_append, length_toLe]
      have hdec : MLE.decChunk lib item.data item.key = (util.compressOneChunk x.content).2 ++
          fill util x.content seed draws ++ toLe 4 (util.compressOneChunk x.content).2.length := by
        rw [hdata]
        exact (MLE.decChunk_encChunk law.decrypts _ _).trans hbytes
      have hback := (CompressUtil.decompressOneChunk_compressOneChunk_iff law.roundTrip
        (hx ▸ hpos) (hx ▸ hmax)).mpr (hh rfl)
      simp only [DataRetrieverThd.processChunk]
      rw [hlen, CompressUtil.decompressWithPad_of_padded (lt_of_le_of_lt hc (by decide))
        (hdec ▸ prefix_memcpy_zero tmpPaddingChunk _), hback]
      exact (List.prefix_iff_eq_take.mp (prefix_memcpy_zero outputData x.content)).symm

end Item

end Baseline
end EDRStore
