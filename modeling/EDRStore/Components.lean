/-
# `EDRStore.Components` — what the threads call but do not contain

Hashing, two-phase encryption, compress-with-pad, xdelta, feature extraction
and the random container names are parameters, with the configured sizes.  A
call that may end the process returns `none` there.  What the threads rely on
is named below, one law each; a result assumes only those it uses.
-/
import EDRStore.Data
import Mathlib.Data.Set.Function

namespace EDRStore

structure Components where
  /-- `CryptoUtil::GenerateHash`. -/
  generateHash : Bytes → Fp
  /-- `TwoPhaseEnc::TwoPhaseEncChunk`. -/
  twoPhaseEncChunk : Bytes → Key → Bytes
  /-- `TwoPhaseEnc::TwoPhaseDecChunk`. -/
  twoPhaseDecChunk : Bytes → Key → Option Bytes
  /-- `CompPad::CompressWithPad`, with the padding seed. -/
  compressWithPad : Bytes → Nat → Bytes
  /-- `CompPad::DecompressWithPad`. -/
  decompressWithPad : Bytes → Bytes
  /-- `DeltaComp::DeltaEncode`, base chunk first. -/
  deltaEncode : Bytes → Bytes → Option Bytes
  /-- `DeltaComp::DeltaDecode`, base chunk first. -/
  deltaDecode : Bytes → Bytes → Option Bytes
  /-- `FinesseUtil::ExtractFeature`. -/
  extractFeature : Bytes → Features
  /-- The `n`-th name `tool::CreateUUID` draws. -/
  createUUID : Nat → ContainerId
  /-- `GetContainerCacheSize()`. -/
  containerCacheSize : Nat
  containerCacheSize_pos : 0 < containerCacheSize
  /-- `GetSendRecipeBatchSize()`. -/
  sendRecipeBatchSize : Nat
  sendRecipeBatchSize_pos : 0 < sendRecipeBatchSize
  /-- A chunk buffer that nothing was read into. -/
  uninitData : Bytes

namespace Components

variable (cfg : Components)

/-- Container names are never drawn twice. -/
def FreshIds : Prop := Function.Injective cfg.createUUID

/-- xdelta decoding undoes encoding against the same base. -/
def DeltaRoundTrip : Prop :=
  ∀ base input delta, cfg.deltaEncode base input = some delta →
    cfg.deltaDecode base delta = some input

/-- A VCDIFF stream starts with its header. -/
def DeltaNonempty : Prop :=
  ∀ base input delta, cfg.deltaEncode base input = some delta → delta ≠ []

/-- Decryption under the same key undoes encryption. -/
def EncRoundTrip : Prop :=
  ∀ data key, cfg.twoPhaseDecChunk (cfg.twoPhaseEncChunk data key) key = some data

/-- The last block of a two-phase ciphertext is padded to a full one. -/
def EncNonempty : Prop := ∀ data key, cfg.twoPhaseEncChunk data key ≠ []

/-- Decompression undoes compress-with-pad, whatever the padding seed. -/
def CompRoundTrip : Prop :=
  ∀ data seed, cfg.decompressWithPad (cfg.compressWithPad data seed) = data

/-- The ciphertext is padded to whole blocks, by one block at most. -/
def EncSize : Prop :=
  ∀ data key, (cfg.twoPhaseEncChunk data key).length ≤ data.length + cryptoBlockSize

/-- Padding takes no more than compression saved, and the size behind it four
bytes. -/
def CompSize : Prop := ∀ data seed, (cfg.compressWithPad data seed).length ≤ data.length + 4

/-- The digest of SHA-256. -/
def HashSize : Prop := ∀ data, (cfg.generateHash data).length = chunkHashSize

/-- Digests of different data differ. -/
def HashInjective : Prop := Function.Injective cfg.generateHash

/-! ## Plain components

Every part marks its output with one byte and does no more; a chunk's features
are given by its last byte.  They satisfy all the laws above, and the threads
can be run on them. -/

/-- The components that only mark what went through them. -/
def plain : Components where
  generateHash := id
  twoPhaseEncChunk := fun data key => 1 :: (key ++ data)
  twoPhaseDecChunk := fun data key =>
    if (1 :: key) <+: data then some (data.drop (key.length + 1)) else none
  compressWithPad := fun data _ => 2 :: data
  decompressWithPad := List.tail
  deltaEncode := fun base input => some (3 :: UInt8.ofNat base.length :: input)
  deltaDecode := fun base delta =>
    if [3, UInt8.ofNat base.length] <+: delta then some (delta.drop 2) else none
  extractFeature := fun data =>
    let b := (data.getLastD 0).toUInt64
    ⟨b, b + 256, b + 512⟩
  createUUID := fun n => List.replicate n 0
  containerCacheSize := 2
  containerCacheSize_pos := by decide
  sendRecipeBatchSize := 2
  sendRecipeBatchSize_pos := by decide
  uninitData := []

theorem plain_freshIds : plain.FreshIds := by
  intro m n h
  simpa [plain] using congrArg List.length h

theorem plain_deltaRoundTrip : plain.DeltaRoundTrip := by
  intro base input delta h
  cases h
  simp [plain]

theorem plain_deltaNonempty : plain.DeltaNonempty := by
  intro base input delta h
  cases h
  exact List.cons_ne_nil _ _

theorem plain_encRoundTrip : plain.EncRoundTrip := by
  intro data key
  simp [plain]

theorem plain_encNonempty : plain.EncNonempty := fun _ _ => List.cons_ne_nil _ _

theorem plain_hashInjective : plain.HashInjective := fun _ _ h => h

theorem plain_compRoundTrip : plain.CompRoundTrip := fun _ _ => rfl

/-- The plain components with digests of the right length, and ciphertexts that do
not carry the key. -/
def sized : Components :=
  { plain with
    generateHash := fun data => (data ++ List.replicate chunkHashSize 0).take chunkHashSize
    twoPhaseEncChunk := fun data _ => 1 :: data }

theorem sized_encSize : sized.EncSize := fun _ _ => Nat.add_le_add_left (by decide) _

theorem sized_compSize : sized.CompSize := fun _ _ => Nat.add_le_add_left (by decide) _

theorem sized_hashSize : sized.HashSize := by
  intro data
  simp [sized, chunkHashSize]

end Components

end EDRStore
