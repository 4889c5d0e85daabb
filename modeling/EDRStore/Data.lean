/-
# `EDRStore.Data` — the records the threads exchange

The constants of `const_var.h` and the structures of `data_structure.h` that
the upload and restore pipelines read.  Byte buffers carry their own length, so
a `size` field and its buffer are one list here.
-/
import EDRStore.Lib.Index

namespace EDRStore

abbrev Bytes := List UInt8
abbrev Fp := Bytes
abbrev Key := Bytes
abbrev ContainerId := Bytes
abbrev Feature := UInt64
abbrev ClientId := Nat

def maxChunkSize : Nat := 2 ^ 14
def cryptoBlockSize : Nat := 16
def encMaxChunkSize : Nat := maxChunkSize + cryptoBlockSize + 4
def chunkHashSize : Nat := 32
def maxContainerSize : Nat := 2 ^ 22
def superFeaturePerChunk : Nat := 3

/-- `feature_batch_size_`: the features that fit in one queue element. -/
def featureBatchSize : Nat := maxChunkSize / 8

/-- `CHUNK_STATUS_SET`. -/
inductive ChunkStatus where
  | uniqueChunk
  | uniqueChunkAfterCache
  | duplicateChunk
  | similarChunk
  | nonSimilarChunk
  | compDeltaChunk
  | uncompDeltaChunk
  | compBaseChunk
  | uncompBaseChunk
  | cacheInsertChunk
  | cacheDeltaChunk
  | cacheEvictChunk
  | multiLevelDeltaChunk
  | chunkPair
  | singleChunk
deriving DecidableEq, Repr

/-- `DATA_TYPE_SET`, the type byte of what a client sends. -/
inductive DataType where
  | normalChunk
  | compressedNormalChunk
  | recipeChunk
  | fullEdrCacheChunk
  | fullEdrUncompressChunk
  | cacheRestoreDelta
  | cacheRestoreBase
  | compNormalChunk
  | uncompNormalChunk
deriving DecidableEq, Repr

/-- `EDR_DESIGN_SET`, the client's method. -/
inductive MethodType where
  | onlySimilarEnc
  | similarEncComp
  | fullEdr
deriving DecidableEq, Repr

/-- `uint64_t features[SUPER_FEATURE_PER_CHUNK]`. -/
structure Features where
  sf0 : Feature
  sf1 : Feature
  sf2 : Feature
deriving DecidableEq, Repr

namespace Features

/-- The features in loop order. -/
def toList (fs : Features) : List Feature := [fs.sf0, fs.sf1, fs.sf2]

@[simp] theorem length_toList (fs : Features) : fs.toList.length = superFeaturePerChunk := rfl

end Features

/-- `KeyForChunkHashDB_t`, the value of `fp_2_addr_db`: where a chunk lies and
in which form. -/
structure KeyForChunkHashDB where
  stat : ChunkStatus
  containerId : ContainerId
  offset : Nat
  len : Nat
  baseFp : Fp
deriving DecidableEq, Repr

/-- `ChunkInfo_t`. -/
structure ChunkInfo where
  fp : Fp
  features : Features
  addr : KeyForChunkHashDB
  stat : ChunkStatus
deriving DecidableEq, Repr

/-- `WrappedChunk_t`, the element of the upload queues.  A `CACHE_EVICT_CHUNK`
carries packed features in the place of chunk bytes. -/
structure WrappedChunk where
  info : ChunkInfo
  data : Bytes
  evictFeatures : List Feature
deriving DecidableEq, Repr

/-- `Container_t`: the bytes below `cur_size`. -/
structure Container where
  id : ContainerId
  body : Bytes
deriving DecidableEq, Repr

/-- `cur_size`. -/
def Container.curSize (c : Container) : Nat := c.body.length

end EDRStore
