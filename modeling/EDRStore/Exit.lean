/-
# `EDRStore.Exit` — the ways a thread ends its process

One constructor for each `exit(EXIT_FAILURE)` of the modelled functions, named
after what is logged just before it (`Exit.message`).  On the server any of
them ends the service for every client.
-/
import EDRStore.Data
import EDRStore.Lib.Run

namespace EDRStore

inductive Exit where
  /-- `DataRecvThd::ProcessChunks`. -/
  | recvChunkType
  /-- `DualDedupThd::Run`. -/
  | dualInputType
  /-- `CacheCompThd::Run`, its default branch. -/
  | cacheInputType
  /-- `CacheCompThd::Run`, a non-similar chunk while the cache holds features. -/
  | cacheChunkType
  /-- `InformCache::ProcessNormalChunk`. -/
  | cacheBaseMissing
  | cacheStatType
  /-- `InformCache::EvictCacheChunk`. -/
  | evictCountMissing
  | evictFeatureMissing
  /-- `InformCache::FetchBaseChunk`. -/
  | cacheFetchMissing
  /-- `DataWriterThd::Run`. -/
  | writerUniqueType
  | writerChunkType
  /-- `DataWriterThd::FetchBaseChunk`. -/
  | writerBaseMissing
  /-- `DeltaComp`. -/
  | deltaEncode
  | deltaDecode
  /-- `DataReaderThd`. -/
  | reqChunkMissing
  | reqChunkStat
  | reqBaseMissing
  | reqBaseBaseMissing
  | cacheDeltaBaseStat
  /-- `DataDecoderThd::DecodeChunk`. -/
  | multiLevelDelta
  | sendingBaseType
  | sendingType
  /-- `DataRetrieverThd`. -/
  | retrieverChunkType
  /-- `CryptoUtil`, on the client. -/
  | retrieverDecrypt
  /-- `SenderThd::Run`. -/
  | senderChunkType
  /-- `BasicKM::Run`, on the key manager. -/
  | keyGenReqType
  | keyType
deriving DecidableEq, Repr

/-- What is logged before the process ends. -/
def Exit.message : Exit → String
  | .recvChunkType => "recv chunk type error.\n"
  | .dualInputType => "wrong chunk input type.\n"
  | .cacheInputType => "wrong chunk input type.\n"
  | .cacheChunkType => "wrong chunk type in cache.\n"
  | .cacheBaseMissing => "cannot find the base chunk in the inform cache.\n"
  | .cacheStatType => "wrong chunk type in inform cache.\n"
  | .evictCountMissing => "cannot find the evict chunk in count index.\n"
  | .evictFeatureMissing => "cannot find the evict featurein local feature index.\n"
  | .cacheFetchMissing => "cannot find the base chunk in the cache.\n"
  | .writerUniqueType => "wrong unique chunk type.\n"
  | .writerChunkType => "wrong chunk type after cache.\n"
  | .writerBaseMissing => "req base chunk not exits.\n"
  | .deltaEncode => "delta encoding fails: %d.\n"
  | .deltaDecode => "delta decoding fails: %d.\n"
  | .reqChunkMissing => "cannot find the req chunk addr.\n"
  | .reqChunkStat => ""
  | .reqBaseMissing => "cannot find the req base chunk addr.\n"
  | .reqBaseBaseMissing => "cannot find the req base base chunk addr.\n"
  | .cacheDeltaBaseStat => "wrong base chunk type for cache delta chunk: %u.\n"
  | .multiLevelDelta => "exists multi-level delta.\n"
  | .sendingBaseType => "wrong chunk type in sending.\n"
  | .sendingType => "wrong chunk type when sending.\n"
  | .retrieverChunkType => "wrong recv chunk type.\n"
  | .retrieverDecrypt => "decrypt error.\n"
  | .senderChunkType => "wrong chunk type.\n"
  | .keyGenReqType => "wrong key gen req type.\n"
  | .keyType => "wrong key type.\n"

/-- A call that gives nothing ends the process. -/
def orExit {α : Type} (e : Exit) : Option α → Except Exit α
  | some a => .ok a
  | none => .error e

@[simp] theorem orExit_some {α : Type} (e : Exit) (a : α) : orExit e (some a) = .ok a := rfl

@[simp] theorem orExit_none {α : Type} (e : Exit) : orExit e (none : Option α) = .error e := rfl

theorem orExit_ok {α : Type} {e : Exit} {x : Option α} {a : α} (h : orExit e x = .ok a) :
    x = some a := by
  cases x with
  | none => exact nomatch h
  | some b => cases h; rfl

theorem orExit_error {α : Type} {e e' : Exit} {x : Option α} (h : orExit e x = .error e') :
    e' = e ∧ x = none := by
  cases x with
  | none => cases h; exact ⟨rfl, rfl⟩
  | some b => exact nomatch h

theorem avoids_orExit {α : Type} {bad : List Exit} {e : Exit} (h : e ∉ bad) (x : Option α) :
    Avoids bad (orExit e x) := by
  intro e' he
  rw [(orExit_error he).1]
  exact h

end EDRStore
