/-
# `EDRStore.DualFp` — one fingerprint for the two forms of a chunk

A chunk goes to the server as a pair, its ciphertext and its compressed
ciphertext, or alone with the hash of a compressed ciphertext that is never
sent.  Compression happens in the queue element in the first case and in a local
buffer in the second, encryption in different threads.  The receiver records the
same fingerprint for both, so the second upload of the chunk is a duplicate.
-/
import EDRStore.CompPad
import EDRStore.Upload

namespace EDRStore

namespace DataRecvThd

/-- The loop of `DataRecvThd::ProcessChunks` over the logical chunks of a message,
each with what `tmp_chunk` holds in `info.addr` by then: what is pushed, the
fingerprints for the recipe in order, and `fp_2_addr_db`. -/
def processItems (cfg : Components) : Index Fp KeyForChunkHashDB →
    List (KeyForChunkHashDB × List SendChunk) →
      Except Exit (List WrappedChunk × List Fp × Index Fp KeyForChunkHashDB)
  | fp2AddrDb, [] => .ok ([], [], fp2AddrDb)
  | fp2AddrDb, x :: rest => do
      let r ← processItem cfg fp2AddrDb x.1 x.2
      let rs ← processItems cfg r.2.2 rest
      .ok (r.1 ++ rs.1, r.2.1 :: rs.2.1, rs.2.2)

variable {cfg : Components} {fp2AddrDb : Index Fp KeyForChunkHashDB}
  {addr : KeyForChunkHashDB} {item : List SendChunk}

/-- Wherever it stands in the message, a logical chunk adds its own fingerprint. -/
theorem processItems_fp {fp : Fp}
    (hfp : ∀ {db r}, processItem cfg db addr item = .ok r → r.2.1 = fp) :
    ∀ {before after : List (KeyForChunkHashDB × List SendChunk)}
      {fp2AddrDb : Index Fp KeyForChunkHashDB}
      {r : List WrappedChunk × List Fp × Index Fp KeyForChunkHashDB},
      processItems cfg fp2AddrDb (before ++ (addr, item) :: after) = .ok r →
        r.2.1[before.length]? = some fp := by
  intro before
  induction before with
  | nil =>
      intro after fp2AddrDb r h
      obtain ⟨x, hx, h⟩ := bind_ok h
      obtain ⟨xs, hxs, h⟩ := bind_ok h
      cases h
      rw [← hfp hx]
      rfl
  | cons b before ih =>
      intro after fp2AddrDb r h
      obtain ⟨x, hx, h⟩ := bind_ok h
      obtain ⟨xs, hxs, h⟩ := bind_ok h
      cases h
      exact ih hxs

end DataRecvThd

namespace DualDedupThd

/-- The loop of `DualDedupThd::Run`: what it passes on, and `fp_2_addr_db`. -/
def runChunks (cfg : Components) : Index Fp KeyForChunkHashDB → List WrappedChunk →
    Except Exit (List WrappedChunk × Index Fp KeyForChunkHashDB)
  | fp2AddrDb, [] => .ok ([], fp2AddrDb)
  | fp2AddrDb, input :: rest => do
      let r ← runChunk cfg fp2AddrDb input
      let rs ← runChunks cfg r.2 rest
      .ok (r.1 ++ rs.1, rs.2)

variable {cfg : Components} {fp2AddrDb : Index Fp KeyForChunkHashDB} {input : WrappedChunk}

theorem runChunk_insert (ht : input.info.stat = .cacheInsertChunk) :
    runChunk cfg fp2AddrDb input = .ok ([input], fp2AddrDb) := by
  simp only [runChunk, ht]

/-- A chunk whose fingerprint is known goes no further. -/
theorem runChunk_known (ht : input.info.stat = .chunkPair ∨ input.info.stat = .singleChunk)
    (hm : input.info.fp ∈ fp2AddrDb) : runChunk cfg fp2AddrDb input = .ok ([], fp2AddrDb) := by
  have hd := DedupDetect.detectDuplicate_duplicate hm
  rcases ht with ht | ht
  · simp only [runChunk, ht, hd, reduceCtorEq, if_false]
  · simp only [runChunk, ht, hd, reduceCtorEq, if_false]

/-- Once a chunk is through, its fingerprint is known. -/
theorem runChunk_enters (ht : input.info.stat = .chunkPair ∨ input.info.stat = .singleChunk)
    {r : List WrappedChunk × Index Fp KeyForChunkHashDB}
    (h : runChunk cfg fp2AddrDb input = .ok r) : input.info.fp ∈ r.2 := by
  by_cases hm : input.info.fp ∈ fp2AddrDb
  · rw [runChunk_known ht hm] at h
    cases h
    exact hm
  · have hd := DedupDetect.detectDuplicate_unique hm
    rcases ht with ht | ht
    · simp only [runChunk, ht, hd, if_true] at h
      cases h
      exact Finmap.mem_insert.mpr (Or.inl rfl)
    · simp only [runChunk, ht, hd, if_true] at h
      cases h
      exact Finmap.mem_insert.mpr (Or.inl rfl)

end DualDedupThd

/-- A logical chunk through the receiver and the dedup stage. -/
def dedupItem (cfg : Components) (fp2AddrDb : Index Fp KeyForChunkHashDB)
    (addr : KeyForChunkHashDB) (item : List SendChunk) :
    Except Exit (List WrappedChunk × Index Fp KeyForChunkHashDB) := do
  let r ← DataRecvThd.processItem cfg fp2AddrDb addr item
  DualDedupThd.runChunks cfg r.2.2 r.1

/-- Once `item` is through, `item'` is a duplicate: whatever the index has gained
since, nothing of it goes on but what the cache is to learn. -/
def DetectedAfter (cfg : Components) (addr : KeyForChunkHashDB) (item : List SendChunk)
    (addr' : KeyForChunkHashDB) (item' : List SendChunk) : Prop :=
  ∀ db r, dedupItem cfg db addr item = .ok r → ∀ later, (∀ fp ∈ r.2, fp ∈ later) →
    ∃ out, dedupItem cfg later addr' item' = .ok (out, later) ∧
      ∀ chunk ∈ out, chunk.info.stat = .cacheInsertChunk

/-! ## The two forms -/

section Forms

variable {cfg : Components} {addr : KeyForChunkHashDB} {db : Index Fp KeyForChunkHashDB}

/-- What both forms of a chunk come to. -/
def chunkFp (cfg : Components) (pad : CompPad) (data : Bytes) (key : Key) (seed : Nat) : Fp :=
  DataRecvThd.dualFp cfg (cfg.generateHash (cfg.twoPhaseEncChunk data key))
    (cfg.generateHash (cfg.twoPhaseEncChunk (pad.padded data seed) key))

/-- `item` is handled as a chunk with the fingerprint `fp`. -/
structure FormOf (cfg : Components) (fp : Fp) (item : List SendChunk) : Prop where
  recorded : ∀ {addr db r}, DataRecvThd.processItem cfg db addr item = .ok r → r.2.1 = fp
  entered : ∀ {addr db r}, dedupItem cfg db addr item = .ok r → fp ∈ r.2
  detected : ∀ {addr db}, fp ∈ db → ∃ out, dedupItem cfg db addr item = .ok (out, db) ∧
    ∀ chunk ∈ out, chunk.info.stat = .cacheInsertChunk

theorem FormOf.detectedAfter {fp : Fp} {item item' : List SendChunk} (h : FormOf cfg fp item)
    (h' : FormOf cfg fp item') (addr addr' : KeyForChunkHashDB) :
    DetectedAfter cfg addr item addr' item' :=
  fun _ _ hr _ hsub => h'.detected (hsub fp (h.entered hr))

open DataRecvThd DualDedupThd

theorem formOf_pair {cache comp : SendChunk} (ht : cache.type = .fullEdrCacheChunk) :
    FormOf cfg (dualFp cfg (cfg.generateHash cache.data) (cfg.generateHash comp.data))
      [cache, comp] where
  recorded := by
    intro addr db r h
    simp only [processItem, ht] at h
    cases h
    rfl
  entered := by
    intro addr db r h
    simp only [dedupItem, processItem, ht, ok_bind, runChunks] at h
    obtain ⟨x, hx, h⟩ := bind_ok h
    obtain ⟨y, hy, h⟩ := bind_ok h
    obtain ⟨z, hz, hy⟩ := bind_ok hy
    cases hy
    cases h
    exact runChunk_enters (Or.inl rfl) hz
  detected := by
    intro addr db hm
    let insert : WrappedChunk :=
      ⟨⟨dualFp cfg (cfg.generateHash cache.data) (cfg.generateHash comp.data),
        cache.cipherFeatures, addr, .cacheInsertChunk⟩, cache.data, []⟩
    refine ⟨[insert], ?_, fun chunk hc => by rw [List.mem_singleton.mp hc]⟩
    simp only [dedupItem, processItem, ht, ok_bind, runChunks]
    rw [runChunk_insert rfl, ok_bind, runChunk_known (Or.inl rfl) hm]
    rfl

theorem formOf_single {chunk : SendChunk} (ht : chunk.type = .fullEdrUncompressChunk) :
    FormOf cfg (dualFp cfg (cfg.generateHash chunk.data) chunk.compressedFp) [chunk] where
  recorded := by
    intro addr db r h
    simp only [processItem, ht] at h
    cases h
    rfl
  entered := by
    intro addr db r h
    simp only [dedupItem, processItem, ht, ok_bind, runChunks] at h
    obtain ⟨x, hx, h⟩ := bind_ok h
    cases h
    exact runChunk_enters (Or.inr rfl) hx
  detected := by
    intro addr db hm
    refine ⟨[], ?_, fun chunk hc => absurd hc List.not_mem_nil⟩
    simp only [dedupItem, processItem, ht, ok_bind, runChunks]
    rw [runChunk_known (Or.inr rfl) hm]
    rfl

variable (cfg) in
/-- The item a client sends for a chunk, in whichever form and from whichever
buffer, is handled as the one fingerprint. -/
theorem sendItem_form (pad : CompPad) (outputData : Bytes) (m : CacheMeta) (data : Bytes)
    (key : Key) (seed : Nat) :
    FormOf cfg (chunkFp cfg pad data key seed)
      (SenderThd.sendItem (cfg.withCompPad pad outputData) .fullEdr m
        (prepareChunk cfg data key seed)).1 := by
  let chunk := prepareChunk cfg data key seed
  let client := cfg.withCompPad pad outputData
  have hcomp : client.compressWithPad data seed = pad.padded data seed :=
    Components.withCompPad_compressWithPad outputData data seed
  cases hq : (m.queryCacheMeta chunk.features).1 with
  | true =>
      let single : SendChunk :=
        { type := .fullEdrUncompressChunk, data := chunk.encData, cipherFeatures := chunk.features,
          compressedFp := cfg.generateHash
            (cfg.twoPhaseEncChunk (client.compressWithPad data seed) key) }
      have hitem : (SenderThd.sendItem client .fullEdr m chunk).1 = [single] := by
        simp only [SenderThd.sendItem, SelectCompThd.runChunk, SelectCompThd.fullEDR, hq, if_true]
        rfl
      rw [hitem, chunkFp, ← hcomp]
      exact formOf_single (show single.type = _ from rfl)
  | false =>
      let cache : SendChunk :=
        { type := .fullEdrCacheChunk, data := chunk.encData, cipherFeatures := chunk.features,
          compressedFp := [] }
      let comp : SendChunk :=
        { type := .normalChunk,
          data := cfg.twoPhaseEncChunk (client.compressWithPad data seed) key,
          cipherFeatures := chunk.features, compressedFp := [] }
      have hitem : (SenderThd.sendItem client .fullEdr m chunk).1 = [cache, comp] := by
        simp only [SenderThd.sendItem, SelectCompThd.runChunk, SelectCompThd.fullEDR, hq]
        rfl
      rw [hitem, chunkFp, ← hcomp]
      exact @formOf_pair cfg cache comp rfl

end Forms

/-! ## Both forms, anywhere -/

theorem dual_fp_of_both_forms (cfg : Components) (pad : CompPad) (outputData outputData' : Bytes)
    (data : Bytes) (key : Key) (seed : Nat) {m m' : CacheMeta}
    (hq : (m.queryCacheMeta (prepareChunk cfg data key seed).features).1 = false)
    (hq' : (m'.queryCacheMeta (prepareChunk cfg data key seed).features).1 = true) :
    let pair := (SenderThd.sendItem (cfg.withCompPad pad outputData) .fullEdr m
      (prepareChunk cfg data key seed)).1
    let single := (SenderThd.sendItem (cfg.withCompPad pad outputData') .fullEdr m'
      (prepareChunk cfg data key seed)).1
    (pair.map (·.type) = [.fullEdrCacheChunk, .normalChunk] ∧
      single.map (·.type) = [.fullEdrUncompressChunk]) ∧
    (∃ fp, ∀ item, item = pair ∨ item = single → ∀ db addr before after r,
      DataRecvThd.processItems cfg db (before ++ (addr, item) :: after) = .ok r →
        r.2.1[before.length]? = some fp) ∧
    ∀ addr addr', DetectedAfter cfg addr pair addr' single ∧
      DetectedAfter cfg addr' single addr pair := by
  intro pair single
  have hpair := sendItem_form cfg pad outputData m data key seed
  have hsingle := sendItem_form cfg pad outputData' m' data key seed
  refine ⟨⟨?_, ?_⟩, ⟨chunkFp cfg pad data key seed, ?_⟩, fun addr addr' =>
    ⟨hpair.detectedAfter hsingle addr addr', hsingle.detectedAfter hpair addr' addr⟩⟩
  · simp only [pair, SenderThd.sendItem, SelectCompThd.runChunk, SelectCompThd.fullEDR, hq]
    rfl
  · simp only [single, SenderThd.sendItem, SelectCompThd.runChunk, SelectCompThd.fullEDR, hq',
      if_true]
    rfl
  · rintro item (rfl | rfl) db addr before after r h
    · exact DataRecvThd.processItems_fp hpair.recorded h
    · exact DataRecvThd.processItems_fp hsingle.recorded h

/-- A compressor that gives up, and a generator that counts. -/
def CompPad.sample : CompPad where
  compressOneChunk := id
  randomRange := fun seed i => seed + i

/-- One chunk sent by a client that has not met it and by one that has. -/
theorem dual_fp_of_both_forms_sample :
    let pair := (SenderThd.sendItem (Components.sized.withCompPad .sample [7]) .fullEdr ⟨∅, 0⟩
      (prepareChunk Components.sized [5] [1] 3)).1
    let single := (SenderThd.sendItem (Components.sized.withCompPad .sample []) .fullEdr
      (CacheMeta.updateCacheMeta ⟨∅, 0⟩ ⟨5, 6, 7⟩) (prepareChunk Components.sized [5] [1] 3)).1
    (pair.map (·.type) = [.fullEdrCacheChunk, .normalChunk] ∧
      single.map (·.type) = [.fullEdrUncompressChunk]) ∧
    (∃ fp, ∀ item, item = pair ∨ item = single → ∀ db addr before after r,
      DataRecvThd.processItems Components.sized db (before ++ (addr, item) :: after) = .ok r →
        r.2.1[before.length]? = some fp) ∧
    ∀ addr addr', DetectedAfter Components.sized addr pair addr' single ∧
      DetectedAfter Components.sized addr' single addr pair :=
  dual_fp_of_both_forms Components.sized .sample [7] [] [5] [1] 3 (by decide +kernel)
    (by decide +kernel)

end EDRStore
