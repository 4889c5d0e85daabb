/-
# `EDRStore.KeyGen` — the key of a chunk

`KeyGenThd` hashes the first 32 bytes of the chunk's array with the key seed the
key manager replies.  For a chunk shorter than that the array's old bytes are
hashed too, and these depend on the chunks before it in the file.
-/
import EDRStore.Chunking
import EDRStore.Client
import EDRStore.Lib.Batch

namespace EDRStore

/-- `FeatureChunk_t`. -/
structure FeatureChunk where
  rawChunk : RawPlainChunk
  features : Features

/-- `KeyGen2SelectComp_t`, as `KeyGenThd` pushes it. -/
structure GenChunk where
  featureChunk : FeatureChunk
  encData : Bytes
  key : Key
  seed : Nat

def GenChunk.content (y : GenChunk) : Bytes := y.featureChunk.rawChunk.content

variable (cfg : Components)

/-- `PlainSimilarThd::Run`. -/
def PlainSimilarThd.run (chunks : List RawPlainChunk) : List FeatureChunk :=
  chunks.map fun x => ⟨x, cfg.extractFeature x.content⟩

namespace KeyGenThd

/-- `KeyGenThd::ConvertFp2Val`. -/
def convertFp2Val (fp : Fp) : Nat := ((fp.take chunkHashSize).map UInt8.toNat).sum

/-- The loop body of `KeyGenThd::ProcessBatch`. -/
def processChunk (x : FeatureChunk) (keySeed : Key) : GenChunk :=
  -- final key = H (sampled plaintext content || key seed)
  let key := cfg.generateHash (x.rawChunk.data.take chunkHashSize ++ keySeed)
  { featureChunk := x
    encData := cfg.twoPhaseEncChunk x.rawChunk.content key
    key := key
    seed := convertFp2Val x.rawChunk.fp }

/-- `KeyGenThd::ProcessBatch`, given what the key manager replies. -/
def processBatch (batch : List FeatureChunk) (reply : List Key) : List GenChunk :=
  batch.zipWith (processChunk cfg) reply

/-- `KeyGenThd::Run`: `chunk_buf_` is processed whenever it holds a multiple of
`send_chunk_batch_size_` chunks, and once more at the end. -/
def run (batchSize : Nat) (chunks : List FeatureChunk) (replies : List (List Key)) :
    List GenChunk :=
  (List.zipWith (processBatch cfg) (Batch.batches batchSize chunks) replies).flatten

/-- The key manager has replied one key seed for each request. -/
def Answers (batchSize : Nat) (chunks : List FeatureChunk) (replies : List (List Key)) : Prop :=
  replies.map List.length = (Batch.batches batchSize chunks).map List.length

end KeyGenThd

/-- `CipherSimilarThd::Run` on one chunk. -/
def CipherSimilarThd.runChunk (y : GenChunk) : EncFeatureChunk :=
  { data := y.content, encData := y.encData, features := cfg.extractFeature y.encData,
    key := y.key, seed := y.seed }

variable {cfg}

/-- What goes on from here is the chunk prepared under its key and seed. -/
theorem CipherSimilarThd.runChunk_processChunk (x : FeatureChunk) (keySeed : Key) :
    runChunk cfg (KeyGenThd.processChunk cfg x keySeed) =
      prepareChunk cfg x.rawChunk.content (KeyGenThd.processChunk cfg x keySeed).key
        (KeyGenThd.processChunk cfg x keySeed).seed :=
  rfl

namespace KeyGenThd

theorem flatten_zipWith {α β γ : Type} (f : α → β → γ) {as : List (List α)} :
    ∀ {bs : List (List β)}, bs.map List.length = as.map List.length →
      (as.zipWith (List.zipWith f) bs).flatten = as.flatten.zipWith f bs.flatten := by
  induction as with
  | nil =>
      intro bs h
      rw [List.map_nil, List.map_eq_nil_iff] at h
      rw [h]
      rfl
  | cons a as ih =>
      intro bs h
      cases bs with
      | nil => exact nomatch h
      | cons b bs =>
          rw [List.map_cons, List.map_cons, List.cons.injEq] at h
          rw [List.zipWith_cons_cons, List.flatten_cons, ih h.2, List.flatten_cons,
            List.flatten_cons, List.zipWith_append h.1.symm]

/-- However the chunks fall into batches, each is processed with its own reply. -/
theorem run_eq {batchSize : Nat} {chunks : List FeatureChunk} {replies : List (List Key)}
    (h : Answers batchSize chunks replies) :
    run cfg batchSize chunks replies = chunks.zipWith (processChunk cfg) replies.flatten := by
  rw [run, show processBatch cfg = List.zipWith (processChunk cfg) from rfl, flatten_zipWith _ h,
    Batch.flatten_batches]

end KeyGenThd

/-! ## Content decides, from 32 bytes on -/

/-- A client's run up to its keys: a file, and what the key manager replied. -/
structure KeyRun where
  chunker : FastCDC
  readSize_lt : chunker.readSize < 2 ^ 32
  readBuf : Bytes
  data : Bytes
  file : Bytes
  batchSize : Nat
  replies : List (List Key)

namespace KeyRun

variable (cfg) (r : KeyRun)

def chunks : List RawPlainChunk := (ChunkerFPThd.run cfg r.chunker r.readBuf r.data r.file).1

def featureChunks : List FeatureChunk := PlainSimilarThd.run cfg (r.chunks cfg)

def keyed : List GenChunk := KeyGenThd.run cfg r.batchSize (r.featureChunks cfg) r.replies

/-- The chunks before the `i`-th, the latest first. -/
def before (i : Nat) : List Bytes := (((r.chunks cfg).take i).map RawPlainChunk.content).reverse

/-- The byte that the array of the `i`-th chunk holds at `p`, from before. -/
def stale (i p : Nat) : Option UInt8 := leftover r.data (r.before cfg i) p

end KeyRun

/-- Two chunks were given the same key, padding seed and ciphertext. -/
structure GenChunk.SameEncryption (y y' : GenChunk) : Prop where
  key : y.key = y'.key
  seed : y.seed = y'.seed
  encData : y.encData = y'.encData

/-- Two lists begin with the same `n` members when they agree at the first `n`
positions. -/
theorem take_eq_take_iff {α : Type} {l l' : List α} {n : Nat} :
    l.take n = l'.take n ↔ ∀ p < n, l[p]? = l'[p]? := by
  constructor
  · intro h p hp
    rw [← List.getElem?_take_of_lt hp, h, List.getElem?_take_of_lt hp]
  · intro h
    apply List.ext_getElem?
    intro p
    rcases Nat.lt_or_ge p n with hp | hp
    · rw [List.getElem?_take_of_lt hp, List.getElem?_take_of_lt hp, h p hp]
    · rw [List.getElem?_take_eq_none hp, List.getElem?_take_eq_none hp]

section Keyed

variable {r r' : KeyRun} {i j : Nat} {y y' : GenChunk}

/-- What a keyed chunk was made of. -/
theorem KeyRun.keyed_spec (hr : KeyGenThd.Answers r.batchSize (r.featureChunks cfg) r.replies)
    (hy : (r.keyed cfg)[i]? = some y) :
    (r.chunks cfg)[i]? = some y.featureChunk.rawChunk ∧
      ∃ keySeed, r.replies.flatten[i]? = some keySeed ∧
        y.key = cfg.generateHash (y.featureChunk.rawChunk.data.take chunkHashSize ++ keySeed) ∧
        y.seed = KeyGenThd.convertFp2Val y.featureChunk.rawChunk.fp ∧
        y.encData = cfg.twoPhaseEncChunk y.content y.key := by
  rw [KeyRun.keyed, KeyGenThd.run_eq hr, List.getElem?_zipWith_eq_some] at hy
  obtain ⟨x, keySeed, hx, hk, rfl⟩ := hy
  rw [KeyRun.featureChunks, PlainSimilarThd.run, List.getElem?_map, Option.map_eq_some_iff] at hx
  obtain ⟨raw, hraw, rfl⟩ := hx
  exact ⟨hraw, keySeed, hk, rfl, rfl, rfl⟩

/-- The array of a pushed chunk: the chunk, and behind it what was there before. -/
theorem KeyRun.getElem?_data {x : RawPlainChunk} (h : (r.chunks cfg)[i]? = some x) (p : Nat) :
    x.size = x.content.length ∧ x.fp = cfg.generateHash x.content ∧
      x.data[p]? = if p < x.size then x.content[p]? else r.stale cfg i p := by
  obtain ⟨cs, hrun, -, -⟩ := ChunkerFPThd.run_spec cfg r.readSize_lt r.readBuf r.data r.file
  have hchunks : r.chunks cfg = emitted cfg r.data cs := by rw [KeyRun.chunks, hrun]
  rw [hchunks] at h
  obtain ⟨hc, hs, hfp, hd⟩ := getElem?_emitted h
  refine ⟨hs, hfp, ?_⟩
  obtain ⟨hi, hget⟩ := List.getElem?_eq_some_iff.mp hc
  have hbefore : r.before cfg i = (cs.take i).reverse := by
    rw [KeyRun.before, hchunks, List.map_take, map_content_emitted]
  rw [hd, getElem?_filled, List.take_add_one, hc, Option.toList_some, List.reverse_append,
    List.reverse_singleton, List.singleton_append, leftover, hs, KeyRun.stale, hbefore]

/-- The hashed bytes are the same exactly when what lies behind the chunk is. -/
theorem KeyRun.take_data_eq_iff {x x' : RawPlainChunk} (hx : (r.chunks cfg)[i]? = some x)
    (hx' : (r'.chunks cfg)[j]? = some x') (hsame : x.content = x'.content) :
    x.data.take chunkHashSize = x'.data.take chunkHashSize ↔ chunkHashSize ≤ x.content.length ∨
      ∀ p, x.content.length ≤ p → p < chunkHashSize → r.stale cfg i p = r'.stale cfg j p := by
  have hdata : ∀ p, x.data[p]? =
      if p < x.content.length then x.content[p]? else r.stale cfg i p := by
    intro p
    obtain ⟨hs, -, hd⟩ := KeyRun.getElem?_data hx p
    rwa [← hs]
  have hdata' : ∀ p, x'.data[p]? =
      if p < x.content.length then x.content[p]? else r'.stale cfg j p := by
    intro p
    obtain ⟨hs, -, hd⟩ := KeyRun.getElem?_data hx' p
    rwa [hsame, ← hs]
  rw [take_eq_take_iff]
  constructor
  · intro h
    by_cases hlong : chunkHashSize ≤ x.content.length
    · exact Or.inl hlong
    · refine Or.inr fun p hp hlt => ?_
      have hpp := h p hlt
      rwa [hdata, hdata', if_neg (by omega), if_neg (by omega)] at hpp
  · intro h p hp
    rw [hdata, hdata']
    split
    · rfl
    · rcases h with hlong | h
      · omega
      · exact h p (by omega) hp

/-- Chunks with the same bytes and the same key seed are encrypted alike exactly
when they have 32 bytes, or their arrays happened to hold the same bytes behind
them. -/
theorem KeyRun.encryption_determined_iff (cfg : Components) (hinj : cfg.HashInjective)
    (r r' : KeyRun) (hr : KeyGenThd.Answers r.batchSize (r.featureChunks cfg) r.replies)
    (hr' : KeyGenThd.Answers r'.batchSize (r'.featureChunks cfg) r'.replies) (i j : Nat)
    (y y' : GenChunk) (hy : (r.keyed cfg)[i]? = some y) (hy' : (r'.keyed cfg)[j]? = some y')
    (hsame : y.content = y'.content)
    (hseed : r.replies.flatten[i]? = r'.replies.flatten[j]?) :
    y.SameEncryption y' ↔ chunkHashSize ≤ y.content.length ∨
      ∀ p, y.content.length ≤ p → p < chunkHashSize → r.stale cfg i p = r'.stale cfg j p := by
  obtain ⟨hx, keySeed, hk, hkey, hsd, henc⟩ := KeyRun.keyed_spec hr hy
  obtain ⟨hx', keySeed', hk', hkey', hsd', henc'⟩ := KeyRun.keyed_spec hr' hy'
  rw [hk, hk', Option.some.injEq] at hseed
  subst hseed
  refine Iff.trans ?_ (KeyRun.take_data_eq_iff hx hx' hsame)
  constructor
  · intro h
    have heq := h.key
    rw [hkey, hkey'] at heq
    exact List.append_cancel_right (hinj heq)
  · intro h
    have heq : y.key = y'.key := by rw [hkey, hkey', h]
    have hfp : y.featureChunk.rawChunk.fp = y'.featureChunk.rawChunk.fp := by
      rw [(KeyRun.getElem?_data hx 0).2.1, (KeyRun.getElem?_data hx' 0).2.1]
      exact congrArg cfg.generateHash hsame
    exact ⟨heq, by rw [hsd, hsd', hfp], by rw [henc, henc', hsame, heq]⟩

end Keyed

/-! ## A short chunk at the end of two files -/

/-- Chunks of four bytes, and a shorter one at the end. -/
def fourByteChunker : FastCDC where
  minChunkSize := 1
  normalChunkSize := 2
  maxChunkSize := 4
  maskS := 1
  maskL := 1
  gear := fun _ => 1
  readSize := 2 ^ 20
  maxChunkSize_pos := by decide
  readSize_pos := by decide

/-- One file, one key seed for each of its chunks. -/
def seededRun (file : Bytes) (replies : List (List Key)) : KeyRun where
  chunker := fourByteChunker
  readSize_lt := by decide
  readBuf := []
  data := List.replicate maxChunkSize 0
  file := file
  batchSize := 1
  replies := replies

/-- The last chunk's reply is the same in both. -/
def shortFile : KeyRun := seededRun [7] [[[5]]]
def longFile : KeyRun := seededRun [1, 2, 3, 4, 7] [[[6]], [[5]]]

theorem exists_short : ∃ y, (shortFile.keyed Components.plain)[0]? = some y ∧ y.content = [7] :=
  Option.map_eq_some_iff.mp (by decide +kernel)

theorem exists_long : ∃ y, (longFile.keyed Components.plain)[1]? = some y ∧ y.content = [7] :=
  Option.map_eq_some_iff.mp (by decide +kernel)

theorem shortFile_answers : KeyGenThd.Answers shortFile.batchSize
    (shortFile.featureChunks Components.plain) shortFile.replies := by
  unfold KeyGenThd.Answers
  decide +kernel

theorem longFile_answers : KeyGenThd.Answers longFile.batchSize
    (longFile.featureChunks Components.plain) longFile.replies := by
  unfold KeyGenThd.Answers
  decide +kernel

theorem KeyRun.encryption_determined_sample :
    ∃ y y', (shortFile.keyed Components.plain)[0]? = some y ∧
      (longFile.keyed Components.plain)[1]? = some y' ∧
      (y.SameEncryption y' ↔ chunkHashSize ≤ y.content.length ∨
        ∀ p, y.content.length ≤ p → p < chunkHashSize →
          shortFile.stale Components.plain 0 p = longFile.stale Components.plain 1 p) := by
  obtain ⟨y, hy, hc⟩ := exists_short
  obtain ⟨y', hy', hc'⟩ := exists_long
  exact ⟨y, y', hy, hy', KeyRun.encryption_determined_iff Components.plain
    Components.plain_hashInjective shortFile longFile shortFile_answers longFile_answers 0 1 y y'
    hy hy' (hc.trans hc'.symm) rfl⟩

/-- Chunk encryption is determined by content and key seed. -/
def KeyRun.Determined (cfg : Components) : Prop :=
  ∀ (r r' : KeyRun) (i j : Nat) (y y' : GenChunk),
    KeyGenThd.Answers r.batchSize (r.featureChunks cfg) r.replies →
    KeyGenThd.Answers r'.batchSize (r'.featureChunks cfg) r'.replies →
    (r.keyed cfg)[i]? = some y → (r'.keyed cfg)[j]? = some y' → y.content = y'.content →
    r.replies.flatten[i]? = r'.replies.flatten[j]? → y.SameEncryption y'

/-- Behind the byte 7 the second array still holds 2, 3 and 4. -/
theorem KeyRun.tail_chunk_differs : ¬ KeyRun.Determined Components.plain := by
  intro h
  obtain ⟨y, hy, hc⟩ := exists_short
  obtain ⟨y', hy', hc'⟩ := exists_long
  have hkey := (h shortFile longFile 0 1 y y' shortFile_answers longFile_answers hy hy'
    (hc.trans hc'.symm) rfl).key
  have hne : (shortFile.keyed Components.plain)[0]?.map GenChunk.key ≠
      (longFile.keyed Components.plain)[1]?.map GenChunk.key := by decide +kernel
  rw [hy, hy'] at hne
  exact hne (congrArg some hkey)

end EDRStore
