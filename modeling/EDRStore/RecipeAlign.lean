/-
# `EDRStore.RecipeAlign` — the recipes of a file and its restore

One upload records a fingerprint and a key for each chunk; one restore reads the
fingerprints, fetches and decodes, and the client takes one key for each logical
chunk that arrives.  The four batching loops agree exactly when the fingerprints
that a recipe buffer gathers can be counted in 32-bit bytes and the messages fit
the client.
-/
import EDRStore.RestoreFraming

namespace EDRStore

/-! ## Many messages -/

namespace DataRetrieverThd

variable {cfg : Components} {recipeBatchSize m clientId : Nat}

/-- All messages of a restore, given the keys of all records. -/
theorem run_taken (hc : clientId < 2 ^ 32)
    (hn : recipeBatchBytes recipeBatchSize = m * chunkHashSize) {groups : List (List Reader2Decoder)}
    (hm : groups ≠ [] → 0 < m) (hg : ∀ g ∈ groups, (∀ x ∈ g, x.Ready cfg) ∧ RestoreFits cfg g) :
    ∀ {keys : List Key} {s : RetrieverState}, List.Forall₂ (Processes cfg) keys groups.flatten →
      KeysAt s.keyRecipe s.remainRecipeNum s.keyRecipeHdl keys → s.totalRecvChunkNum < 2 ^ 64 →
      min keys.length m < 2 ^ 32 → m * chunkHashSize ≤ s.keyRecipe.buf.length →
      ∃ s', run cfg recipeBatchSize s (groups.map (restoreMessage cfg clientId)) = .ok s' ∧
        Taken cfg keys groups.flatten s s' ∧
        ((∀ g ∈ groups, (restoreMessage cfg clientId g).length ≤ s.recvBuf.length) →
          s'.recvBuf.length = s.recvBuf.length) := by
  induction groups with
  | nil =>
      intro keys s hp _ htot _ _
      cases hp
      exact ⟨s, rfl, Taken.refl s htot, fun _ => rfl⟩
  | cons g groups ih =>
      intro keys s hp hkeys htot hlt hroom
      rw [List.flatten_cons] at hp
      have hp₁ := List.forall₂_take_append keys g groups.flatten hp
      have hp₂ := List.forall₂_drop_append keys g groups.flatten hp
      rw [← List.take_append_drop g.length keys] at hkeys hlt ⊢
      obtain ⟨hready, hfit⟩ := hg g List.mem_cons_self
      have hpos := hm (List.cons_ne_nil g groups)
      obtain ⟨s₁, hrun, h₁, hrecv, hkeys₁⟩ :=
        recvRestore_spec hc hready hfit hpos hn hp₁ hkeys htot hlt hroom
      obtain ⟨s', hrun', h', hkept⟩ := ih (fun _ => hpos)
        (fun g' hg' => hg g' (List.mem_cons_of_mem _ hg')) hp₂ hkeys₁
        (by rw [h₁.total]; exact Nat.mod_lt _ (by decide))
        (by rw [List.length_append] at hlt; omega) (by rw [h₁.keyBuf]; exact hroom)
      refine ⟨s', ?_, h₁.trans h' hp₁.length_eq, fun hle => ?_⟩
      · rw [run] at hrun' ⊢
        rw [List.map_cons, List.foldlM_cons, hrun, ok_bind, hrun']
      · have hlen : s₁.recvBuf.length = s.recvBuf.length := by
          rw [hrecv]
          exact length_memcpy (by rw [Nat.zero_add]; exact hle g List.mem_cons_self)
        rw [hkept fun g' hg' => by rw [hlen]; exact hle g' (List.mem_cons_of_mem _ hg'), hlen]

/-- The receive buffer is written by `ReceiveData` only. -/
theorem fullEDRLoop_recvBuf {dataBuf : Bytes} {n : Nat} : ∀ {s s' : RetrieverState} {offset : Nat},
    fullEDRLoop cfg recipeBatchSize dataBuf n s offset = .ok s' → s'.recvBuf = s.recvBuf := by
  induction n with
  | zero =>
      intro s s' offset h
      cases h
      rfl
  | succ n ih =>
      intro s s' offset h
      rw [fullEDRLoop] at h
      obtain ⟨r, hturn, h⟩ := bind_ok h
      unfold fullEDRTurn at hturn
      obtain ⟨item, -, hturn⟩ := bind_ok hturn
      obtain ⟨c, -, hturn⟩ := bind_ok hturn
      cases hturn
      rw [ih h]
      show (if s.remainRecipeNum = 0 then fetchKeyRecipe recipeBatchSize s else s).recvBuf = _
      split
      · rfl
      · rfl

/-- A message larger than the buffer outgrows it for good. -/
theorem length_message_le_recvBuf {messages : List Bytes} : ∀ {s s' : RetrieverState},
    run cfg recipeBatchSize s messages = .ok s' → s.recvBuf.length ≤ s'.recvBuf.length ∧
      ∀ message ∈ messages, message.length ≤ s'.recvBuf.length := by
  induction messages with
  | nil =>
      intro s s' h
      cases h
      exact ⟨Nat.le_refl _, fun _ hm => absurd hm List.not_mem_nil⟩
  | cons message messages ih =>
      intro s s' h
      rw [run, List.foldlM_cons] at h
      obtain ⟨s₁, h₁, h⟩ := bind_ok h
      obtain ⟨hle, hall⟩ := ih h
      have hbuf := fullEDRLoop_recvBuf h₁
      obtain ⟨hge, hmsg⟩ := RecipeWriter.length_memcpy_ge s.recvBuf message 0
      have hbuf' := congrArg List.length hbuf
      have hmsg' := hmsg (Nat.zero_le _)
      simp only at hbuf'
      refine ⟨by omega, fun x hx => ?_⟩
      rcases List.mem_cons.mp hx with rfl | hx
      · omega
      · exact hall x hx

end DataRetrieverThd

/-! ## A file there and back -/

namespace DataReaderThd

/-- `FetchChunk` for one fingerprint after the other. -/
def fetchChunks (cfg : Components) (srv : Server) (informCache : InformCache) :
    ClientStore → List Fp → Except Exit (List RawChunk)
  | _, [] => .ok []
  | cur, fp :: fps => do
      let r ← fetchChunk cfg srv informCache fp cur
      let raws ← fetchChunks cfg srv informCache r.2 fps
      .ok (r.1 :: raws)

end DataReaderThd

/-- An upload of a file and a restore of it: the file with its fingerprints and keys
as they were recorded, the configured sizes, the server at the restore, and what
the allocated buffers hold. -/
structure Transfer where
  chunker : FastCDC
  readSize_lt : chunker.readSize < 2 ^ 32
  readBuf : Bytes
  data : Bytes
  file : Bytes
  fps : List Fp
  keys : List Key
  clientId : Nat
  batchSize : Nat
  recipeBatchSize : Nat
  unsetHead : Bytes
  fpBuf : Bytes
  keyBuf : Bytes
  srv : Server
  informCache : InformCache
  cur : ClientStore
  stale : Nat → SendChunkHeader × SendChunkHeader
  dataBuf : Bytes
  recvBuf : Bytes
  readKeyBuf : Bytes

namespace Transfer

variable (cfg : Components) (t : Transfer)

/-- What `ChunkerFPThd` pushes. -/
def chunked : List RawPlainChunk × FileRecipeHead :=
  ChunkerFPThd.run cfg t.chunker t.readBuf t.data t.file

def fileRecipe : RecipeWriter :=
  DataRecvThd.fileRecipe t.recipeBatchSize t.unsetHead t.fpBuf t.fps (t.chunked cfg).2

def keyRecipe : RecipeWriter := SenderThd.keyRecipe t.recipeBatchSize t.keyBuf t.keys

/-- The fingerprints `DataReaderThd::Run` reads back. -/
def readBack : List Fp := DataReaderThd.fingerprints t.recipeBatchSize (t.fileRecipe cfg).hdl

/-- The head the client is sent at its login. -/
def recipeHead : FileRecipeHead :=
  FileRecipeHead.decode ((t.fileRecipe cfg).hdl.take fileRecipeHeadSize)

/-- What `FetchChunk` has read, with the headers nobody has set. -/
def records (raws : List RawChunk) : List Reader2Decoder :=
  raws.mapIdx fun i raw => ⟨raw, (t.stale i).1, (t.stale i).2⟩

/-- The restore: reader, decoder, retriever. -/
def restore : Except Exit (DecoderState × RetrieverState) := do
  let raws ← DataReaderThd.fetchChunks cfg t.srv t.informCache t.cur (t.readBack cfg)
  let d ← DataDecoderThd.run cfg t.clientId t.batchSize (DataDecoderThd.new t.dataBuf)
    (t.records raws)
  let s ← DataRetrieverThd.run cfg t.recipeBatchSize
    (DataRetrieverThd.new t.recvBuf t.readKeyBuf t.keyRecipe.hdl) d.sent
  .ok (d, s)

/-- The sizes are those of the structures and of the calls of `malloc`, every chunk
has its fingerprint and its key, and each chunk, taken alone, can be fetched
(`raws`), decoded and processed under its key. -/
structure Sound (raws : List RawChunk) : Prop where
  clientId : t.clientId < 2 ^ 32
  batchSize : 0 < t.batchSize
  recipeBatchSize : 0 < t.recipeBatchSize
  fps : t.fps.length = (t.chunked cfg).1.length
  keys : t.keys.length = (t.chunked cfg).1.length
  fpSize : ∀ fp ∈ t.fps, fp.length = chunkHashSize
  keySize : ∀ key ∈ t.keys, key.length = chunkHashSize
  unsetHead : t.unsetHead.length = fileRecipeHeadSize
  fpBuf : t.fpBuf.length = recipeBatchBytes t.recipeBatchSize
  keyBuf : t.keyBuf.length = recipeBatchBytes t.recipeBatchSize
  readKeyBuf : t.readKeyBuf.length = recipeBatchBytes t.recipeBatchSize
  dataBuf : t.dataBuf.length = 2 * t.batchSize * sendChunkSize
  recvBuf : t.recvBuf.length = DataRetrieverThd.recvBufSize t.batchSize
  fetched : DataReaderThd.fetchChunks cfg t.srv t.informCache t.cur t.fps = .ok raws
  ready : ∀ x ∈ t.records raws, x.Ready cfg
  processed : List.Forall₂ (DataRetrieverThd.Processes cfg) t.keys (t.records raws)

/-- The recipes and the restore stream are aligned. -/
structure AlignedIn (raws : List RawChunk) (d : DecoderState) (s : RetrieverState) : Prop where
  /-- The reader reads the recorded fingerprints. -/
  readBack : t.readBack cfg = t.fps
  run : t.restore cfg = .ok (d, s)
  /-- Each chunk arrives as one item, with its own key, in the order recorded. -/
  items : s.output.map (fun o => (o.key, o.entries)) =
    t.keys.zip ((t.records raws).map (Reader2Decoder.entries cfg))
  /-- `remain_recipe_num_` never underflows. -/
  remain : ∀ o ∈ s.output, 0 < o.remain
  total : s.totalRecvChunkNum = (t.recipeHead cfg).chunkNum
  /-- Nothing was written behind a buffer's end. -/
  kept : (t.fileRecipe cfg).batch.buf.length = t.fpBuf.length ∧
    t.keyRecipe.batch.buf.length = t.keyBuf.length ∧
    s.recvBuf.length = t.recvBuf.length ∧ s.keyRecipe.buf.length = t.readKeyBuf.length

def Aligned (raws : List RawChunk) : Prop := ∃ d s, t.AlignedIn cfg raws d s

variable {cfg} {t} {raws : List RawChunk}

/-- A message of the restore. -/
theorem length_restoreMessage {g : List Reader2Decoder} (hg : ∀ x ∈ g, x.Ready cfg)
    (clientId : Nat) :
    (restoreMessage cfg clientId g).length = restoreSizes cfg g + networkHeadSize := by
  rw [restoreMessage, List.length_append, NetworkHead.length_encode, length_restoreBytes hg,
    Nat.add_comm]

variable (cfg t) in
/-- The head counts the chunks. -/
theorem chunkNum_eq : (t.chunked cfg).2.chunkNum = (t.chunked cfg).1.length := by
  obtain ⟨cs, hrun, -, -⟩ := ChunkerFPThd.run_spec cfg t.readSize_lt t.readBuf t.data t.file
  rw [chunked, hrun, length_emitted]

/-- Whole recipes, as they stand in their files. -/
theorem recipes_spec (h : t.Sound cfg raws) (hfit : RecipesFit t.recipeBatchSize t.fps.length) :
    (t.fileRecipe cfg).hdl = (t.chunked cfg).2.encode ++ t.fps.flatten ∧
      t.readBack cfg = t.fps ∧ t.keyRecipe.hdl = t.keys.flatten ∧
      (t.fileRecipe cfg).batch.buf.length = t.fpBuf.length ∧
      t.keyRecipe.batch.buf.length = t.keyBuf.length := by
  obtain ⟨hfile, hbuf⟩ := fileRecipe_spec h.recipeBatchSize h.fpSize h.unsetHead h.fpBuf hfit
    (t.chunked cfg).2
  have hread := fingerprints_spec h.recipeBatchSize h.fpSize hfit (t.chunked cfg).2
  have hlen : t.keys.length = t.fps.length := h.keys.trans h.fps.symm
  obtain ⟨hkey, hkeyBuf⟩ := SenderThd.keyRecipe_spec h.recipeBatchSize h.keySize h.keyBuf
    (by rw [hlen]; exact hfit)
  refine ⟨hfile, ?_, hkey, hbuf, hkeyBuf⟩
  rw [readBack, fileRecipe, hfile]
  exact hread

/-- The messages carry all records, and are received if they fit. -/
theorem run_restore (h : t.Sound cfg raws) (hfit : RecipesFit t.recipeBatchSize t.fps.length)
    (hmsg : ∀ g ∈ Batch.batches t.batchSize (t.records raws), RestoreFits cfg g) :
    ∃ d s, t.restore cfg = .ok (d, s) ∧
      d.sent = (Batch.batches t.batchSize (t.records raws)).map (restoreMessage cfg t.clientId) ∧
      DataRetrieverThd.run cfg t.recipeBatchSize
        (DataRetrieverThd.new t.recvBuf t.readKeyBuf t.keys.flatten) d.sent = .ok s ∧
      DataRetrieverThd.Taken cfg t.keys (t.records raws)
        (DataRetrieverThd.new t.recvBuf t.readKeyBuf t.keys.flatten) s ∧
      ((∀ message ∈ d.sent, message.length ≤ t.recvBuf.length) →
        s.recvBuf.length = t.recvBuf.length) := by
  obtain ⟨d, hdec, hsent⟩ := DataDecoderThd.run_framed t.clientId h.ready hmsg t.dataBuf
  obtain ⟨m, hm⟩ := recipeBatchBytes_eq t.recipeBatchSize
  have hsize : 0 < chunkHashSize := by decide
  have hlen : t.keys.length = t.fps.length := h.keys.trans h.fps.symm
  have hkeys : DataRetrieverThd.KeysAt ⟨t.readKeyBuf, 0⟩ 0 t.keys.flatten t.keys :=
    ⟨h.keySize, [], [], t.keys, rfl, rfl, rfl, rfl, Nat.two_pow_pos 32,
      fun _ hk => absurd hk List.not_mem_nil, List.nil_prefix⟩
  have hready : ∀ g ∈ Batch.batches t.batchSize (t.records raws),
      (∀ x ∈ g, x.Ready cfg) ∧ RestoreFits cfg g := by
    intro g hg
    refine ⟨fun x hx => h.ready x ?_, hmsg g hg⟩
    have hmem := List.mem_flatten_of_mem hg hx
    rwa [Batch.flatten_batches] at hmem
  have hmle : m ≤ t.recipeBatchSize := by
    refine Nat.le_of_mul_le_mul_right (a := m) ?_ hsize
    rw [← hm]
    unfold recipeBatchBytes
    split
    · exact Nat.mod_le _ _
    · exact Nat.zero_le _
  have hcount := hfit.count
  unfold mostGathered at hcount
  have hmpos : Batch.batches t.batchSize (t.records raws) ≠ [] → 0 < m := by
    intro hne
    have hroom := hfit.room
    rw [hm] at hroom
    have hle := Nat.le_of_mul_le_mul_right hroom hsize
    unfold mostGathered at hle
    have hpos : 0 < t.fps.length := by
      rw [← hlen, h.processed.length_eq]
      refine List.length_pos_iff.mpr fun h0 => hne ?_
      rw [h0]
      rfl
    have hb := h.recipeBatchSize
    omega
  obtain ⟨s, hrun, htaken, hkept⟩ := DataRetrieverThd.run_taken (s := DataRetrieverThd.new t.recvBuf
    t.readKeyBuf t.keys.flatten) h.clientId hm hmpos hready
    (by rw [Batch.flatten_batches]; exact h.processed) hkeys (Nat.two_pow_pos 64)
    (by rw [hlen]; omega) (by rw [← hm]; exact Nat.le_of_eq h.readKeyBuf.symm)
  rw [Batch.flatten_batches] at htaken
  rw [← hsent] at hrun
  obtain ⟨-, hback, hkeyHdl, -, -⟩ := recipes_spec h hfit
  refine ⟨d, s, ?_, hsent, hrun, htaken, fun hle => hkept fun g hg => ?_⟩
  · rw [restore, hback, h.fetched, ok_bind, hdec, ok_bind, hkeyHdl, hrun, ok_bind]
  · exact hle _ (by rw [hsent]; exact List.mem_map_of_mem hg)

theorem byteReadSize_pos : 0 < 2 ^ 20 := by decide

/-- Chunks of one byte. -/
def byteChunker : FastCDC where
  minChunkSize := 0
  normalChunkSize := 0
  maxChunkSize := 1
  maskS := 0
  maskL := 0
  gear := fun _ => 0
  readSize := 2 ^ 20
  maxChunkSize_pos := Nat.one_pos
  readSize_pos := byteReadSize_pos

def zeroKey : Key := List.replicate chunkHashSize 5
def zeroFp : Fp := List.replicate chunkHashSize 7

/-- The ciphertext of the compressed chunk `[0]`. -/
def zeroCipher : Bytes := 1 :: (zeroKey ++ [2, 0])

/-- A server that holds one chunk. -/
def zeroServer : Server where
  fp2AddrDb := Finmap.singleton zeroFp ⟨.compBaseChunk, [], 0, zeroCipher.length, []⟩
  feature2FpDb := ∅
  storageCore := { containers := Finmap.singleton [] zeroCipher, uuidCnt := 1, writeChunkNum := 1 }

/-- A file of `n` zeros. -/
def zeroTransfer (n batchSize recipeBatchSize : Nat) : Transfer where
  chunker := byteChunker
  readSize_lt := by decide
  readBuf := []
  data := []
  file := List.replicate n 0
  fps := List.replicate n zeroFp
  keys := List.replicate n zeroKey
  clientId := 1
  batchSize := batchSize
  recipeBatchSize := recipeBatchSize
  unsetHead := List.replicate fileRecipeHeadSize 0
  fpBuf := List.replicate (recipeBatchBytes recipeBatchSize) 0
  keyBuf := List.replicate (recipeBatchBytes recipeBatchSize) 0
  srv := zeroServer
  informCache := ⟨∅, ∅, ∅⟩
  cur := StorageCore.openReader Components.plain ⟨[1], []⟩
  stale := fun _ => (blankHeader, blankHeader)
  dataBuf := List.replicate (2 * batchSize * sendChunkSize) 0
  recvBuf := List.replicate (DataRetrieverThd.recvBufSize batchSize) 0
  readKeyBuf := List.replicate (recipeBatchBytes recipeBatchSize) 0

def zeroRaw : RawChunk := ⟨.compBaseChunk, zeroCipher, none⟩

theorem length_chunked_zeros (n batchSize recipeBatchSize : Nat) :
    ((zeroTransfer n batchSize recipeBatchSize).chunked Components.plain).1.length = n := by
  obtain ⟨cs, hrun, hcs, hflat⟩ :=
    ChunkerFPThd.run_spec Components.plain
      (show byteChunker.readSize < 2 ^ 32 by decide) [] [] (List.replicate n 0)
  have hone : ∀ chunk ∈ cs, chunk.length = 1 := by
    intro chunk hc
    obtain ⟨hne, hle⟩ := hcs chunk hc
    have hpos := List.length_pos_iff.mpr hne
    rw [show byteChunker.longest = 1 by decide] at hle
    omega
  have hlen := length_flatten_blocks hone
  rw [hflat, List.length_replicate, Nat.mul_one] at hlen
  show (ChunkerFPThd.run Components.plain byteChunker [] [] (List.replicate n 0)).1.length = n
  rw [hrun, length_emitted, hlen]

theorem zeroServer_logOk : LogOk Components.plain (fun id => if id = [] then zeroCipher else [])
    zeroServer.storageCore where
  saved := by
    intro id b h
    rw [show zeroServer.storageCore.containers = Finmap.singleton [] zeroCipher from rfl] at h
    by_cases hid : id = []
    · subst hid
      rw [Finmap.lookup_singleton_eq, Option.some.injEq] at h
      rw [if_pos rfl, h]
    · rw [Finmap.lookup_eq_none.mpr (fun hm => hid (Finmap.mem_singleton _ _ _ |>.mp hm))] at h
      exact nomatch h
  undrawn := by
    intro n hn
    refine if_neg fun h => ?_
    have hlen := congrArg List.length h
    simp only [Components.plain, List.length_replicate, List.length_nil] at hlen
    exact absurd hn (by rw [hlen]; decide)
  unsaved := by
    intro n hn hm
    have h := (Finmap.mem_singleton _ _ _).mp hm
    have hlen := congrArg List.length h
    simp only [Components.plain, List.length_replicate, List.length_nil] at hlen
    exact absurd hn (by rw [hlen]; decide)

theorem fetchChunks_zeros {n : Nat} : ∀ {cur : ClientStore},
    CacheOk zeroServer.storageCore cur.containerCache →
    DataReaderThd.fetchChunks Components.plain zeroServer ⟨∅, ∅, ∅⟩ cur (List.replicate n zeroFp) =
      .ok (List.replicate n zeroRaw) := by
  induction n with
  | zero => intro cur _; rfl
  | succ n ih =>
      intro cur hc
      obtain ⟨cache, hread, hc'⟩ := readInto_spec zeroServer_logOk hc
        (show Found Components.plain (fun id => if id = [] then zeroCipher else [])
            zeroServer.storageCore cur ⟨.compBaseChunk, [], 0, zeroCipher.length, []⟩ from
          Or.inl ((Finmap.mem_singleton _ _ _).mpr rfl)) (Nat.le_of_eq (Nat.zero_add _))
      have hl : zeroServer.fp2AddrDb.lookup zeroFp =
          some ⟨.compBaseChunk, [], 0, zeroCipher.length, []⟩ := Finmap.lookup_singleton_eq
      have hfetch : DataReaderThd.fetchChunk Components.plain zeroServer ⟨∅, ∅, ∅⟩ zeroFp cur =
          .ok (zeroRaw, { cur with containerCache := cache }) := by
        simp only [DataReaderThd.fetchChunk, hl, orExit_some, ok_bind, hread]
        rfl
      rw [List.replicate_succ, DataReaderThd.fetchChunks, hfetch, ok_bind, ih hc', ok_bind]
      rfl

variable {n batchSize recipeBatchSize : Nat}

variable (n batchSize recipeBatchSize) in
theorem records_zeros {x : Reader2Decoder}
    (hx : x ∈ (zeroTransfer n batchSize recipeBatchSize).records (List.replicate n zeroRaw)) :
    x = ⟨zeroRaw, blankHeader, blankHeader⟩ := by
  rw [records, List.mem_mapIdx] at hx
  obtain ⟨i, hi, rfl⟩ := hx
  rw [List.getElem_replicate]
  rfl

theorem zeroRaw_decodes : (⟨zeroRaw, blankHeader, blankHeader⟩ : Reader2Decoder).Decodes
    Components.plain [⟨.data .compNormalChunk, zeroCipher⟩] where
  decoded := rfl
  data := List.forall_mem_singleton.mpr (by decide)
  stale := rfl
  baseStale := rfl

theorem zeroRaw_processes : DataRetrieverThd.Processes Components.plain zeroKey
    ⟨zeroRaw, blankHeader, blankHeader⟩ := by
  rw [DataRetrieverThd.Processes, zeroRaw_decodes.entries_eq]
  exact ⟨([0], []), rfl⟩

theorem forall₂_replicate_left {α β : Type} {R : α → β → Prop} {a : α} {l : List β}
    (h : ∀ b ∈ l, R a b) : List.Forall₂ R (List.replicate l.length a) l := by
  induction l with
  | nil => exact .nil
  | cons b l ih =>
      exact .cons (h b List.mem_cons_self) (ih fun c hc => h c (List.mem_cons_of_mem _ hc))

theorem zeroTransfer_sound (n batchSize recipeBatchSize : Nat) (hb : 0 < batchSize)
    (hr : 0 < recipeBatchSize) :
    (zeroTransfer n batchSize recipeBatchSize).Sound Components.plain
      (List.replicate n zeroRaw) where
  clientId := show 1 < 2 ^ 32 by decide
  batchSize := hb
  recipeBatchSize := hr
  fps := by rw [length_chunked_zeros]; exact List.length_replicate
  keys := by rw [length_chunked_zeros]; exact List.length_replicate
  fpSize := fun fp hm => by rw [List.eq_of_mem_replicate hm]; rfl
  keySize := fun key hm => by rw [List.eq_of_mem_replicate hm]; rfl
  unsetHead := List.length_replicate
  fpBuf := List.length_replicate
  keyBuf := List.length_replicate
  readKeyBuf := List.length_replicate
  dataBuf := List.length_replicate
  recvBuf := List.length_replicate
  fetched := fetchChunks_zeros (cacheOk_new Components.plain zeroServer.storageCore)
  ready := fun x hx => by
    rw [records_zeros n batchSize recipeBatchSize hx]
    exact zeroRaw_decodes.ready
  processed := by
    have h := forall₂_replicate_left (R := DataRetrieverThd.Processes Components.plain)
      (a := zeroKey) fun x hx => by
        rw [records_zeros n batchSize recipeBatchSize hx]
        exact zeroRaw_processes
    rwa [records, List.length_mapIdx, List.length_replicate] at h

end Transfer

end EDRStore
