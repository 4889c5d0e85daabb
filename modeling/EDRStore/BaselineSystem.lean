/-
# `EDRStore.BaselineSystem` — files through the other system, byte for byte

One server and any number of clients, one upload at a time.  An upload cuts its
file into chunks and sends them; the server enters every new fingerprint, with a
placeholder, and pushes the body for its writer, which comes to it at any later
moment.  A client keeps the keys of the file, the server its fingerprints.

A download reads one recipe against the server as it is, also while an upload
runs, and writes the chunks it retrieves behind each other.

The containers are files, the indexes are not: they are written when the server
is shut down, and read when it starts.  A server that dies at any other moment
comes back with the indexes of its last shutdown, among containers that are
newer.  (It may also die while it writes them: see `EDRStore.TornIndex`.)
-/
import EDRStore.BaselineClient
import EDRStore.Chunking

namespace EDRStore
namespace Baseline

/-- Why a schedule ends early: a process ended, or the action is not one that can be
taken in this state. -/
inductive Stop where
  | exit (e : Exit)
  | disabled
deriving DecidableEq

/-- An exit of a thread is an exit of the system. -/
def exits {α : Type} : Except Exit α → Except Stop α
  | .ok a => .ok a
  | .error e => .error (.exit e)

theorem exits_eq_ok {α : Type} {x : Except Exit α} {a : α} (h : exits x = .ok a) : x = .ok a := by
  cases x with
  | ok b => cases h; rfl
  | error e => cases h

theorem exits_eq_error {α : Type} {x : Except Exit α} {s : Stop} (h : exits x = .error s) :
    ∃ e, s = .exit e ∧ x = .error e := by
  cases x with
  | ok b => cases h
  | error e => cases h; exact ⟨e, rfl, rfl⟩

/-- `DataRecvThd::ProcessChunks` on one body, with what `tmp_chunk` holds from before:
the fingerprint for the recipe, and what is pushed. -/
def DataRecvThd.processChunk (cfg : Components) (srv : Server) (tmpChunk : ChunkInfo)
    (chunkData : Bytes) : Server × Fp × Option WrappedChunk :=
  let fp := cfg.generateHash chunkData
  let r := DedupDetect.detectDuplicate srv.fp2AddrDb { tmpChunk with fp := fp }
  let srv := { srv with fp2AddrDb := r.2 }
  if r.1.stat = .uniqueChunk then
    (srv, fp, some
      { info :=
          { r.1 with
            addr := { r.1.addr with len := chunkData.length }
            features := cfg.extractFeature chunkData }
        data := chunkData })
  else (srv, fp, none)

/-- A running upload: what the client has still to send and the keys it has kept, the
`ClientVar` of the server, its queue and its recipe. -/
structure Upload where
  name : Fp
  method : EncType
  file : Bytes
  toSend : List RawPlainChunk
  keyRecipe : List Key
  cur : ClientStore
  recv2WriterMq : List WrappedChunk
  done : Bool
  fileRecipe : List Fp
  /-- What the writer of this upload has taken from the queue. -/
  written : List WrappedChunk

/-- A completed upload: both recipes, and the file they were made from. -/
structure StoredFile where
  method : EncType
  fileRecipe : List Fp
  keyRecipe : List Key
  file : Bytes

/-- What the last shutdown has left in the two index files, with the chunks and the
files that go with it. -/
structure Saved where
  fp2AddrDb : Index Fp KeyForChunkHashDB
  feature2FpDb : Index Feature Fp
  files : Index Fp StoredFile
  stored : List WrappedChunk

/-- `files` goes by the hash of file name and client id; a recipe that has been begun
anew, or names chunks that the server has lost, is not in it. -/
structure World where
  srv : Server
  files : Index Fp StoredFile
  session : Option Upload
  /-- What the writers of all completed uploads have taken from their queues. -/
  stored : List WrappedChunk
  saved : Saved

inductive Action where
  /-- A client opens a file and logs in; the buffers of its chunker hold anything. -/
  | login (name : Fp) (method : EncType) (readBuf data file : Bytes)
  /-- The next chunk goes to the server, which enters it. -/
  | send (seed : Nat) (draws : Nat → Nat) (tmpCompressedChunk : Bytes) (tmpChunk : ChunkInfo)
  /-- The writer pops one element. -/
  | write
  | recipeEnd
  | logout
  /-- The server is shut down between two sessions and started again. -/
  | shutdown
  /-- The server dies and is started again. -/
  | crash

namespace World

variable (cfg : Components) (util : CompressUtil) (lib : Cipher) (ch : AbsChunker)

def init : World where
  srv := .empty
  files := ∅
  session := none
  stored := []
  saved := ⟨∅, ∅, ∅, []⟩

/-- A login of a client whose chunker has pushed `chunks`; the recipe of that name is
opened for writing. -/
def openSession (w : World) (name : Fp) (method : EncType) (file : Bytes)
    (chunks : List RawPlainChunk) : World :=
  let r := w.srv.storageCore.openClient cfg
  { w with
    srv := { w.srv with storageCore := r.1 }
    files := w.files.erase name
    saved := { w.saved with files := w.saved.files.erase name }
    session := some
      { name := name, method := method, file := file, toSend := chunks, keyRecipe := [], cur := r.2
        recv2WriterMq := [], done := false, fileRecipe := [], written := [] } }

def step (w : World) : Action → Except Stop World
  | .login name method readBuf data file =>
      match w.session, ch.run cfg (file.length + 1) readBuf data file with
      | none, some r => .ok (w.openSession cfg name method file r.1)
      | _, _ => .error .disabled
  | .send seed draws tmpCompressedChunk tmpChunk =>
      match w.session with
      | none => .error .disabled
      | some t =>
          match t.toSend with
          | [] => .error .disabled
          | x :: rest =>
              let item := sendItem cfg util lib t.method x seed draws tmpCompressedChunk
              let r := DataRecvThd.processChunk cfg w.srv tmpChunk item.data
              .ok { w with
                srv := r.1
                session := some { t with
                  toSend := rest
                  keyRecipe := t.keyRecipe ++ [item.key]
                  fileRecipe := t.fileRecipe ++ [r.2.1]
                  recv2WriterMq := t.recv2WriterMq ++ r.2.2.toList } }
  | .write =>
      match w.session with
      | none => .error .disabled
      | some t =>
          match t.recv2WriterMq with
          | [] => .error .disabled
          | x :: rest => do
              let r ← exits (DataWriterThd.runChunk cfg util w.srv x t.cur)
              .ok { w with
                srv := r.1
                session := some { t with
                  cur := r.2
                  recv2WriterMq := rest
                  written := t.written ++ [x] } }
  | .recipeEnd =>
      match w.session with
      | none => .error .disabled
      | some t =>
          match t.toSend, t.done with
          | [], false => .ok { w with session := some { t with done := true } }
          | _, _ => .error .disabled
  | .logout =>
      match w.session with
      | none => .error .disabled
      | some t =>
          match t.done, t.recv2WriterMq with
          | true, [] =>
              .ok { w with
                srv := DataWriterThd.runEnd w.srv t.cur
                files := w.files.insert t.name ⟨t.method, t.fileRecipe, t.keyRecipe, t.file⟩
                session := none
                stored := w.stored ++ t.written }
          | _, _ => .error .disabled
  | .shutdown =>
      match w.session with
      | some _ => .error .disabled
      | none =>
          .ok { w with saved := ⟨w.srv.fp2AddrDb, w.srv.feature2FpDb, w.files, w.stored⟩ }
  | .crash =>
      .ok { w with
        srv := { w.srv with
          fp2AddrDb := w.saved.fp2AddrDb
          feature2FpDb := w.saved.feature2FpDb }
        files := w.saved.files
        session := none
        stored := w.saved.stored }

/-- A download of `file`, with what the buffers hold: all that `DownloadWriterThd`
writes. -/
def downloadFile (w : World) (file : StoredFile) (garbage : Container)
    (tmpPaddingChunk outputData : Bytes) : Except Exit Bytes := do
  let r ← DataDecoderThd.restoreAll cfg util w.srv file.fileRecipe
    (StorageCore.openReader cfg garbage)
  .ok (DataRetrieverThd.processAll util lib file.method tmpPaddingChunk outputData file.keyRecipe
    (r.1.map RestoreChunk.data)).flatten

end World

/-! ## What one body does to the index -/

namespace DataRecvThd

variable {cfg : Components} {srv : Server}

/-- A fingerprint that is known: nothing happens. -/
theorem processChunk_known {chunkData : Bytes} (h : cfg.generateHash chunkData ∈ srv.fp2AddrDb)
    (tmpChunk : ChunkInfo) :
    processChunk cfg srv tmpChunk chunkData = (srv, cfg.generateHash chunkData, none) := by
  have hdup := @DedupDetect.detectDuplicate_duplicate srv.fp2AddrDb
    { tmpChunk with fp := cfg.generateHash chunkData } h
  simp only [processChunk, hdup]
  rfl

/-- A new one is entered, and the body is pushed. -/
theorem processChunk_new {chunkData : Bytes} (h : cfg.generateHash chunkData ∉ srv.fp2AddrDb)
    (tmpChunk : ChunkInfo) :
    ∃ x : WrappedChunk, x.info.fp = cfg.generateHash chunkData ∧ x.data = chunkData ∧
      processChunk cfg srv tmpChunk chunkData =
        ({ srv with fp2AddrDb := srv.fp2AddrDb.insert (cfg.generateHash chunkData) tmpChunk.addr },
          cfg.generateHash chunkData, some x) := by
  have hnew := @DedupDetect.detectDuplicate_unique srv.fp2AddrDb
    { tmpChunk with fp := cfg.generateHash chunkData } h
  simp only [processChunk, hnew, if_pos]
  exact ⟨_, rfl, rfl, rfl⟩

end DataRecvThd

/-- A turn of the writer replaces one address. -/
theorem DataWriterThd.runChunk_index {cfg : Components} {util : CompressUtil} {srv srv' : Server}
    {x : WrappedChunk} {cur cur' : ClientStore}
    (h : DataWriterThd.runChunk cfg util srv x cur = .ok (srv', cur')) :
    ∃ addr, srv'.fp2AddrDb = srv.fp2AddrDb.insert x.info.fp addr := by
  simp only [runChunk] at h
  have hfp : (SimilarPolicy.findBaseChunkDb srv.feature2FpDb x.info).fp = x.info.fp := by
    have hv := SimilarPolicy.findBaseChunk_verdict srv.feature2FpDb.lookup x.info
    rw [← SimilarPolicy.findBaseChunkDb] at hv
    generalize SimilarPolicy.findBaseChunkDb srv.feature2FpDb x.info = r at hv
    cases hv <;> rfl
  split at h
  · obtain ⟨r, hr, h⟩ := bind_ok h
    cases h
    obtain ⟨base, -, hr⟩ := bind_ok hr
    obtain ⟨delta, -, hr⟩ := bind_ok hr
    cases hr
    exact ⟨_, by rw [← hfp]; rfl⟩
  · cases h
    exact ⟨_, by rw [← hfp]; rfl⟩
  · cases h

/-! ## One entry at a time -/

namespace Dictionary

/-- All that the entry of this fingerprint is restored from fits the decompressor. -/
def FitsAt (cfg : Components) (util : CompressUtil) (dict : Dictionary) (fp : Fp) : Prop :=
  ∀ e ∈ dict.entries.lookup fp,
    match e.base with
    | none => util.Fits e.data
    | some base => ∀ b ∈ dict.entries.lookup base, util.Fits b.data ∧
        ∀ delta ∈ cfg.deltaEncode b.data e.data, util.Fits delta

instance (cfg : Components) (util : CompressUtil) (dict : Dictionary) (fp : Fp) :
    Decidable (dict.FitsAt cfg util fp) :=
  have (e : Entry) : Decidable (match e.base with
      | none => util.Fits e.data
      | some base => ∀ b ∈ dict.entries.lookup base, util.Fits b.data ∧
          ∀ delta ∈ cfg.deltaEncode b.data e.data, util.Fits delta) :=
    match e.base with
    | none => inferInstanceAs (Decidable (util.Fits e.data))
    | some base => inferInstanceAs (Decidable (∀ b ∈ dict.entries.lookup base, _))
  inferInstanceAs (Decidable (∀ e ∈ dict.entries.lookup fp, _))

theorem ofChunks_concat (chunks : List WrappedChunk) (x : WrappedChunk) :
    ofChunks (chunks ++ [x]) = (ofChunks chunks).put x := by
  rw [ofChunks, List.foldl_append]
  rfl

theorem flat_ofChunks (chunks : List WrappedChunk) (h : (chunks.map (·.info.fp)).Nodup) :
    (ofChunks chunks).Flat := by
  induction chunks using List.reverseRecOn with
  | nil => exact flat_empty
  | append_singleton chunks x ih =>
      rw [List.map_append, List.nodup_append] at h
      rw [ofChunks_concat]
      refine (ih h.1).put ?_
      intro hmem
      rcases mem_foldl_put.mp hmem with hmem | hmem
      · exact h.2.2 _ hmem _ (List.mem_singleton.mpr rfl) rfl
      · exact Finmap.notMem_empty hmem

/-- More chunks leave an entry as it is. -/
theorem lookup_append {chunks more : List WrappedChunk}
    (hnd : ((chunks ++ more).map (·.info.fp)).Nodup) {fp : Fp} {e : Entry}
    (h : (ofChunks chunks).entries.lookup fp = some e) :
    (ofChunks (chunks ++ more)).entries.lookup fp = some e := by
  induction more using List.reverseRecOn with
  | nil => rw [List.append_nil]; exact h
  | append_singleton more x ih =>
      rw [← List.append_assoc, List.map_append, List.nodup_append] at hnd
      rw [← List.append_assoc, ofChunks_concat]
      refine lookup_put_of_lookup ?_ (ih hnd.1)
      intro hmem
      rcases mem_foldl_put.mp hmem with hmem | hmem
      · exact hnd.2.2 _ hmem _ (List.mem_singleton.mpr rfl) rfl
      · exact Finmap.notMem_empty hmem

theorem FitsAt.append {cfg : Components} {util : CompressUtil} {chunks more : List WrappedChunk}
    (hnd : ((chunks ++ more).map (·.info.fp)).Nodup) {fp : Fp} (hmem : fp ∈ chunks.map (·.info.fp))
    (h : (ofChunks chunks).FitsAt cfg util fp) :
    (ofChunks (chunks ++ more)).FitsAt cfg util fp := by
  have hfront : (chunks.map (·.info.fp)).Nodup := by
    rw [List.map_append] at hnd
    exact (List.nodup_append.mp hnd).1
  obtain ⟨x, hx, rfl⟩ := List.mem_map.mp hmem
  obtain ⟨base, hl⟩ := lookup_ofChunks hfront hx
  have hfits := h _ hl
  intro e he
  obtain rfl : ⟨x.data, base⟩ = e := Option.some.inj ((lookup_append hnd hl).symm.trans he)
  cases base with
  | none => exact hfits
  | some base =>
      -- the base was there before
      obtain ⟨y, hy⟩ := (flat_ofChunks chunks hfront).bases hl
      intro b hb
      obtain rfl : ⟨y, none⟩ = b := Option.some.inj ((lookup_append hnd hy).symm.trans hb)
      exact hfits _ hy

theorem mem_ofChunks {chunks : List WrappedChunk} {fp : Fp} :
    fp ∈ (ofChunks chunks).entries ↔ fp ∈ chunks.map (·.info.fp) := by
  rw [ofChunks, mem_foldl_put]
  exact or_iff_left Finmap.notMem_empty

end Dictionary

section Keep

variable {cfg : Components} {util : CompressUtil} {log log' : Content} {dict : Dictionary}
  {srv srv' : Server} {cur : ClientStore} {R R' : ContainerId → Prop}

/-- What the server holds it goes on holding, as long as no record of it is replaced. -/
theorem Refines.keep (h : Refines cfg util log dict srv R)
    (hf : srv'.feature2FpDb = srv.feature2FpDb)
    (hdb : ∀ fp ∈ dict.entries, srv'.fp2AddrDb.lookup fp = srv.fp2AddrDb.lookup fp)
    (hgrow : Grows log log') (hR : ∀ {id}, R id → R' id) : Refines cfg util log' dict srv' R' where
  features := hf.trans h.features
  records := by
    intro fp e hl
    obtain ⟨addr, ha, hs, hh⟩ := h.records hl
    refine ⟨addr, ?_, hs.mono hgrow hR, hh.mono hgrow hs.within id⟩
    rw [hdb fp (Index.mem_of_lookup hl), ha]

/-- The server without the features of a running upload. -/
def withFeatures (srv : Server) (dict : Dictionary) : Server :=
  { srv with feature2FpDb := dict.features }

/-- One chunk comes back where what it is restored from fits. -/
theorem restoreChunk_fitsAt (law : StoreLaws cfg util) {chunks : List WrappedChunk}
    (hnd : (chunks.map (·.info.fp)).Nodup) (hpos : ∀ x ∈ chunks, 1 ≤ x.data.length)
    (h : Refines cfg util log (Dictionary.ofChunks chunks) srv (· ∈ srv.storageCore.containers))
    (hst : LogOk cfg log srv.storageCore) (hc : CacheOk srv.storageCore cur.containerCache)
    {x : WrappedChunk} (hx : x ∈ chunks)
    (hfit : (Dictionary.ofChunks chunks).FitsAt cfg util x.info.fp) :
    ∃ cache, DataDecoderThd.restoreChunk cfg util srv x.info.fp cur =
        .ok (⟨.data .normalChunk, x.data⟩, { cur with containerCache := cache }) ∧
      CacheOk srv.storageCore cache := by
  have hback : ∀ {fp data}, (Dictionary.ofChunks chunks).entries.lookup fp = some ⟨data, none⟩ →
      util.Fits data → util.regained data = data := by
    intro fp data hl hfits
    obtain ⟨z, hz, -, rfl⟩ := base_mem hl
    exact CompressUtil.regained_of_fits law.roundTrip (List.ne_nil_of_length_pos (hpos z hz)) hfits
  obtain ⟨base, hl⟩ := Dictionary.lookup_ofChunks hnd hx
  have hfits := hfit _ hl
  cases base with
  | none =>
      obtain ⟨cache, hr, hcache⟩ := restoreChunk_whole h hst hc hl
      exact ⟨cache, by rw [hr, hback hl hfits], hcache⟩
  | some base =>
      obtain ⟨y, delta, cache, hy, hd, hcache, hr⟩ := restoreChunk_delta h hst hc hl
      obtain ⟨hfitsBase, hfitsDelta⟩ := hfits _ hy
      rw [hback hy hfitsBase] at hd hr
      refine ⟨cache, ?_, hcache⟩
      rw [hr, CompressUtil.regained_of_fits law.roundTrip (law.deltaNonempty _ _ _ hd)
        (hfitsDelta delta hd), law.deltaRoundTrip _ _ _ hd]
      rfl

theorem restoreAll_fitsAt (law : StoreLaws cfg util) {chunks : List WrappedChunk}
    (hnd : (chunks.map (·.info.fp)).Nodup) (hpos : ∀ x ∈ chunks, 1 ≤ x.data.length)
    (h : Refines cfg util log (Dictionary.ofChunks chunks) srv (· ∈ srv.storageCore.containers))
    (hst : LogOk cfg log srv.storageCore) {order : List WrappedChunk} :
    ∀ {cur : ClientStore}, CacheOk srv.storageCore cur.containerCache →
      (∀ x ∈ order, x ∈ chunks ∧ (Dictionary.ofChunks chunks).FitsAt cfg util x.info.fp) →
      ∃ cur', DataDecoderThd.restoreAll cfg util srv (order.map (·.info.fp)) cur =
        .ok (order.map fun x => ⟨.data .normalChunk, x.data⟩, cur') := by
  induction order with
  | nil => intro cur _ _; exact ⟨cur, rfl⟩
  | cons x order ih =>
      intro cur hc hmem
      obtain ⟨hx, hfit⟩ := hmem x List.mem_cons_self
      obtain ⟨cache, hr, hcache⟩ := restoreChunk_fitsAt law hnd hpos h hst hc hx hfit
      obtain ⟨cur', hrest⟩ := @ih { cur with containerCache := cache } hcache
        (fun y hy => hmem y (List.mem_cons_of_mem _ hy))
      refine ⟨cur', ?_⟩
      rw [List.map_cons, DataDecoderThd.restoreAll, hr, ok_bind, hrest]
      rfl

end Keep

end Baseline
end EDRStore
