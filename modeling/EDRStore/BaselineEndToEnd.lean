/-
# `EDRStore.BaselineEndToEnd` — every file of the other system comes back

What holds between two steps of any upload: the server holds the chunks that all
writers have taken so far as a dictionary (`Holding`), those of completed uploads
in saved containers, and the placeholders stand for chunks that are still in the
queue.  A recipe is a list of bodies that the retriever turns into the chunks of
its file (`Uploaded`).

So a completed file is downloaded byte for byte, also while the next upload runs,
as far as what its chunks were stored as fits the decompressor's buffer
(`files_downloaded`), and no thread of any run ends its process but where xdelta
fails (`only_xdelta_exits`).

The runs have one session at a time, and a shutdown in one step.  Two sessions that
overlap can meet a base in the open container of the other, a client that is gone
before its recipe end leaves a session that never ends, and a server that dies in
the destructors has truncated its index files: of these three nothing is said.

The index files of the last shutdown are kept on as the state of a server at rest
(`Resting`): what they name lies in containers that no later upload touches.
-/
import EDRStore.BaselineSystem

namespace EDRStore
namespace Baseline

variable {cfg : Components} {util : CompressUtil} {lib : Cipher} {ch : AbsChunker}

/-! ## Recipes -/

/-- Bodies among `held` whose hashes are the file recipe, and which the retriever turns
into `contents` under the keys of the key recipe. -/
def Uploaded (cfg : Components) (util : CompressUtil) (lib : Cipher) (method : EncType)
    (contents : List Bytes) (fps : List Fp) (keys : List Key) (held : List WrappedChunk) : Prop :=
  ∃ bodies : List Bytes, fps = bodies.map cfg.generateHash ∧ bodies.length = keys.length ∧
    (∀ b ∈ bodies, ∃ x ∈ held, x.data = b) ∧
    ∀ tmpPaddingChunk outputData,
      DataRetrieverThd.processAll util lib method tmpPaddingChunk outputData keys bodies = contents

theorem uploaded_nil (method : EncType) (held : List WrappedChunk) :
    Uploaded cfg util lib method [] [] [] held :=
  ⟨[], rfl, rfl, fun _ h => absurd h List.not_mem_nil, fun _ _ => rfl⟩

theorem Uploaded.mono {method : EncType} {contents : List Bytes} {fps : List Fp} {keys : List Key}
    {held held' : List WrappedChunk} (h : Uploaded cfg util lib method contents fps keys held)
    (hsub : ∀ x ∈ held, x ∈ held') : Uploaded cfg util lib method contents fps keys held' := by
  obtain ⟨bodies, hfps, hlen, hheld, hback⟩ := h
  refine ⟨bodies, hfps, hlen, ?_, hback⟩
  intro b hb
  obtain ⟨x, hx, hdata⟩ := hheld b hb
  exact ⟨x, hsub x hx, hdata⟩

/-- One more chunk, whose body the server has or gets. -/
theorem Uploaded.snoc {method : EncType} {contents : List Bytes} {fps : List Fp} {keys : List Key}
    {held : List WrappedChunk} (h : Uploaded cfg util lib method contents fps keys held)
    {body content : Bytes} {key : Key} (hmem : ∃ x ∈ held, x.data = body)
    (hback : ∀ tmpPaddingChunk outputData,
      DataRetrieverThd.processChunk util lib method body key tmpPaddingChunk outputData = content) :
    Uploaded cfg util lib method (contents ++ [content]) (fps ++ [cfg.generateHash body])
      (keys ++ [key]) held := by
  obtain ⟨bodies, hfps, hlen, hheld, hall⟩ := h
  refine ⟨bodies ++ [body], ?_, ?_, ?_, ?_⟩
  · rw [hfps, List.map_append]
    rfl
  · rw [List.length_append, List.length_append, hlen]
    rfl
  · intro b hb
    rcases List.mem_append.mp hb with hb | hb
    · exact hheld b hb
    · obtain rfl := List.mem_singleton.mp hb
      exact hmem
  · intro tmpPaddingChunk outputData
    have hfront := hall tmpPaddingChunk outputData
    rw [DataRetrieverThd.processAll] at hfront ⊢
    rw [List.zipWith_append hlen, hfront]
    exact congrArg (contents ++ [·]) (hback tmpPaddingChunk outputData)

/-- The chunks that a recipe names. -/
theorem Uploaded.order {method : EncType} {contents : List Bytes} {fps : List Fp} {keys : List Key}
    {held : List WrappedChunk} (h : Uploaded cfg util lib method contents fps keys held)
    (hbodies : ∀ x ∈ held, x.info.fp = cfg.generateHash x.data) :
    ∃ order : List WrappedChunk, (∀ x ∈ order, x ∈ held) ∧ fps = order.map (·.info.fp) ∧
      ∀ tmpPaddingChunk outputData, DataRetrieverThd.processAll util lib method tmpPaddingChunk
        outputData keys (order.map (·.data)) = contents := by
  obtain ⟨bodies, hfps, -, hheld, hback⟩ := h
  have horder : ∃ order : List WrappedChunk, (∀ x ∈ order, x ∈ held) ∧
      order.map (·.data) = bodies := by
    clear hfps hback
    induction bodies with
    | nil => exact ⟨[], fun _ h => absurd h List.not_mem_nil, rfl⟩
    | cons b bodies ih =>
        obtain ⟨order, hin, hmap⟩ := ih (fun b' hb' => hheld b' (List.mem_cons_of_mem _ hb'))
        obtain ⟨x, hx, hdata⟩ := hheld b List.mem_cons_self
        refine ⟨x :: order, ?_, by rw [List.map_cons, hmap, hdata]⟩
        intro y hy
        rcases List.mem_cons.mp hy with rfl | hy
        · exact hx
        · exact hin y hy
  obtain ⟨order, hin, rfl⟩ := horder
  refine ⟨order, hin, ?_, hback⟩
  rw [hfps, List.map_map]
  exact List.map_congr_left fun x hx => (hbodies x (hin x hx)).symm

/-- An address entered for a fingerprint that is in no dictionary. -/
theorem Holding.enter {log : Content} {dict : Dictionary} {srv : Server} {cur : ClientStore}
    (h : Holding cfg util log dict srv cur) {fp : Fp} (hnew : fp ∉ dict.entries)
    (addr : KeyForChunkHashDB) :
    Holding cfg util log dict { srv with fp2AddrDb := srv.fp2AddrDb.insert fp addr } cur := by
  refine ⟨h.logOk, h.openOk, h.cacheOk, h.refines.keep rfl ?_ (fun _ => List.prefix_refl _) id,
    h.flat⟩
  intro fp' hmem
  exact Finmap.lookup_insert_of_ne _ (fun heq => hnew (heq ▸ hmem))

namespace World

/-! ## The invariant -/

/-- What the writers have taken and what waits for them, of all uploads. -/
def known (w : World) : List WrappedChunk :=
  match w.session with
  | none => w.stored
  | some t => w.stored ++ t.written ++ t.recv2WriterMq

/-- A chunk that a client can send and get back. -/
structure Sendable (util : CompressUtil) (method : EncType) (x : RawPlainChunk) : Prop where
  size : x.content.length = x.size
  pos : 0 < x.size
  max : x.size ≤ maxChunkSize
  handles : Handles util method x.content

/-- The chunks sent so far, and those still to send, are the file. -/
structure Sending (cfg : Components) (util : CompressUtil) (lib : Cipher) (held : List WrappedChunk)
    (t : Upload) : Prop where
  sent : ∃ contents, Uploaded cfg util lib t.method contents t.fileRecipe t.keyRecipe held ∧
    (contents ++ t.toSend.map RawPlainChunk.content).flatten = t.file
  sendable : ∀ x ∈ t.toSend, Sendable util t.method x
  done : t.done = true → t.toSend = []

/-- A server between two uploads: every chunk taken lies in a saved container, and
there are no placeholders. -/
structure Resting (cfg : Components) (util : CompressUtil) (lib : Cipher) (log : Content)
    (srv : Server) (files : Index Fp StoredFile) (stored : List WrappedChunk) : Prop where
  refines : Refines cfg util log (Dictionary.ofChunks stored) srv (· ∈ srv.storageCore.containers)
  nodup : (stored.map (·.info.fp)).Nodup
  /-- A fingerprint is the hash of its body, and no body is empty or too long. -/
  bodies : ∀ x ∈ stored, x.info.fp = cfg.generateHash x.data ∧ 1 ≤ x.data.length ∧
    x.data.length ≤ maxChunkSize + 4
  entered : ∀ fp, fp ∈ srv.fp2AddrDb ↔ fp ∈ stored.map (·.info.fp)
  files : ∀ name file, files.lookup name = some file → ∃ contents,
    Uploaded cfg util lib file.method contents file.fileRecipe file.keyRecipe stored ∧
      contents.flatten = file.file

/-- The server as it would start now, from the index files. -/
def restarted (w : World) : Server :=
  { w.srv with fp2AddrDb := w.saved.fp2AddrDb, feature2FpDb := w.saved.feature2FpDb }

/-- Between two steps. -/
structure Inv (cfg : Components) (util : CompressUtil) (lib : Cipher) (log : Content) (w : World) :
    Prop where
  logOk : LogOk cfg log w.srv.storageCore
  /-- Completed uploads lie in saved containers. -/
  kept : Refines cfg util log (Dictionary.ofChunks w.stored)
    (withFeatures w.srv (Dictionary.ofChunks w.stored)) (· ∈ w.srv.storageCore.containers)
  nodup : (w.known.map (·.info.fp)).Nodup
  bodies : ∀ x ∈ w.known, x.info.fp = cfg.generateHash x.data ∧ 1 ≤ x.data.length ∧
    x.data.length ≤ maxChunkSize + 4
  entered : ∀ fp, fp ∈ w.srv.fp2AddrDb ↔ fp ∈ w.known.map (·.info.fp)
  idle : w.session = none → w.srv.feature2FpDb = (Dictionary.ofChunks w.stored).features
  holding : ∀ t, w.session = some t →
    Holding cfg util log (Dictionary.ofChunks (w.stored ++ t.written)) w.srv t.cur
  sending : ∀ t, w.session = some t → Sending cfg util lib w.known t
  files : ∀ name file, w.files.lookup name = some file → ∃ contents,
    Uploaded cfg util lib file.method contents file.fileRecipe file.keyRecipe w.stored ∧
      contents.flatten = file.file
  saved : Resting cfg util lib log w.restarted w.saved.files w.saved.stored

variable {log : Content} {w w' : World} {t : Upload}

theorem Inv.stored_known (w : World) : ∀ x ∈ w.stored, x ∈ w.known := by
  intro x hx
  unfold known
  split
  · exact hx
  · exact List.mem_append_left _ (List.mem_append_left _ hx)

theorem known_idle (hs : w.session = none) : w.known = w.stored := by
  unfold known
  rw [hs]

theorem lookup_of_erase {files : Index Fp StoredFile} {name name' : Fp} {file : StoredFile}
    (h : (files.erase name).lookup name' = some file) : files.lookup name' = some file := by
  rw [Index.lookup_erase_ite] at h
  split at h
  · cases h
  · exact h

/-- More containers make no difference to a server at rest. -/
theorem Resting.grow {srv srv' : Server} {log' : Content} {files files' : Index Fp StoredFile}
    {stored : List WrappedChunk} (h : Resting cfg util lib log srv files stored)
    (hdb : srv'.fp2AddrDb = srv.fp2AddrDb) (hft : srv'.feature2FpDb = srv.feature2FpDb)
    (hgrow : Grows log log') (hkeep : Keeps srv.storageCore srv'.storageCore)
    (hfiles : ∀ name file, files'.lookup name = some file → files.lookup name = some file) :
    Resting cfg util lib log' srv' files' stored where
  refines := h.refines.keep hft (fun _ _ => by rw [hdb]) hgrow (fun hid => Keeps.mem hkeep hid)
  nodup := h.nodup
  bodies := h.bodies
  entered := by rw [hdb]; exact h.entered
  files := fun name file hl => h.files name file (hfiles name file hl)

theorem resting_init : Resting cfg util lib (fun _ => []) Server.empty ∅ [] where
  refines := ⟨rfl, fun h => by simp [Dictionary.ofChunks, Dictionary.empty] at h⟩
  nodup := List.nodup_nil
  bodies := fun x h => absurd h List.not_mem_nil
  entered := fun fp => iff_of_false Finmap.notMem_empty List.not_mem_nil
  files := fun name file h => by simp at h

/-- A server at rest, without a session. -/
theorem Resting.inv {srv : Server} {files : Index Fp StoredFile} {stored : List WrappedChunk}
    {saved : Saved} (h : Resting cfg util lib log srv files stored)
    (hlog : LogOk cfg log srv.storageCore)
    (hs : Resting cfg util lib log (restarted ⟨srv, files, none, stored, saved⟩) saved.files
      saved.stored) : Inv cfg util lib log ⟨srv, files, none, stored, saved⟩ where
  logOk := hlog
  kept := h.refines.keep h.refines.features.symm (fun _ _ => rfl) (fun _ => List.prefix_refl _) id
  nodup := h.nodup
  bodies := h.bodies
  entered := h.entered
  idle := fun _ => h.refines.features
  holding := by rintro _ ⟨⟩
  sending := by rintro _ ⟨⟩
  files := h.files
  saved := hs

/-- Without a session, the server is at rest. -/
theorem Inv.resting (h : Inv cfg util lib log w) (hs : w.session = none) :
    Resting cfg util lib log w.srv w.files w.stored where
  refines := h.kept.keep (h.idle hs) (fun _ _ => rfl) (fun _ => List.prefix_refl _) id
  nodup := known_idle hs ▸ h.nodup
  bodies := known_idle hs ▸ h.bodies
  entered := known_idle hs ▸ h.entered
  files := h.files

theorem inv_init : Inv cfg util lib (fun _ => []) init := by
  refine resting_init.inv ?_ resting_init
  exact
    { saved := fun h => by simp [Server.empty, StorageCore.empty] at h
      undrawn := fun _ _ => rfl
      unsaved := fun _ _ => Finmap.notMem_empty }

/-! ## The steps -/

/-- What the chunker pushes, a client can send. -/
def LoginHandles (cfg : Components) (util : CompressUtil) (ch : AbsChunker) : Action → Prop
  | .login _ method readBuf data file =>
      ∀ r ∈ ch.run cfg (file.length + 1) readBuf data file,
        ∀ x ∈ r.1, Handles util method x.content
  | _ => True

instance (cfg : Components) (util : CompressUtil) (ch : AbsChunker) :
    ∀ a : Action, Decidable (LoginHandles cfg util ch a)
  | .login _ method readBuf data file =>
      inferInstanceAs (Decidable (∀ r ∈ ch.run cfg (file.length + 1) readBuf data file,
        ∀ x ∈ r.1, Handles util method x.content))
  | .send _ _ _ _ => inferInstanceAs (Decidable True)
  | .write => inferInstanceAs (Decidable True)
  | .recipeEnd => inferInstanceAs (Decidable True)
  | .logout => inferInstanceAs (Decidable True)
  | .shutdown => inferInstanceAs (Decidable True)
  | .crash => inferInstanceAs (Decidable True)

theorem Inv.login (hid : cfg.FreshIds) {Q : Nat → Nat → Prop} (hcuts : ch.Cuts Q)
    (hQ : ∀ {remain size}, Q remain size → size ≤ maxChunkSize) (h : Inv cfg util lib log w)
    (hs : w.session = none) (name : Fp) (method : EncType) {readBuf data file : Bytes}
    {r : List RawPlainChunk × FileRecipeHead}
    (hrun : ch.run cfg (file.length + 1) readBuf data file = some r)
    (hh : ∀ x ∈ r.1, Handles util method x.content) :
    Inv cfg util lib log (w.openSession cfg name method file r.1) := by
  obtain ⟨hlog, hopen, hcache, hconts, -, -⟩ := openClient_spec hid h.logOk
  have hsame : (w.openSession cfg name method file r.1).known = w.known := by
    rw [known_idle hs]
    show w.stored ++ [] ++ [] = w.stored
    rw [List.append_nil, List.append_nil]
  have hstored : w.stored ++ [] = w.stored := List.append_nil _
  refine
    { logOk := hlog
      kept := h.kept.keep rfl (fun fp _ => rfl) (fun _ => List.prefix_refl _)
        (fun hid => hconts.symm ▸ hid)
      nodup := hsame ▸ h.nodup
      bodies := hsame ▸ h.bodies
      entered := hsame ▸ h.entered
      idle := by rintro ⟨⟩
      holding := ?_
      sending := ?_
      files := fun name file hl => h.files name file (lookup_of_erase hl)
      saved := h.saved.grow rfl rfl (fun _ => List.prefix_refl _) (fun hl => hconts.symm ▸ hl)
        (fun _ _ hl => lookup_of_erase hl) }
  · rintro t ⟨⟩
    show Holding cfg util log (Dictionary.ofChunks (w.stored ++ [])) _ _
    rw [List.append_nil]
    refine ⟨hlog, hopen, hcache, ?_, Dictionary.flat_ofChunks _ (known_idle hs ▸ h.nodup)⟩
    exact h.kept.keep (h.idle hs) (fun fp _ => rfl) (fun _ => List.prefix_refl _)
      (fun hid => Or.inl (hconts.symm ▸ hid))
  · rintro t ⟨⟩
    obtain ⟨loads, r', hall, hpart, hcs⟩ := AbsChunker.run_partitions hcuts cfg readBuf data file
    obtain rfl : r' = r := Option.some.inj ((hall _ (Nat.lt_succ_self _)).symm.trans hrun)
    refine ⟨⟨[], uploaded_nil _ _, ?_⟩, ?_, by rintro ⟨⟩⟩
    · rw [List.nil_append, hpart.chunks, hpart.concat]
    · intro x hx
      have hsize := hpart.sizes x hx
      have hmem : x.content ∈ loads.flatten := hpart.chunks ▸ List.mem_map_of_mem hx
      obtain ⟨load, hload, hin⟩ := List.mem_flatten.mp hmem
      obtain ⟨remain, hQx⟩ := (hcs load hload).mem hin
      refine ⟨hsize.symm, ?_, hsize ▸ hQ hQx, hh x hx⟩
      rw [hsize]
      exact List.length_pos_of_ne_nil (hpart.nonempty _ hmem)

/-- A body that the server knows comes with the chunk it is known for. -/
theorem Inv.mem_known (hinj : cfg.HashInjective) (h : Inv cfg util lib log w) {body : Bytes}
    (hk : cfg.generateHash body ∈ w.srv.fp2AddrDb) : ∃ x ∈ w.known, x.data = body := by
  obtain ⟨x, hx, hfp⟩ := List.mem_map.mp ((h.entered _).mp hk)
  exact ⟨x, hx, hinj ((h.bodies x hx).1.symm.trans hfp)⟩

/-- The recipes grow by one chunk that is known now. -/
theorem Sending.snoc (law : ClientLaws util lib) {held held' : List WrappedChunk}
    (h : Sending cfg util lib held t) {x : RawPlainChunk} {rest : List RawPlainChunk}
    (hto : t.toSend = x :: rest) (seed : Nat) (draws : Nat → Nat) (buf : Bytes)
    (hsub : ∀ y ∈ held, y ∈ held')
    (hmem : ∃ y ∈ held', y.data = (sendItem cfg util lib t.method x seed draws buf).data)
    (queue : List WrappedChunk) :
    let item := sendItem cfg util lib t.method x seed draws buf
    Sending cfg util lib held' { t with
      toSend := rest
      keyRecipe := t.keyRecipe ++ [item.key]
      fileRecipe := t.fileRecipe ++ [cfg.generateHash item.data]
      recv2WriterMq := queue } := by
  intro item
  have hx := h.sendable x (hto ▸ List.mem_cons_self)
  obtain ⟨contents, hup, hfile⟩ := h.sent
  refine ⟨⟨contents ++ [x.content], (hup.mono hsub).snoc hmem ?_, ?_⟩, ?_, ?_⟩
  · exact @processChunk_sendItem cfg util lib t.method x law hx.size hx.pos hx.max hx.handles seed
      draws buf
  · rw [List.append_assoc]
    rw [hto, List.map_cons] at hfile
    exact hfile
  · exact fun y hy => h.sendable y (hto ▸ List.mem_cons_of_mem _ hy)
  · exact fun hd => absurd (h.done hd) (hto ▸ List.cons_ne_nil _ _)

theorem Inv.send (law : ClientLaws util lib) (hinj : cfg.HashInjective)
    (h : Inv cfg util lib log w) (hs : w.session = some t) {x : RawPlainChunk}
    {rest : List RawPlainChunk} (hto : t.toSend = x :: rest) (seed : Nat) (draws : Nat → Nat)
    (buf : Bytes) (tmpChunk : ChunkInfo) :
    let item := sendItem cfg util lib t.method x seed draws buf
    let r := DataRecvThd.processChunk cfg w.srv tmpChunk item.data
    Inv cfg util lib log { w with
      srv := r.1
      session := some { t with
        toSend := rest
        keyRecipe := t.keyRecipe ++ [item.key]
        fileRecipe := t.fileRecipe ++ [r.2.1]
        recv2WriterMq := t.recv2WriterMq ++ r.2.2.toList } } := by
  intro item r
  obtain ⟨srv, files, session, stored, saved⟩ := w
  obtain rfl : session = some t := hs
  by_cases hk : cfg.generateHash item.data ∈ srv.fp2AddrDb
  · -- a duplicate: only the recipes grow
    have hr : r = (srv, cfg.generateHash item.data, none) := DataRecvThd.processChunk_known hk _
    have hsend := (h.sending t rfl).snoc law hto seed draws buf (fun _ hy => hy)
      (h.mem_known hinj hk) t.recv2WriterMq
    rw [hr]
    simp only [Option.toList_none, List.append_nil]
    exact
      { logOk := h.logOk
        kept := h.kept
        nodup := h.nodup
        bodies := h.bodies
        entered := h.entered
        idle := by rintro ⟨⟩
        holding := by rintro _ ⟨⟩; exact h.holding t rfl
        sending := by rintro _ ⟨⟩; exact hsend
        files := h.files
        saved := h.saved }
  · -- a new body: it is entered and pushed
    obtain ⟨y, hfp, hdata, hr⟩ := @DataRecvThd.processChunk_new cfg srv item.data hk tmpChunk
    have hr : r = _ := hr
    have hx := (h.sending t rfl).sendable x (hto ▸ List.mem_cons_self)
    have hlen := @length_sendItem cfg util lib t.method x law.ctrSizes law.fitsCapacity hx.size
      hx.pos hx.max seed draws buf
    have hnew : y.info.fp ∉ (stored ++ t.written ++ t.recv2WriterMq).map (·.info.fp) := fun hm =>
      hk (hfp ▸ (h.entered _).mpr hm)
    have hsend := (h.sending t rfl).snoc law hto seed draws buf
      (fun z hz => List.mem_append_left [y] hz)
      ⟨y, List.mem_append_right _ List.mem_cons_self, hdata⟩ (t.recv2WriterMq ++ [y])
    have hout : ∀ chunks : List WrappedChunk, (∀ z ∈ chunks,
        z ∈ stored ++ t.written ++ t.recv2WriterMq) →
        cfg.generateHash item.data ∉ (Dictionary.ofChunks chunks).entries := by
      intro chunks hsub hm
      obtain ⟨z, hz, hzfp⟩ := List.mem_map.mp (Dictionary.mem_ofChunks.mp hm)
      exact hnew (hfp ▸ hzfp ▸ List.mem_map_of_mem (hsub z hz))
    rw [hr]
    simp only [Option.toList_some]
    have hassoc : stored ++ t.written ++ (t.recv2WriterMq ++ [y]) =
        stored ++ t.written ++ t.recv2WriterMq ++ [y] := (List.append_assoc _ _ _).symm
    refine
      { logOk := h.logOk
        kept := h.kept.keep rfl ?_ (fun _ => List.prefix_refl _) id
        nodup := ?_
        bodies := ?_
        entered := ?_
        idle := by rintro ⟨⟩
        holding := ?_
        sending := ?_
        files := h.files
        saved := h.saved }
    · intro fp hm
      refine Finmap.lookup_insert_of_ne _ ?_
      rintro rfl
      exact hout stored (fun z hz => List.mem_append_left _ (List.mem_append_left _ hz)) hm
    · show ((stored ++ t.written ++ (t.recv2WriterMq ++ [y])).map _).Nodup
      rw [hassoc, List.map_append, List.nodup_append]
      refine ⟨h.nodup, List.nodup_singleton _, ?_⟩
      rintro fp hm _ hy rfl
      obtain rfl := List.mem_singleton.mp hy
      exact hnew hm
    · show ∀ z ∈ stored ++ t.written ++ (t.recv2WriterMq ++ [y]), _
      rw [hassoc]
      intro z hz
      rcases List.mem_append.mp hz with hz | hz
      · exact h.bodies z hz
      · obtain rfl := List.mem_singleton.mp hz
        rw [hfp, hdata]
        exact ⟨rfl, hlen⟩
    · intro fp
      show fp ∈ srv.fp2AddrDb.insert _ _ ↔
        fp ∈ (stored ++ t.written ++ (t.recv2WriterMq ++ [y])).map (·.info.fp)
      rw [hassoc, List.map_append, List.mem_append, List.map_singleton, List.mem_singleton,
        Finmap.mem_insert, h.entered fp, hfp]
      exact or_comm
    · rintro _ ⟨⟩
      exact (h.holding t rfl).enter (hout _ fun z hz => List.mem_append_left _ hz) _
    · rintro _ ⟨⟩
      show Sending cfg util lib (stored ++ t.written ++ (t.recv2WriterMq ++ [y])) _
      rw [hassoc]
      exact hsend

/-- The writer takes the first body of the queue, and may end the process only where
xdelta fails. -/
theorem Inv.write (law : StoreLaws cfg util) (h : Inv cfg util lib log w)
    (hs : w.session = some t) {x : WrappedChunk} {rest : List WrappedChunk}
    (hq : t.recv2WriterMq = x :: rest) :
    DataWriterThd.runChunk cfg util w.srv x t.cur = .error .deltaEncode ∨
      ∃ log' srv' cur', DataWriterThd.runChunk cfg util w.srv x t.cur = .ok (srv', cur') ∧
        Inv cfg util lib log' { w with
          srv := srv'
          session := some { t with
            cur := cur'
            recv2WriterMq := rest
            written := t.written ++ [x] } } := by
  obtain ⟨srv, files, session, stored, saved⟩ := w
  obtain rfl : session = some t := hs
  have hknown : stored ++ t.written ++ t.recv2WriterMq = stored ++ (t.written ++ [x]) ++ rest := by
    rw [hq]
    simp
  have hnodup : ((stored ++ (t.written ++ [x]) ++ rest).map (·.info.fp)).Nodup := hknown ▸ h.nodup
  have hmem : x ∈ stored ++ t.written ++ t.recv2WriterMq :=
    List.mem_append_right _ (hq ▸ List.mem_cons_self)
  have hnew : x.info.fp ∉ (stored ++ t.written).map (·.info.fp) := by
    rw [List.map_append, ← List.append_assoc, List.map_append, List.nodup_append] at hnodup
    intro hm
    exact (List.nodup_append.mp hnodup.1).2.2 _ hm _ (List.mem_singleton.mpr rfl) rfl
  obtain ⟨-, hpos, hmax⟩ := h.bodies x hmem
  have hhold := h.holding t rfl
  rcases runChunk_refines law hhold.refines hhold.flat hhold.logOk hhold.openOk hhold.cacheOk
    (fun hm => hnew (Dictionary.mem_ofChunks.mp hm)) hpos hmax with
    ⟨hstop, -⟩ | ⟨log', srv', cur', hok, hev, href⟩
  · exact Or.inl hstop
  · obtain ⟨addr, hdb⟩ := DataWriterThd.runChunk_index hok
    refine Or.inr ⟨log', srv', cur', hok,
      { logOk := hev.logOk
        kept := h.kept.keep rfl ?_ hev.grows (fun hid => Keeps.mem hev.keeps hid)
        nodup := hnodup
        bodies := ?_
        entered := ?_
        idle := by rintro ⟨⟩
        holding := ?_
        sending := ?_
        files := h.files
        saved := h.saved.grow rfl rfl hev.grows hev.keeps (fun _ _ hl => hl) }⟩
    · intro fp hm
      show srv'.fp2AddrDb.lookup fp = srv.fp2AddrDb.lookup fp
      rw [hdb]
      refine Finmap.lookup_insert_of_ne _ ?_
      rintro rfl
      rw [List.map_append] at hnew
      exact hnew (List.mem_append_left _ (Dictionary.mem_ofChunks.mp hm))
    · show ∀ z ∈ stored ++ (t.written ++ [x]) ++ rest, _
      rw [← hknown]
      exact h.bodies
    · intro fp
      show fp ∈ srv'.fp2AddrDb ↔ fp ∈ (stored ++ (t.written ++ [x]) ++ rest).map (·.info.fp)
      rw [← hknown, hdb, Finmap.mem_insert, h.entered fp]
      exact or_iff_right_of_imp (fun heq => heq ▸ List.mem_map_of_mem hmem)
    · rintro _ ⟨⟩
      show Holding cfg util log' (Dictionary.ofChunks (stored ++ (t.written ++ [x]))) srv' cur'
      rw [← List.append_assoc, Dictionary.ofChunks_concat]
      exact ⟨hev.logOk, hev.openOk, hev.cacheOk, href,
        hhold.flat.put (fun hm => hnew (Dictionary.mem_ofChunks.mp hm))⟩
    · rintro _ ⟨⟩
      show Sending cfg util lib (stored ++ (t.written ++ [x]) ++ rest) _
      rw [← hknown]
      have hsend := h.sending t rfl
      exact ⟨hsend.sent, hsend.sendable, hsend.done⟩

theorem Inv.recipeEnd (h : Inv cfg util lib log w) (hs : w.session = some t)
    (hto : t.toSend = []) :
    Inv cfg util lib log { w with session := some { t with done := true } } := by
  obtain ⟨srv, files, session, stored, saved⟩ := w
  obtain rfl : session = some t := hs
  have hsend := h.sending t rfl
  exact
    { logOk := h.logOk
      kept := h.kept
      nodup := h.nodup
      bodies := h.bodies
      entered := h.entered
      idle := by rintro ⟨⟩
      holding := by rintro _ ⟨⟩; exact h.holding t rfl
      sending := by rintro _ ⟨⟩; exact ⟨hsend.sent, hsend.sendable, fun _ => hto⟩
      files := h.files
      saved := h.saved }

/-- The tail container is saved, and the file is complete. -/
theorem Inv.logout (h : Inv cfg util lib log w) (hs : w.session = some t) (hd : t.done = true)
    (hq : t.recv2WriterMq = []) :
    Inv cfg util lib log { w with
      srv := DataWriterThd.runEnd w.srv t.cur
      files := w.files.insert t.name ⟨t.method, t.fileRecipe, t.keyRecipe, t.file⟩
      session := none
      stored := w.stored ++ t.written } := by
  obtain ⟨srv, files, session, stored, saved⟩ := w
  obtain rfl : session = some t := hs
  have hknown : stored ++ t.written ++ t.recv2WriterMq = stored ++ t.written := by
    rw [hq, List.append_nil]
  have hhold := h.holding t rfl
  obtain ⟨hlog, href⟩ := hhold.runEnd
  obtain ⟨-, hkeep, -⟩ := saveTail_spec hhold.logOk hhold.openOk
  have hsend := h.sending t rfl
  obtain ⟨contents, hup, hfile⟩ := hsend.sent
  rw [hsend.done hd, List.map_nil, List.append_nil] at hfile
  refine Resting.inv
    { refines := href
      nodup := hknown ▸ h.nodup
      bodies := hknown ▸ h.bodies
      entered := hknown ▸ h.entered
      files := ?_ } hlog
    (h.saved.grow rfl rfl (fun _ => List.prefix_refl _) hkeep (fun _ _ hl => hl))
  intro name file hl
  rw [Index.lookup_insert_ite] at hl
  split at hl
  · cases hl
    exact ⟨contents, hup.mono (fun x hx => hknown ▸ hx), hfile⟩
  · obtain ⟨contents', hup', hfile'⟩ := h.files name file hl
    exact ⟨contents', hup'.mono (fun x hx => List.mem_append_left _ hx), hfile'⟩

/-- The index files are what the server holds. -/
theorem Inv.shutdown (h : Inv cfg util lib log w) (hs : w.session = none) :
    Inv cfg util lib log { w with
      saved := ⟨w.srv.fp2AddrDb, w.srv.feature2FpDb, w.files, w.stored⟩ } := by
  have hrest := h.resting hs
  obtain ⟨srv, files, session, stored, saved⟩ := w
  obtain rfl : session = none := hs
  exact hrest.inv h.logOk hrest

/-- The server is at rest again, as it was at its last shutdown. -/
theorem Inv.crash (h : Inv cfg util lib log w) :
    Inv cfg util lib log { w with
      srv := w.restarted
      files := w.saved.files
      session := none
      stored := w.saved.stored } :=
  h.saved.inv h.logOk h.saved

/-- What the threads and the clients are built on. -/
structure Laws (cfg : Components) (util : CompressUtil) (lib : Cipher) (ch : AbsChunker) : Prop
    where
  store : StoreLaws cfg util
  client : ClientLaws util lib
  hash : cfg.HashInjective
  cuts : ∃ Q : Nat → Nat → Prop, ch.Cuts Q ∧ ∀ {remain size}, Q remain size → size ≤ maxChunkSize

/-- A step keeps the invariant, or xdelta fails in it. -/
theorem Inv.step (law : Laws cfg util lib ch) (h : Inv cfg util lib log w) {a : Action}
    (hh : LoginHandles cfg util ch a) :
    (∀ s, step cfg util lib ch w a = .error s → s = .disabled ∨ s = .exit .deltaEncode) ∧
      ∀ w', step cfg util lib ch w a = .ok w' → ∃ log', Inv cfg util lib log' w' := by
  cases a with
  | login name method readBuf data file =>
      simp only [World.step]
      split
      · rename_i r hs hrun
        refine ⟨by rintro s ⟨⟩, ?_⟩
        rintro w' ⟨⟩
        obtain ⟨Q, hcuts, hQ⟩ := law.cuts
        exact ⟨log, h.login law.store.freshIds hcuts hQ hs name method hrun (hh r hrun)⟩
      · exact ⟨by rintro s ⟨⟩; exact Or.inl rfl, by rintro w' ⟨⟩⟩
  | send seed draws buf tmpChunk =>
      simp only [World.step]
      split
      · exact ⟨by rintro s ⟨⟩; exact Or.inl rfl, by rintro w' ⟨⟩⟩
      · rename_i t hs
        split
        · exact ⟨by rintro s ⟨⟩; exact Or.inl rfl, by rintro w' ⟨⟩⟩
        · rename_i x rest hto
          refine ⟨by rintro s ⟨⟩, ?_⟩
          rintro w' ⟨⟩
          exact ⟨log, h.send law.client law.hash hs hto seed draws buf tmpChunk⟩
  | write =>
      simp only [World.step]
      split
      · exact ⟨by rintro s ⟨⟩; exact Or.inl rfl, by rintro w' ⟨⟩⟩
      · rename_i t hs
        split
        · exact ⟨by rintro s ⟨⟩; exact Or.inl rfl, by rintro w' ⟨⟩⟩
        · rename_i x rest hq
          rcases h.write law.store hs hq with hstop | ⟨log', srv', cur', hok, hinv⟩
          · rw [hstop]
            exact ⟨by rintro s ⟨⟩; exact Or.inr rfl, by rintro w' ⟨⟩⟩
          · rw [hok]
            refine ⟨by rintro s ⟨⟩, ?_⟩
            rintro w' ⟨⟩
            exact ⟨log', hinv⟩
  | recipeEnd =>
      simp only [World.step]
      split
      · exact ⟨by rintro s ⟨⟩; exact Or.inl rfl, by rintro w' ⟨⟩⟩
      · rename_i t hs
        split
        · rename_i hto hd
          refine ⟨by rintro s ⟨⟩, ?_⟩
          rintro w' ⟨⟩
          exact ⟨log, h.recipeEnd hs hto⟩
        · exact ⟨by rintro s ⟨⟩; exact Or.inl rfl, by rintro w' ⟨⟩⟩
  | logout =>
      simp only [World.step]
      split
      · exact ⟨by rintro s ⟨⟩; exact Or.inl rfl, by rintro w' ⟨⟩⟩
      · rename_i t hs
        split
        · rename_i hd hq
          refine ⟨by rintro s ⟨⟩, ?_⟩
          rintro w' ⟨⟩
          exact ⟨log, h.logout hs hd hq⟩
        · exact ⟨by rintro s ⟨⟩; exact Or.inl rfl, by rintro w' ⟨⟩⟩
  | shutdown =>
      simp only [World.step]
      split
      · exact ⟨by rintro s ⟨⟩; exact Or.inl rfl, by rintro w' ⟨⟩⟩
      · rename_i hs
        refine ⟨by rintro s ⟨⟩, ?_⟩
        rintro w' ⟨⟩
        exact ⟨log, h.shutdown hs⟩
  | crash =>
      refine ⟨by rintro s ⟨⟩, ?_⟩
      rintro w' ⟨⟩
      exact ⟨log, h.crash⟩

/-- The invariant along a run. -/
theorem inv_reach (law : Laws cfg util lib ch)
    (h : Reach (step cfg util lib ch) (fun _ a => LoginHandles cfg util ch a) init w) :
    ∃ log, Inv cfg util lib log w :=
  h.inv (fun w => ∃ log, Inv cfg util lib log w) ⟨_, inv_init⟩
    fun _ _ _ ⟨_, hinv⟩ hh hstep => (hinv.step law hh).2 _ hstep

/-! ### A run -/

/-- The chunker of the runs below cuts off three bytes at a time. -/
theorem fixed_cuts : ∃ Q : Nat → Nat → Prop,
    (FixChunker.chunker ChunkerFPThd.smallConfig).Cuts Q ∧
      ∀ {remain size}, Q remain size → size ≤ maxChunkSize := by
  refine ⟨_, FixChunker.cuts ChunkerFPThd.smallConfig_valid (by decide), ?_⟩
  intro remain size h
  rw [h]
  exact (Nat.min_le_left _ _).trans (by decide)

theorem sample_laws : Laws sample sampleUtil Cipher.sample
    (FixChunker.chunker ChunkerFPThd.smallConfig) where
  store := sample_storeLaws
  client :=
    { decrypts := Cipher.sample_roundTrip
      ctrSizes := Cipher.sample_ctrSizes
      fitsCapacity := sample_storeLaws.fitsCapacity
      roundTrip := sample_storeLaws.roundTrip }
  hash := Components.plain_hashInjective
  cuts := fixed_cuts

/-- What `tmp_chunk` holds. -/
def uninitInfo : ChunkInfo := ⟨[], ⟨0, 0, 0⟩, ⟨.uniqueChunk, [], 0, 0, []⟩, .uniqueChunk⟩

def sendOne : Action := .send 0 (fun _ => 0) [] uninitInfo

/-- A file of three chunks, the second the same as the first and the third similar to
it; the server is shut down, dies in the next upload, and is then uploading again. -/
def schedule : List Action :=
  [.login [1] .encCompMle [] [] [5, 6, 7, 5, 6, 7, 8, 7], sendOne, sendOne, .write, sendOne, .recipeEnd,
    .write, .logout, .shutdown, .login [2] .plain [] [] [9, 9], sendOne, .write, .crash,
    .login [3] .serverAidedMle [] [] [5, 6, 8], sendOne]

def midUpload : World :=
  endOf (step sample sampleUtil Cipher.sample (FixChunker.chunker ChunkerFPThd.smallConfig)) init
    schedule

theorem midUpload_reach :
    Reach (step sample sampleUtil Cipher.sample (FixChunker.chunker ChunkerFPThd.smallConfig))
      (fun _ a => LoginHandles sample sampleUtil (FixChunker.chunker ChunkerFPThd.smallConfig) a)
      init midUpload :=
  endOf_reach (by decide +kernel) (by decide +kernel)

/-! ## Downloads -/

/-- A reader sees nothing of the features. -/
theorem restoreAll_withFeatures (srv : Server) (dict : Dictionary) (fps : List Fp) :
    ∀ cur : ClientStore, DataDecoderThd.restoreAll cfg util (withFeatures srv dict) fps cur =
      DataDecoderThd.restoreAll cfg util srv fps cur := by
  induction fps with
  | nil => exact fun _ => rfl
  | cons fp fps ih =>
      intro cur
      show (DataDecoderThd.restoreChunk cfg util srv fp cur >>= fun r =>
        DataDecoderThd.restoreAll cfg util (withFeatures srv dict) fps r.2 >>= fun rs =>
          .ok (r.1 :: rs.1, rs.2)) = _
      simp only [ih]
      rfl

/-- What a download of a completed file reads. -/
structure Readout (util : CompressUtil) (lib : Cipher) (w : World) (file : StoredFile)
    (order : List WrappedChunk) : Prop where
  mem : ∀ x ∈ order, x ∈ w.stored
  fps : file.fileRecipe = order.map (·.info.fp)
  nodup : (w.stored.map (·.info.fp)).Nodup
  pos : ∀ x ∈ w.stored, 1 ≤ x.data.length
  back : ∀ tmpPaddingChunk outputData, (DataRetrieverThd.processAll util lib file.method
    tmpPaddingChunk outputData file.keyRecipe (order.map (·.data))).flatten = file.file

theorem Inv.readout (h : Inv cfg util lib log w) {name : Fp} {file : StoredFile}
    (hf : w.files.lookup name = some file) : ∃ order, Readout util lib w file order := by
  obtain ⟨contents, hup, hfile⟩ := h.files name file hf
  have hsub := stored_known w
  have hnd : (w.stored.map (·.info.fp)).Nodup := by
    have hnodup := h.nodup
    unfold known at hnodup
    split at hnodup
    · exact hnodup
    · rw [List.append_assoc, List.map_append] at hnodup
      exact (List.nodup_append.mp hnodup).1
  obtain ⟨order, hin, hfps, hback⟩ := hup.order fun x hx => (h.bodies x (hsub x hx)).1
  refine ⟨order, hin, hfps, hnd, fun x hx => (h.bodies x (hsub x hx)).2.1, ?_⟩
  intro tmpPaddingChunk outputData
  exact (congrArg List.flatten (hback tmpPaddingChunk outputData)).trans hfile

theorem Inv.downloads (law : StoreLaws cfg util) (h : Inv cfg util lib log w) {file : StoredFile}
    {order : List WrappedChunk} (hread : Readout util lib w file order)
    (hfit : ∀ fp ∈ file.fileRecipe, (Dictionary.ofChunks w.stored).FitsAt cfg util fp)
    (garbage : Container) (tmpPaddingChunk outputData : Bytes) :
    w.downloadFile cfg util lib file garbage tmpPaddingChunk outputData = .ok file.file := by
  have hcache : CacheOk w.srv.storageCore (StorageCore.openReader cfg garbage).containerCache :=
    cacheOk_new cfg _
  obtain ⟨cur', hall⟩ := restoreAll_fitsAt law hread.nodup hread.pos h.kept h.logOk hcache
    (fun x hx => ⟨hread.mem x hx, hfit _ (hread.fps ▸ List.mem_map_of_mem hx)⟩)
  rw [restoreAll_withFeatures, ← hread.fps] at hall
  rw [downloadFile, hall, ok_bind, List.map_map]
  exact congrArg Except.ok (hread.back tmpPaddingChunk outputData)

/-- With one session at a time, a completed file is downloaded byte for byte, also while
an upload runs, as long as what its chunks are stored as fits the decompressor's buffer
(`FitsAt`) and no chunk that is compressed first looks like a frame (`LoginHandles`). -/
theorem files_downloaded (law : Laws cfg util lib ch)
    (h : Reach (step cfg util lib ch) (fun _ a => LoginHandles cfg util ch a) init w) {name : Fp}
    {file : StoredFile} (hf : w.files.lookup name = some file)
    (hfit : ∀ fp ∈ file.fileRecipe, (Dictionary.ofChunks w.stored).FitsAt cfg util fp)
    (garbage : Container) (tmpPaddingChunk outputData : Bytes) :
    w.downloadFile cfg util lib file garbage tmpPaddingChunk outputData = .ok file.file := by
  obtain ⟨log, hinv⟩ := inv_reach law h
  obtain ⟨order, hread⟩ := hinv.readout hf
  exact hinv.downloads law.store hread hfit garbage tmpPaddingChunk outputData

/-- The first file of the run, while the third is sent. -/
theorem files_downloaded_midUpload :
    ∃ file, midUpload.files.lookup [1] = some file ∧
      midUpload.downloadFile sample sampleUtil Cipher.sample file ⟨[], []⟩ [] [] =
        .ok [5, 6, 7, 5, 6, 7, 8, 7] := by
  obtain ⟨file, hf⟩ : ∃ file, midUpload.files.lookup [1] = some file :=
    Option.isSome_iff_exists.mp (by decide +kernel)
  have hfile : (midUpload.files.lookup [1]).map (·.file) = some [5, 6, 7, 5, 6, 7, 8, 7] := by
    decide +kernel
  have hfit : ∀ file ∈ midUpload.files.lookup [1], ∀ fp ∈ file.fileRecipe,
      (Dictionary.ofChunks midUpload.stored).FitsAt sample sampleUtil fp := by
    decide +kernel
  have hdown := files_downloaded sample_laws midUpload_reach hf (hfit file hf) ⟨[], []⟩ [] []
  rw [hf, Option.map_some, Option.some.injEq] at hfile
  exact ⟨file, hf, hdown.trans (congrArg Except.ok hfile)⟩

-- the third chunk of the file is stored as a delta against the first
example : midUpload.stored.map (fun x =>
    ((Dictionary.ofChunks midUpload.stored).entries.lookup x.info.fp).map (·.base.isSome)) =
      [some false, some true] := by
  decide +kernel

/-! ## Since the last shutdown -/

/-- The files of the last shutdown are still files, but for one that is uploaded anew. -/
structure Since (w : World) : Prop where
  files : ∀ name file, w.saved.files.lookup name = some file → w.files.lookup name = some file
  begun : ∀ t, w.session = some t → w.saved.files.lookup t.name = none
  stored : ∃ more, w.stored = w.saved.stored ++ more

theorem since_init : Since init where
  files := fun _ _ h => h
  begun := by rintro t ⟨⟩
  stored := ⟨[], rfl⟩

theorem Since.step (h : Since w) {a : Action} (hstep : step cfg util lib ch w a = .ok w') :
    Since w' := by
  cases a with
  | login name method readBuf data file =>
      simp only [World.step] at hstep
      split at hstep
      · cases hstep
        refine ⟨?_, ?_, h.stored⟩
        · intro name' file' hl
          show (w.files.erase name).lookup name' = some file'
          rw [openSession, Index.lookup_erase_ite] at hl
          rw [Index.lookup_erase_ite]
          split at hl
          · cases hl
          · rename_i hne
            rw [if_neg hne]
            exact h.files name' file' hl
        · rintro t ⟨⟩
          exact Finmap.lookup_erase _ _
      · cases hstep
  | send seed draws buf tmpChunk =>
      simp only [World.step] at hstep
      split at hstep
      · cases hstep
      · rename_i t hs
        split at hstep
        · cases hstep
        · cases hstep
          exact ⟨h.files, by rintro _ ⟨⟩; exact h.begun t hs, h.stored⟩
  | write =>
      simp only [World.step] at hstep
      split at hstep
      · cases hstep
      · rename_i t hs
        split at hstep
        · cases hstep
        · obtain ⟨r, -, hstep⟩ := bind_ok hstep
          cases hstep
          exact ⟨h.files, by rintro _ ⟨⟩; exact h.begun t hs, h.stored⟩
  | recipeEnd =>
      simp only [World.step] at hstep
      split at hstep
      · cases hstep
      · rename_i t hs
        split at hstep
        · cases hstep
          exact ⟨h.files, by rintro _ ⟨⟩; exact h.begun t hs, h.stored⟩
        · cases hstep
  | logout =>
      simp only [World.step] at hstep
      split at hstep
      · cases hstep
      · rename_i t hs
        split at hstep
        · cases hstep
          obtain ⟨more, hmore⟩ := h.stored
          refine ⟨?_, by rintro _ ⟨⟩, more ++ t.written, by rw [← List.append_assoc, ← hmore]⟩
          intro name file hl
          have hne : name ≠ t.name := by
            rintro rfl
            cases (h.begun t hs).symm.trans hl
          show (w.files.insert t.name _).lookup name = some file
          rw [Finmap.lookup_insert_of_ne _ hne]
          exact h.files name file hl
        · cases hstep
  | shutdown =>
      simp only [World.step] at hstep
      split at hstep
      · cases hstep
      · rename_i hs
        cases hstep
        exact ⟨fun _ _ hl => hl, (fun t ht => by cases hs.symm.trans ht), [], (List.append_nil _).symm⟩
  | crash =>
      cases hstep
      exact ⟨fun _ _ hl => hl, (by rintro _ ⟨⟩), [], (List.append_nil _).symm⟩

/-- A file that was complete when the server was last shut down, to the end of its
destructors, comes back ever after, whatever is uploaded in one session after the other
and however often the server dies outside of a shutdown, until its name is uploaded
again: under `FitsAt` and `LoginHandles`, as above. -/
theorem saved_files_downloaded (law : Laws cfg util lib ch)
    (h : Reach (step cfg util lib ch) (fun _ a => LoginHandles cfg util ch a) init w) {name : Fp}
    {file : StoredFile} (hf : w.saved.files.lookup name = some file)
    (hfit : ∀ fp ∈ file.fileRecipe, (Dictionary.ofChunks w.saved.stored).FitsAt cfg util fp)
    (garbage : Container) (tmpPaddingChunk outputData : Bytes) :
    w.downloadFile cfg util lib file garbage tmpPaddingChunk outputData = .ok file.file := by
  obtain ⟨log, hinv⟩ := inv_reach law h
  have hsince : Since w := h.inv Since since_init fun _ _ _ hi _ hstep => hi.step hstep
  obtain ⟨more, hmore⟩ := hsince.stored
  obtain ⟨order, hread⟩ := hinv.readout (hsince.files name file hf)
  have hnd := hread.nodup
  rw [hmore] at hnd
  obtain ⟨contents, hup, -⟩ := hinv.saved.files name file hf
  obtain ⟨order', hin, hfps, -⟩ := hup.order fun x hx => (hinv.saved.bodies x hx).1
  have hfit' : ∀ fp ∈ file.fileRecipe, (Dictionary.ofChunks w.stored).FitsAt cfg util fp := by
    intro fp hfp
    have hmem := hfp
    rw [hfps] at hmem
    obtain ⟨x, hx, rfl⟩ := List.mem_map.mp hmem
    rw [hmore]
    exact (hfit _ hfp).append hnd (List.mem_map_of_mem (hin x hx))
  exact hinv.downloads law.store hread hfit' garbage tmpPaddingChunk outputData

theorem saved_files_downloaded_midUpload :
    ∃ file, midUpload.saved.files.lookup [1] = some file ∧
      midUpload.downloadFile sample sampleUtil Cipher.sample file ⟨[], []⟩ [] [] =
        .ok file.file := by
  obtain ⟨file, hf⟩ : ∃ file, midUpload.saved.files.lookup [1] = some file :=
    Option.isSome_iff_exists.mp (by decide +kernel)
  have hfit : ∀ file ∈ midUpload.saved.files.lookup [1], ∀ fp ∈ file.fileRecipe,
      (Dictionary.ofChunks midUpload.saved.stored).FitsAt sample sampleUtil fp := by
    decide +kernel
  exact ⟨file, hf,
    saved_files_downloaded sample_laws midUpload_reach hf (hfit file hf) ⟨[], []⟩ [] []⟩

end World
end Baseline
end EDRStore
