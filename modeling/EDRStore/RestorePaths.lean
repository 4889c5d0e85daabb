/-
# `EDRStore.RestorePaths` — the two ways back from a cached base

The same record restored twice: while its base is in the reader's inform cache,
and after the base was evicted.  The first needs the base's ciphertext, which
the cache has; the second makes it again on the client from the base's own
record, under the key recorded for the chunk.  Nothing in the cache or in the
records names the key the base was given, so the ways agree when it is the same
key, and need not when it is another.
-/
import EDRStore.EndToEnd

namespace EDRStore

namespace World

variable {cfg : Components} {U : PlainChunk → Prop} {log : Content} {w w' : World}

/-- One chunk restored for the client id `c`: the entries it is sent as, and the
plaintext they give. -/
def retrieveChunk (cfg : Components) (w : World) (c : ClientId) (z : PlainChunk)
    (garbage : Container) : Except Exit (List SendType × Bytes) := do
  let r ← DataDecoderThd.restoreChunk cfg w.srv (InformCache.loadCntIdx (w.informFiles c))
    (z.fp cfg) (StorageCore.openReader cfg garbage)
  let chunk ← DataRetrieverThd.fullEDRItem cfg z.key r.1
  .ok (r.1.map RestoreChunk.type, chunk.1)

/-- Chunks of `U` are sent, and no reference count wraps. -/
def SendsCounted (cfg : Components) (U : PlainChunk → Prop) (w : World) (a : Action) : Prop :=
  (a.OnChunk fun x _ => U x) ∧ NoWrap cfg w a

instance [DecidablePred U] (w : World) (a : Action) : Decidable (SendsCounted cfg U w a) :=
  inferInstanceAs (Decidable (_ ∧ _))

/-- Both sides being in step, a chunk the client takes for similar meets a cache
that is not empty. -/
theorem Synced.sends (h : Synced w) {a : Action} (hg : SendsCounted cfg U w a) :
    Sends cfg U w a := by
  cases a with
  | chunk data key seed addr =>
      refine ⟨hg.1, ?_⟩
      rintro t ht ⟨-, f, -, hf⟩
      exact (h.running ht).nonempty hf
  | login c => trivial
  | recipeEnd => trivial
  | evict f => trivial
  | evictEnd => trivial
  | logout metaOrder cntOrder idxOrder => trivial
  | download c file garbage cntOrder idxOrder => trivial

theorem counted_step (hlaw : Laws cfg U) {a : Action} (h : Synced w ∧ ∃ log, Inv cfg U log w)
    (hg : SendsCounted cfg U w a) (ha : w.step cfg a = .ok w') :
    (Synced w' ∧ ∃ log, Inv cfg U log w') ∧ RecordsFinal w.srv w'.srv := by
  obtain ⟨hsync, log, hi⟩ := h
  have hs := step_stepped ha
  obtain ⟨log', hi', hfinal, -⟩ := inv_step hlaw hi (hsync.sends hg) hs
  exact ⟨⟨synced_step hsync hg.2 hs, log', hi'⟩, hfinal⟩

theorem counted_reach (hlaw : Laws cfg U) (h : Reach (step cfg) (SendsCounted cfg U) init w) :
    Synced w ∧ ∃ log, Inv cfg U log w :=
  h.inv (fun w => Synced w ∧ ∃ log, Inv cfg U log w) ⟨synced_init, _, inv_init⟩
    fun _ _ _ hi hg ha => (counted_step hlaw hi hg ha).1

/-- From an invariant state on, records are final. -/
theorem counted_final (hlaw : Laws cfg U) (hi : Synced w ∧ ∃ log, Inv cfg U log w)
    (h : Reach (step cfg) (SendsCounted cfg U) w w') :
    (Synced w' ∧ ∃ log, Inv cfg U log w') ∧ RecordsFinal w.srv w'.srv := by
  refine h.inv (fun w' => (Synced w' ∧ ∃ log, Inv cfg U log w') ∧ RecordsFinal w.srv w'.srv)
    ⟨hi, fun hl => hl⟩ ?_
  rintro v a v' ⟨hi, hfinal⟩ hg ha
  obtain ⟨hi', hfinal'⟩ := counted_step hlaw hi hg ha
  exact ⟨hi', fun hl => hfinal' (hfinal hl)⟩

/-- With the base cached, the server decodes and the client only decrypts. -/
theorem Inv.retrieve_hit (h : Inv cfg U log w) (hlaw : Laws cfg U) (hs : w.session = none)
    {z : PlainChunk} {addr : KeyForChunkHashDB} (hz : U z)
    (hl : w.srv.fp2AddrDb.lookup (z.fp cfg) = some addr) (hstat : addr.stat = .cacheDeltaChunk)
    {c : ClientId}
    (hin : (InformCache.loadCntIdx (w.informFiles c)).isBaseChunkExist addr.baseFp = true)
    (garbage : Container) :
    w.retrieveChunk cfg c z garbage = .ok ([.data .uncompNormalChunk], z.data) := by
  have hcache := h.resting c
  obtain ⟨base, hbase⟩ := Index.lookup_isSome_of_mem (hcache.kept addr.baseFp
    (Index.mem_iff_lookup.mpr (Option.isSome_iff_exists.mp hin)))
  obtain ⟨y, hy, hyfp, rfl⟩ := hcache.data hbase
  cases h.records.of_known hlaw.collisionFree hz hl with
  | base hs' => rw [hstat] at hs'; exact nomatch hs'
  | delta hs' => rw [hstat] at hs'; exact nomatch hs'
  | cacheDelta _ hy' hb _ hd =>
      obtain ⟨he, -⟩ := hlaw.collisionFree hy hy' (hyfp.trans hb)
      rw [← he] at hd
      obtain ⟨cache, heq, -⟩ := restoreChunk_hit h.records h.logOk
        (show CacheOk w.srv.storageCore (StorageCore.openReader cfg garbage).containerCache from
          cacheOk_new cfg _) (h.allSaved hs) hl hstat hin hbase hd
      simp only [retrieveChunk, heq, ok_bind, fullEDRItem_uncomp [] hlaw.enc]
      rfl

/-- With the base gone, the client makes its ciphertext again. -/
theorem Inv.retrieve_miss (h : Inv cfg U log w) (hlaw : Laws cfg U) (hs : w.session = none)
    {x z : PlainChunk} {addr baseAddr : KeyForChunkHashDB} (hx : U x) (hz : U z)
    (hkey : x.key = z.key) (hl : w.srv.fp2AddrDb.lookup (z.fp cfg) = some addr)
    (hstat : addr.stat = .cacheDeltaChunk) (hb : addr.baseFp = x.fp cfg)
    (hbl : w.srv.fp2AddrDb.lookup (x.fp cfg) = some baseAddr)
    (hform : baseAddr.stat ≠ .cacheDeltaChunk) {c : ClientId}
    (hout : (InformCache.loadCntIdx (w.informFiles c)).isBaseChunkExist addr.baseFp = false)
    (garbage : Container) :
    w.retrieveChunk cfg c z garbage =
      .ok ([.data .cacheRestoreDelta, .data .cacheRestoreBase], z.data) := by
  have hheld := h.records.of_known hlaw.collisionFree hx hbl
  rw [← hb] at hbl
  cases h.records.of_known hlaw.collisionFree hz hl with
  | base hs' => rw [hstat] at hs'; exact nomatch hs'
  | delta hs' => rw [hstat] at hs'; exact nomatch hs'
  | cacheDelta _ hy hby _ hd =>
      obtain ⟨he, -⟩ := hlaw.collisionFree hx hy (hb.symm.trans hby)
      rw [← he] at hd
      obtain ⟨cache, heq, -⟩ := restoreChunk_miss h.records h.logOk
        (show CacheOk w.srv.storageCore (StorageCore.openReader cfg garbage).containerCache from
          cacheOk_new cfg _) (h.allSaved hs) hl hstat hout hbl hform hheld
      simp only [retrieveChunk, heq, ok_bind, fullEDRItem_restore [] hlaw.enc hlaw.comp hkey hd]
      rfl

/-- A chunk `z` that was delta-encoded against the cached chunk `x`, sent under
the same key, comes back the same on both ways: from a state in which some
client still has `x` cached, and from any later state for a client that has it
no more. -/
theorem restore_paths_agree (hlaw : Laws cfg U)
    (h : Reach (step cfg) (SendsCounted cfg U) init w)
    (h' : Reach (step cfg) (SendsCounted cfg U) w w') (hs : w.session = none)
    (hs' : w'.session = none) {x z : PlainChunk} (hx : U x) (hz : U z) (hkey : x.key = z.key)
    {addr baseAddr : KeyForChunkHashDB} (hl : w.srv.fp2AddrDb.lookup (z.fp cfg) = some addr)
    (hstat : addr.stat = .cacheDeltaChunk) (hb : addr.baseFp = x.fp cfg)
    (hbl : w.srv.fp2AddrDb.lookup (x.fp cfg) = some baseAddr)
    (hform : baseAddr.stat = .compBaseChunk ∨ baseAddr.stat = .compDeltaChunk) {c c' : ClientId}
    (hit : (InformCache.loadCntIdx (w.informFiles c)).isBaseChunkExist (x.fp cfg) = true)
    (miss : (InformCache.loadCntIdx (w'.informFiles c')).isBaseChunkExist (x.fp cfg) = false)
    (garbage garbage' : Container) :
    w.retrieveChunk cfg c z garbage = .ok ([.data .uncompNormalChunk], z.data) ∧
    w'.retrieveChunk cfg c' z garbage' =
      .ok ([.data .cacheRestoreDelta, .data .cacheRestoreBase], z.data) := by
  have hw := counted_reach hlaw h
  obtain ⟨⟨-, log', hi'⟩, hfinal⟩ := counted_final hlaw hw h'
  obtain ⟨-, log, hi⟩ := hw
  rw [← hb] at hit miss
  refine ⟨hi.retrieve_hit hlaw hs hz hl hstat hit garbage, ?_⟩
  refine hi'.retrieve_miss hlaw hs' hx hz hkey (hfinal hl) hstat hb (hfinal hbl) ?_ miss garbage'
  rcases hform with hf | hf
  · rw [hf]; exact fun h => nomatch h
  · rw [hf]; exact fun h => nomatch h

/-! ### Runs on plain components -/

/-- Client 0 uploads `[10, 5]` and, under the key `key`, `[11, 5]`. -/
def twoKeysActions (key : Key) : List Action :=
  [.login 0, .chunk [10, 5] [9] 0 ⟨.uniqueChunk, [], 0, 0, []⟩,
    .chunk [11, 5] key 0 ⟨.uniqueChunk, [], 0, 0, []⟩, .recipeEnd, .evictEnd,
    .logout [(5, 1), (261, 1), (517, 1)] [(plainFp [10, 5], 3)]
      [(5, plainFp [10, 5]), (261, plainFp [10, 5]), (517, plainFp [10, 5])]]

/-- After the upload, the base is cached. -/
def hitWorld (key : Key) : World :=
  endOf (step Components.plain) init (twoKeysActions key)

/-- An upload later, it is evicted. -/
def missWorld (key : Key) : World :=
  endOf (step Components.plain) (hitWorld key) evictAll

theorem hit_miss_reach (key : Key)
    (hok : Allowed (step Components.plain) (SendsCounted Components.plain fun _ => True) init
      (twoKeysActions key))
    (hrun : (runSteps (step Components.plain) init (twoKeysActions key)).isOk = true)
    (hok' : Allowed (step Components.plain) (SendsCounted Components.plain fun _ => True)
      (hitWorld key) evictAll)
    (hrun' : (runSteps (step Components.plain) (hitWorld key) evictAll).isOk = true) :
    Reach (step Components.plain) (SendsCounted Components.plain fun _ => True) init
        (hitWorld key) ∧
      Reach (step Components.plain) (SendsCounted Components.plain fun _ => True) (hitWorld key)
        (missWorld key) :=
  ⟨endOf_reach hok hrun, endOf_reach hok' hrun'⟩

/-- Under another key the second way ends the client. -/
theorem other_key_lost :
    Laws Components.plain (fun _ => True) ∧
    Reach (step Components.plain) (SendsCounted Components.plain fun _ => True) init
      (hitWorld [8]) ∧
    Reach (step Components.plain) (SendsCounted Components.plain fun _ => True) (hitWorld [8])
      (missWorld [8]) ∧
    (hitWorld [8]).retrieveChunk Components.plain 0 ⟨[11, 5], [8], 0⟩ ⟨[1], []⟩ =
      .ok ([.data .uncompNormalChunk], [11, 5]) ∧
    (missWorld [8]).retrieveChunk Components.plain 0 ⟨[11, 5], [8], 0⟩ ⟨[1], []⟩ =
      .error .retrieverDecrypt := by
  obtain ⟨hhit, hmiss⟩ := hit_miss_reach [8] (by decide +kernel) (by decide +kernel)
    (by decide +kernel) (by decide +kernel)
  exact ⟨plain_laws _, hhit, hmiss, by decide +kernel, by decide +kernel⟩

theorem restore_paths_agree_sample :
    (hitWorld [9]).retrieveChunk Components.plain 0 (plainChunk [11, 5]) ⟨[1], []⟩ =
        .ok ([.data .uncompNormalChunk], [11, 5]) ∧
      (missWorld [9]).retrieveChunk Components.plain 0 (plainChunk [11, 5]) ⟨[1], []⟩ =
        .ok ([.data .cacheRestoreDelta, .data .cacheRestoreBase], [11, 5]) := by
  obtain ⟨hhit, hmiss⟩ := hit_miss_reach [9] (by decide +kernel) (by decide +kernel)
    (by decide +kernel) (by decide +kernel)
  have hl : (hitWorld [9]).srv.fp2AddrDb.lookup (plainFp [11, 5]) =
      some ⟨.cacheDeltaChunk, [], 5, 6, plainFp [10, 5]⟩ := by decide +kernel
  have hbl : (hitWorld [9]).srv.fp2AddrDb.lookup (plainFp [10, 5]) =
      some ⟨.compBaseChunk, [], 0, 5, []⟩ := by decide +kernel
  exact restore_paths_agree (plain_laws _) hhit hmiss
    (Option.isNone_iff_eq_none.mp (by decide +kernel))
    (Option.isNone_iff_eq_none.mp (by decide +kernel)) (x := plainChunk [10, 5])
    (z := plainChunk [11, 5]) trivial trivial rfl hl rfl rfl hbl (Or.inl rfl)
    (by decide +kernel) (by decide +kernel) ⟨[1], []⟩ ⟨[1], []⟩

end World

end EDRStore
