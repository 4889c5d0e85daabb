/-
# `EDRStore.SimilarChunk` — when the base of a similar chunk cannot be read

`ProcSimilarChunk` stores a chunk whole when `FetchBaseChunk` gives it nothing,
"avoid delta, directly write", and then goes on: it encodes the chunk against
the empty base and stores that too, under a record that names the real base.
So the chunk is stored once, and in a form the decoder can restore, exactly
when the base was found and is not empty.
-/
import EDRStore.DataReader

namespace EDRStore

namespace DataWriterThd

/-- One record went to the container that is open now. -/
def StoredOnce (srv : Server) (r : WrappedChunk × StorageCore × ClientStore) : Prop :=
  r.2.1.writeChunkNum = srv.storageCore.writeChunkNum + 1 ∧
    r.1.info.addr.containerId = r.2.2.curContainer.id

/-- Whatever the segments grow to, and whoever reads them, once the chunk and
its base are found the chunk is restored byte for byte. -/
def RestorableLater (cfg : Components) (log : Content) (baseFp : Fp)
    (baseAddr : KeyForChunkHashDB) (chunk : WrappedChunk) (addr : KeyForChunkHashDB) : Prop :=
  ∀ (log' : Content) (srv : Server) (cur : ClientStore) (informCache : InformCache),
    Grows log log' → LogOk cfg log' srv.storageCore → CacheOk srv.storageCore cur.containerCache →
    srv.fp2AddrDb.lookup chunk.info.fp = some addr → srv.fp2AddrDb.lookup baseFp = some baseAddr →
    Found cfg log' srv.storageCore cur addr → Found cfg log' srv.storageCore cur baseAddr →
    ∃ cur', DataDecoderThd.restoreChunk cfg srv informCache chunk.info.fp cur =
      .ok ([⟨.data .compNormalChunk, chunk.data⟩], cur')

variable {cfg : Components} {log : Content} {srv : Server} {cur : ClientStore}
  {chunk : WrappedChunk} {baseAddr : KeyForChunkHashDB}

/-- A delta against the logged base restores the chunk wherever both are found. -/
theorem restorableLater_of_delta (hd : cfg.DeltaRoundTrip) {baseFp : Fp}
    {addr : KeyForChunkHashDB} (hs : baseAddr.stat = .compBaseChunk)
    (hw : baseAddr.extent.Within log) (haw : addr.extent.Within log)
    (has : addr.stat = .compDeltaChunk) (hab : addr.baseFp = baseFp)
    (henc : cfg.deltaEncode (baseAddr.extent.read log) chunk.data =
      some (addr.extent.read log)) :
    RestorableLater cfg log baseFp baseAddr chunk addr := by
  intro log' srv cur informCache hgrow hst hc hl hbl hf hbf
  have hdec : cfg.deltaDecode (baseAddr.extent.read log') (addr.extent.read log') =
      some chunk.data := by
    rw [Extent.read_of_grows hgrow hw, Extent.read_of_grows hgrow haw]
    exact hd _ _ _ henc
  obtain ⟨cache, heq, -⟩ := restoreChunk_delta informCache hst hc hl has hf
    (Extent.within_of_grows hgrow haw) (by rw [hab]; exact hbl) hs hbf
    (Extent.within_of_grows hgrow hw) hdec
  exact ⟨_, heq⟩

/-- `ProcSimilarChunk` stores a chunk once and restorably if and only if the
container of its base is found at that moment and the base is not empty. -/
theorem procSimilarChunk_once_iff (hid : cfg.FreshIds) (hd : cfg.DeltaRoundTrip)
    (hst : LogOk cfg log srv.storageCore) (ho : OpenOk cfg log srv.storageCore cur.curContainer)
    (hc : CacheOk srv.storageCore cur.containerCache)
    (hl : srv.fp2AddrDb.lookup chunk.info.addr.baseFp = some baseAddr)
    (hs : baseAddr.stat = .compBaseChunk) (hw : baseAddr.extent.Within log)
    {r : WrappedChunk × StorageCore × ClientStore}
    (h : procSimilarChunk cfg srv chunk cur = .ok r) :
    (StoredOnce srv r ∧ ∃ log', Evolves cfg log log' srv.storageCore r.2.1 cur r.2.2 ∧
        RestorableLater cfg log' chunk.info.addr.baseFp baseAddr chunk r.1.info.addr) ↔
      Readable srv.storageCore cur baseAddr.containerId ∧ baseAddr.len ≠ 0 := by
  obtain ⟨log', baseAddr', delta, hl', hev, -, hab, has, haw, hread, -, henc, hnum⟩ :=
    procSimilarChunk_spec hid hst ho hc h
  obtain rfl := Option.some.inj (hl.symm.trans hl')
  constructor
  · rintro ⟨⟨hone, -⟩, -⟩
    refine Decidable.of_not_not fun hno => ?_
    rw [if_neg hno] at hnum
    omega
  · intro hcond
    rw [if_pos hcond] at hnum
    have henc := henc hw
    rw [baseBytes, if_pos hcond.1, ← hread, ← Extent.read_of_grows hev.grows hw] at henc
    refine ⟨⟨hnum, ?_⟩, log', hev, ?_⟩
    · obtain ⟨base, -, h⟩ := bind_ok h
      obtain ⟨d, -, h⟩ := bind_ok h
      cases h
      rfl
    · exact restorableLater_of_delta hd hs (Extent.within_of_grows hev.grows hw) haw has hab henc

/-! ### Another session's open container -/

/-- The chunk `[7, 8]` is stored; `[7, 9]` is found similar to it. -/
def similarSample : WrappedChunk :=
  ⟨⟨[2], ⟨1, 2, 3⟩, ⟨.uniqueChunk, [], 0, 0, [1]⟩, .similarChunk⟩, [7, 9], []⟩

/-- A server on which the base `[7, 8]` lies in the container drawn first, with
or without a file. -/
def similarServer (containers : Index ContainerId Bytes) : Server where
  fp2AddrDb := Finmap.singleton [1] ⟨.compBaseChunk, [], 0, 2, []⟩
  feature2FpDb := ∅
  storageCore := { containers := containers, uuidCnt := 2, writeChunkNum := 1 }

/-- The session that writes `[7, 9]`, in the container drawn second. -/
def similarClient : ClientStore :=
  { curContainer := ⟨[0], []⟩, containerCache := ReadCache.new 2 maxContainerSize }

/-- What storing `[7, 9]` leaves behind. -/
def similarStored (containers : Index ContainerId Bytes) :
    WrappedChunk × StorageCore × ClientStore :=
  match procSimilarChunk Components.plain (similarServer containers) similarSample
    similarClient with
  | .ok r => r
  | .error _ => (similarSample, .empty, similarClient)

theorem similarStored_eq {containers : Index ContainerId Bytes}
    (h : (procSimilarChunk Components.plain (similarServer containers) similarSample
      similarClient).isOk = true) :
    procSimilarChunk Components.plain (similarServer containers) similarSample similarClient =
      .ok (similarStored containers) := by
  unfold similarStored
  split
  · assumption
  · rename_i he
    rw [he] at h
    exact nomatch h

/-- After both containers have their files. -/
def similarLater : Server where
  fp2AddrDb := (similarServer ∅).fp2AddrDb.insert [2] (similarStored ∅).1.info.addr
  feature2FpDb := ∅
  storageCore := ((similarStored ∅).2.1.saveTail (similarStored ∅).2.2).saveContainer ⟨[], [7, 8]⟩

/-- While the base's container is only another session's buffer, two records
are written for one chunk, and the one that is published does not decode
against the base once that can be read. -/
theorem base_unreadable_stored_twice :
    (procSimilarChunk Components.plain (similarServer ∅) similarSample similarClient).isOk = true ∧
    (similarStored ∅).2.1.writeChunkNum = (similarServer ∅).storageCore.writeChunkNum + 2 ∧
    (similarStored ∅).2.2.curContainer.body = [7, 9, 3, 0, 7, 9] ∧
    (DataDecoderThd.restoreChunk Components.plain similarLater (InformCache.loadCntIdx .none) [2]
      (StorageCore.openReader Components.plain ⟨[1], []⟩)).map Prod.fst = .error .deltaDecode := by
  decide +kernel

/-- The same with a file for the base: stored once, and restorable. -/
theorem procSimilarChunk_once_sample :
    StoredOnce (similarServer (Finmap.insert [] [7, 8] ∅))
      (similarStored (Finmap.insert [] [7, 8] ∅)) := by
  have hst : LogOk Components.plain (fun id => if id = [] then [7, 8] else [])
      (similarServer (Finmap.insert [] [7, 8] ∅)).storageCore := by
    refine ⟨?_, ?_, ?_⟩
    · intro id b hb
      simp only [similarServer, Index.lookup_insert_ite, Finmap.lookup_empty] at hb
      split at hb
      · rename_i hid; cases hb; rw [if_pos hid]
      · exact nomatch hb
    · intro n hn
      obtain ⟨m, rfl⟩ := Nat.exists_eq_add_of_le' hn
      rfl
    · intro n hn hm
      obtain ⟨m, rfl⟩ := Nat.exists_eq_add_of_le' hn
      rcases Finmap.mem_insert.mp hm with h | h
      · exact nomatch h
      · exact Finmap.notMem_empty h
  have hopen : OpenOk Components.plain (fun id => if id = [] then [7, 8] else [])
      (similarServer (Finmap.insert [] [7, 8] ∅)).storageCore similarClient.curContainer := by
    refine ⟨rfl, by decide, ?_⟩
    intro n hn h
    obtain ⟨m, rfl⟩ := Nat.exists_eq_add_of_le' hn
    exact nomatch h
  have hw : (⟨.compBaseChunk, [], 0, 2, []⟩ : KeyForChunkHashDB).extent.Within
      (fun id => if id = [] then [7, 8] else []) := Nat.le_refl 2
  exact ((procSimilarChunk_once_iff Components.plain_freshIds Components.plain_deltaRoundTrip hst
    hopen (cacheOk_new Components.plain _) rfl rfl hw
    (similarStored_eq (by decide +kernel))).mpr (by decide)).1

end DataWriterThd

end EDRStore
