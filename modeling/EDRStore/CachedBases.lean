/-
# `EDRStore.CachedBases` — the bases in a session's inform cache

A pair puts its base into the cache before its own chunk is checked, so a base
in the cache is not yet known to be in the index.  It is by the time a later
single chunk is checked:

    queue     … insert b │ pair b │ single c …
    cached b  b is in the index, or being inserted, or at the head of the queue

Hence a single chunk found unique is never a delta against itself, in any
interleaving.
-/
import EDRStore.WriterHand

namespace EDRStore

namespace ClientVar

/-- Every base that is announced is followed by its own chunk. -/
def InPairs : List WrappedChunk → Prop
  | [] => True
  | [c] => c.info.stat ≠ .cacheInsertChunk
  | c :: d :: q => (c.info.stat = .cacheInsertChunk →
      d.info.stat = .chunkPair ∧ d.info.fp = c.info.fp) ∧ InPairs (d :: q)

theorem InPairs.tail {c : WrappedChunk} {q : List WrappedChunk} (h : InPairs (c :: q)) :
    InPairs q := by
  cases q with
  | nil => trivial
  | cons d q => exact h.2

theorem InPairs.next {c : WrappedChunk} {q : List WrappedChunk} (h : InPairs (c :: q))
    (hc : c.info.stat = .cacheInsertChunk) :
    ∃ d q', q = d :: q' ∧ d.info.stat = .chunkPair ∧ d.info.fp = c.info.fp := by
  cases q with
  | nil => exact absurd hc h
  | cons d q => exact ⟨d, q, rfl, h.1 hc⟩

theorem InPairs.append {q q' : List WrappedChunk} (h : InPairs q) (h' : InPairs q') :
    InPairs (q ++ q') := by
  induction q with
  | nil => exact h'
  | cons c q ih =>
      cases q with
      | nil =>
          cases q' with
          | nil => exact h
          | cons d q' => exact ⟨fun hc => absurd hc h, h'⟩
      | cons d q => exact ⟨h.1, ih h.2⟩

theorem InPairs.of_none {q : List WrappedChunk}
    (h : ∀ c ∈ q, c.info.stat ≠ .cacheInsertChunk) : InPairs q := by
  induction q with
  | nil => trivial
  | cons c q ih =>
      cases q with
      | nil => exact h c List.mem_cons_self
      | cons d q =>
          exact ⟨fun hc => absurd hc (h c List.mem_cons_self),
            ih fun x hx => h x (List.mem_cons_of_mem _ hx)⟩

/-- A unique chunk of the queue is none of the bases that are in the cache when
its turn comes. -/
def Unlisted (cached : Fp → Prop) : List WrappedChunk → Prop
  | [] => True
  | c :: q => (c.info.stat = .uniqueChunk → ¬ cached c.info.fp) ∧
      Unlisted (fun b => cached b ∨ c.info.stat = .cacheInsertChunk ∧ c.info.fp = b) q

/-- In the cache, or about to be inserted. -/
def CachedIn (features : Index Feature Fp) (q : List WrappedChunk) (b : Fp) : Prop :=
  (∃ f, features.lookup f = some b) ∨ ∃ c ∈ q, c.info.stat = .cacheInsertChunk ∧ c.info.fp = b

theorem Unlisted.mono {p p' : Fp → Prop} {q : List WrappedChunk} (h : Unlisted p q)
    (hp : ∀ b, p' b → p b) : Unlisted p' q := by
  induction q generalizing p p' with
  | nil => trivial
  | cons c q ih =>
      refine ⟨fun hc hb => h.1 hc (hp _ hb), ih h.2 fun b hb => ?_⟩
      exact hb.imp_left (hp b)

theorem Unlisted.append {p : Fp → Prop} {q : List WrappedChunk} {c : WrappedChunk}
    (h : Unlisted p q) (hc : c.info.stat = .uniqueChunk → ¬ p c.info.fp ∧
      ∀ d ∈ q, d.info.stat = .cacheInsertChunk → d.info.fp ≠ c.info.fp) :
    Unlisted p (q ++ [c]) := by
  induction q generalizing p with
  | nil => exact ⟨fun hu => (hc hu).1, trivial⟩
  | cons d q ih =>
      refine ⟨h.1, ih h.2 fun hu => ⟨?_, ?_⟩⟩
      · rintro (hp | ⟨hd, hfp⟩)
        · exact (hc hu).1 hp
        · exact (hc hu).2 d List.mem_cons_self hd hfp
      · exact fun x hx => (hc hu).2 x (List.mem_cons_of_mem _ hx)

/-- `P own base` holds of a cache delta in hand. -/
def CacheNamed (P : Fp → Fp → Prop) : WriterPc → Prop
  | .cacheDelta c => P c.info.fp c.info.addr.baseFp
  | .publish c => c.info.addr.stat = .cacheDeltaChunk → P c.info.fp c.info.addr.baseFp
  | .features c _ => c.info.addr.stat = .compBaseChunk
  | _ => True

/-- What a session's queues say about the bases in its cache. -/
structure CacheOrder (db : Index Fp KeyForChunkHashDB) (t : ClientVar) : Prop where
  paired : InPairs t.recv2DualMq.items
  cached : ∀ {b}, CachedIn t.informCache.localFeature2FpDb t.dual2CompMq.items b →
    b ∈ db ∨ (∃ c, t.dualPending = some c ∧ c.info.fp = b) ∨
      ∃ c q, t.recv2DualMq.items = c :: q ∧ c.info.stat = .chunkPair ∧ c.info.fp = b
  pending : ∀ {c}, t.dualPending = some c → c.info.stat = .singleChunk →
    ¬ CachedIn t.informCache.localFeature2FpDb t.dual2CompMq.items c.info.fp
  queued : Unlisted (fun b => ∃ f, t.informCache.localFeature2FpDb.lookup f = some b)
    t.dual2CompMq.items
  toWrite : ∀ {c}, c ∈ t.comp2WriterMq.items → c.info.stat = .cacheDeltaChunk →
    c.info.fp ≠ c.info.addr.baseFp
  inHand : CacheNamed (· ≠ ·) t.writer

variable {cfg : Components} {srv srv' : Server} {t t' : ClientVar} {a : ThreadAction}
  {evs : List Event} {db : Index Fp KeyForChunkHashDB}

/-- More is pushed to the first queue. -/
theorem CacheOrder.recvPushed (h : t.CacheOrder db) {chunks : List WrappedChunk}
    (hp : InPairs chunks) {recipe : List Fp} {received : List (List SendChunk)}
    {pending : Option WrappedChunk} : CacheOrder db { t with
      received := received
      fileRecipe := recipe
      recvPending := pending
      recv2DualMq := t.recv2DualMq.push chunks } :=
  { h with
    paired := h.paired.append hp
    cached := by
      intro b hb
      rcases h.cached hb with hb | hb | ⟨c, q, hq, hst, hfp⟩
      · exact Or.inl hb
      · exact Or.inr (Or.inl hb)
      · refine Or.inr (Or.inr ⟨c, q ++ chunks, ?_, hst, hfp⟩)
        simp only [MessageQueue.push, hq, List.cons_append] }

/-- The second queue loses its first element, and the cache gains no base that
was not in the queue. -/
theorem CacheOrder.compPopped (h : t.CacheOrder db) {c : WrappedChunk} {q : List WrappedChunk}
    (hq : t.dual2CompMq.items = c :: q) (cache : InformCache) (out : List WrappedChunk)
    (hc : ∀ {b}, (∃ f, cache.localFeature2FpDb.lookup f = some b) →
      (∃ f, t.informCache.localFeature2FpDb.lookup f = some b) ∨
        c.info.stat = .cacheInsertChunk ∧ c.info.fp = b)
    (hout : ∀ x ∈ out, x.info.stat = .cacheDeltaChunk → x.info.fp ≠ x.info.addr.baseFp) :
    CacheOrder db { t with
      dual2CompMq := { t.dual2CompMq with items := q }
      informCache := cache
      comp2WriterMq := t.comp2WriterMq.push out } := by
  have hsub : ∀ {b}, CachedIn cache.localFeature2FpDb q b →
      CachedIn t.informCache.localFeature2FpDb t.dual2CompMq.items b := by
    rintro b (hb | ⟨x, hx, hst, hfp⟩)
    · rcases hc hb with hb | ⟨hst, hfp⟩
      · exact Or.inl hb
      · exact Or.inr ⟨c, by rw [hq]; exact List.mem_cons_self, hst, hfp⟩
    · exact Or.inr ⟨x, by rw [hq]; exact List.mem_cons_of_mem _ hx, hst, hfp⟩
  have hqd := h.queued
  rw [hq] at hqd
  exact
    { paired := h.paired
      cached := fun hb => h.cached (hsub hb)
      pending := fun hp hst hb => h.pending hp hst (hsub hb)
      queued := hqd.2.mono fun b hb => hc hb
      toWrite := by
        intro x hx
        rcases List.mem_append.mp hx with hx | hx
        · exact h.toWrite hx
        · exact hout x hx
      inHand := h.inHand }

/-- Only the writer moves. -/
theorem CacheOrder.inWriter (h : t.CacheOrder db) {pc : WriterPc} {q : MessageQueue}
    {cur : ClientStore} (hq : ∀ c ∈ q.items, c ∈ t.comp2WriterMq.items)
    (hpc : CacheNamed (· ≠ ·) pc) : CacheOrder db { t with
      comp2WriterMq := q
      writer := pc
      cur := cur } :=
  { h with
    toWrite := fun hc => h.toWrite (hq _ hc)
    inHand := hpc }

theorem CacheOrder.mono (h : t.CacheOrder db) {db' : Index Fp KeyForChunkHashDB}
    (hdb : ∀ {fp}, fp ∈ db → fp ∈ db') : t.CacheOrder db' :=
  { h with cached := fun hb => (h.cached hb).imp_left hdb }

/-- The first queue loses an element that needs no insert any more. -/
theorem CacheOrder.dualPopped (h : t.CacheOrder db) (hp : t.dualPending = none) {c : WrappedChunk}
    {q : List WrappedChunk} (hq : t.recv2DualMq.items = c :: q)
    (hk : c.info.stat = .chunkPair → c.info.fp ∈ db) :
    CacheOrder db { t with recv2DualMq := { t.recv2DualMq with items := q } } := by
  have hpaired := h.paired
  rw [hq] at hpaired
  exact
    { h with
      paired := hpaired.tail
      cached := by
        intro b hb
        rcases h.cached hb with hb | ⟨x, hx, -⟩ | ⟨x, q', hq', hst, hfp⟩
        · exact Or.inl hb
        · rw [hp] at hx
          exact nomatch hx
        · rw [hq] at hq'
          cases hq'
          exact Or.inl (hfp ▸ hk hst) }

/-- A base in the cache is known, or its own chunk is next. -/
theorem CacheOrder.cached_none (h : t.CacheOrder db) (hp : t.dualPending = none) {c : WrappedChunk}
    {q : List WrappedChunk} (hq : t.recv2DualMq.items = c :: q) {b : Fp}
    (hb : CachedIn t.informCache.localFeature2FpDb t.dual2CompMq.items b) :
    b ∈ db ∨ c.info.stat = .chunkPair ∧ c.info.fp = b := by
  rcases h.cached hb with hb | ⟨x, hx, -⟩ | ⟨x, q', hq', hst, hfp⟩
  · exact Or.inl hb
  · rw [hp] at hx
    exact nomatch hx
  · rw [hq] at hq'
    cases hq'
    exact Or.inr ⟨hst, hfp⟩

/-- The pending chunk enters the index and the second queue. -/
theorem CacheOrder.dualInserted (h : t.CacheOrder db) (hwf : t.Wf) {c : WrappedChunk}
    (hp : t.dualPending = some c) {addr : KeyForChunkHashDB} :
    CacheOrder (db.insert c.info.fp addr) { t with
      dualPending := none
      dual2CompMq := t.dual2CompMq.push [DualDedupThd.admitted cfg c] } := by
  have hni : (DualDedupThd.admitted cfg c).info.stat ≠ .cacheInsertChunk := by
    unfold DualDedupThd.admitted
    split <;> exact fun h => nomatch h
  have hsub : ∀ {b}, CachedIn t.informCache.localFeature2FpDb
      (t.dual2CompMq.items ++ [DualDedupThd.admitted cfg c]) b →
      CachedIn t.informCache.localFeature2FpDb t.dual2CompMq.items b := by
    rintro b (hb | ⟨x, hx, hst, hfp⟩)
    · exact Or.inl hb
    · rcases List.mem_append.mp hx with hx | hx
      · exact Or.inr ⟨x, hx, hst, hfp⟩
      · cases List.mem_singleton.mp hx
        exact absurd hst hni
  have hmono : CacheOrder (db.insert c.info.fp addr) t :=
    h.mono fun hm => Finmap.mem_insert.mpr (Or.inr hm)
  refine { hmono with cached := ?_, pending := (fun hc => nomatch hc), queued := ?_ }
  · intro b hb
    rcases h.cached (hsub hb) with hb | ⟨x, hx, hfp⟩ | hb
    · exact Or.inl (Finmap.mem_insert.mpr (Or.inr hb))
    · -- what was pending is in the index now
      rw [hp] at hx
      cases hx
      exact Or.inl (Finmap.mem_insert.mpr (Or.inl hfp.symm))
    · exact Or.inr (Or.inr hb)
  · refine h.queued.append fun hst => ?_
    have hsingle : c.info.stat = .singleChunk := by
      rcases hwf.dualStat hp with hpair | hsingle
      · simp only [DualDedupThd.admitted, hpair] at hst
        exact nomatch hst
      · exact hsingle
    have hno := h.pending hp hsingle
    rw [DualDedupThd.admitted_fp]
    refine ⟨fun hb => hno (Or.inl hb), ?_⟩
    intro d hd hdst hfp
    exact hno (Or.inr ⟨d, hd, hdst, hfp⟩)

/-- A base or an eviction passes from the first queue to the second. -/
theorem CacheOrder.dualPassed (h : t.CacheOrder db) (hp : t.dualPending = none) {c : WrappedChunk}
    {q : List WrappedChunk} (hq : t.recv2DualMq.items = c :: q)
    (hst : c.info.stat = .cacheInsertChunk ∨ c.info.stat = .cacheEvictChunk) :
    CacheOrder db { t with
      recv2DualMq := { t.recv2DualMq with items := q }
      dual2CompMq := t.dual2CompMq.push [c] } := by
  have hnp : c.info.stat ≠ .chunkPair := by
    rcases hst with hst | hst <;> rw [hst] <;> exact fun h => nomatch h
  have hd := h.dualPopped hp hq fun hc => absurd hc hnp
  refine { hd with cached := ?_, pending := ?_, queued := ?_ }
  · rintro b (hb | ⟨x, hx, hxst, hfp⟩)
    · exact hd.cached (Or.inl hb)
    · rcases List.mem_append.mp hx with hx | hx
      · exact hd.cached (Or.inr ⟨x, hx, hxst, hfp⟩)
      · -- the base just passed: its own chunk comes next
        cases List.mem_singleton.mp hx
        have hpaired := h.paired
        rw [hq] at hpaired
        obtain ⟨d, q', rfl, hdst, hdfp⟩ := hpaired.next hxst
        exact Or.inr (Or.inr ⟨d, q', rfl, hdst, hdfp.trans hfp⟩)
  · intro x hx
    rw [hp] at hx
    exact nomatch hx
  · refine h.queued.append fun hu => ?_
    rcases hst with hst | hst <;> rw [hst] at hu <;> exact nomatch hu

/-- A chunk the index does not know becomes the pending one. -/
theorem CacheOrder.dualAdmitted (h : t.CacheOrder db) (hp : t.dualPending = none)
    {c : WrappedChunk} {q : List WrappedChunk} (hq : t.recv2DualMq.items = c :: q)
    (hm : c.info.fp ∉ db) :
    CacheOrder db { t with
      recv2DualMq := { t.recv2DualMq with items := q }
      dualPending := some c } := by
  have hpaired := h.paired
  rw [hq] at hpaired
  refine { h with paired := hpaired.tail, cached := ?_, pending := ?_ }
  · intro b hb
    rcases h.cached_none hp hq hb with hb | ⟨-, hfp⟩
    · exact Or.inl hb
    · exact Or.inr (Or.inl ⟨c, rfl, hfp⟩)
  · rintro x hx hxst hb
    cases hx
    rcases h.cached_none hp hq hb with hb | ⟨hpair, -⟩
    · exact hm hb
    · rw [hxst] at hpair
      exact nomatch hpair

theorem Stepped.db_mem (hs : Stepped cfg srv t a srv' t' evs) {fp : Fp}
    (h : fp ∈ srv.fp2AddrDb) : fp ∈ srv'.fp2AddrDb := by
  cases hs with
  | recvInsert hp => exact Finmap.mem_insert.mpr (Or.inr h)
  | dualInsert hp => exact Finmap.mem_insert.mpr (Or.inr h)
  | publish hw => exact Finmap.mem_insert.mpr (Or.inr h)
  | _ => exact h

theorem pushes_inPairs {addr : KeyForChunkHashDB} {item : List SendChunk}
    {chunks : List WrappedChunk} {fp : Fp} (hi : DataRecvThd.Pushes cfg addr item chunks fp) :
    InPairs chunks := by
  cases hi with
  | pair ht hfp => exact ⟨fun _ => ⟨rfl, rfl⟩, fun h => nomatch h⟩
  | single ht hfp => exact fun h => nomatch h

/-- An eviction forgets bases, it names none. -/
theorem evictCacheChunk_lookup {cache cache' : InformCache} {c : WrappedChunk}
    (h : cache.evictCacheChunk c = .ok cache') {f : Feature} {b : Fp}
    (hb : cache'.localFeature2FpDb.lookup f = some b) :
    cache.localFeature2FpDb.lookup f = some b := by
  refine foldlM_inv (fun x : InformCache => x.localFeature2FpDb.lookup f = some b →
    cache.localFeature2FpDb.lookup f = some b) ?_ id h hb
  intro x g x' _ hx hs hb
  obtain ⟨fp, cnt, -, -, rfl⟩ := InformCache.evictFeature_cases hs
  refine hx ?_
  rw [Index.lookup_erase_ite] at hb
  split at hb
  · exact nomatch hb
  · exact hb

theorem cacheOrder_step (hwf : t.Wf) (h : t.CacheOrder srv.fp2AddrDb)
    (hs : Stepped cfg srv t a srv' t' evs) : t'.CacheOrder srv'.fp2AddrDb := by
  have hmono := h.mono hs.db_mem
  cases hs with
  | recvPush hp hd hi => exact h.recvPushed (pushes_inPairs hi)
  | recvKnown hp hd ht hm => exact { h with }
  | recvUnique hp hd ht hm => exact { h with }
  | @recvInsert c hp =>
      refine hmono.recvPushed ?_
      intro hst
      rw [hwf.recvStat hp] at hst
      exact nomatch hst
  | recvEvict hp hd =>
      refine h.recvPushed (InPairs.of_none ?_)
      intro c hc
      obtain ⟨fs, -, rfl⟩ := List.mem_map.mp hc
      exact fun hst => nomatch hst
  | recvEnd hp hd => exact { h with }
  | dualInsert hp => exact h.dualInserted hwf hp
  | dualPass hp hq hst => exact h.dualPassed hp hq hst
  | dualKnown hp hq hst hm => exact h.dualPopped hp hq fun _ => hm
  | dualUnique hp hq hst hm => exact h.dualAdmitted hp hq hm
  | dualEnd hp hq hd => exact { h with }
  | compNew hq hst =>
      refine h.compPopped hq _ _ Or.inl ?_
      intro x hx hxst
      cases List.mem_singleton.mp hx
      exact nomatch hxst
  | @compDelta c q f base data delta hq hst hf hb hd he =>
      have hqd := h.queued
      rw [hq] at hqd
      refine h.compPopped hq _ _ Or.inl ?_
      intro x hx _
      cases List.mem_singleton.mp hx
      intro heq
      have heq : c.info.fp = base := heq
      exact hqd.1 hst ⟨f, heq ▸ hb⟩
  | compPlain hq hst h0 =>
      refine h.compPopped hq _ _ Or.inl ?_
      intro x hx hxst
      cases List.mem_singleton.mp hx
      rw [hst] at hxst
      exact nomatch hxst
  | @compInsert c q hq hst =>
      have hpop := h.compPopped hq (t.informCache.insertCachedChunk c) [] ?_
        (fun x hx => absurd hx List.not_mem_nil)
      · exact { hpop with toWrite := fun hc => h.toWrite hc }
      · rintro b ⟨f, hf⟩
        rw [InformCache.lookup_insertCachedChunk_feature] at hf
        split at hf
        · cases hf
          exact Or.inr ⟨hst, rfl⟩
        · exact Or.inl ⟨f, hf⟩
  | @compEvict c q cache hq hst he =>
      have hpop := h.compPopped hq cache [] ?_
        (fun x hx => absurd hx List.not_mem_nil)
      · exact { hpop with toWrite := fun hc => h.toWrite hc }
      · rintro b ⟨f, hf⟩
        exact Or.inl ⟨f, evictCacheChunk_lookup he hf⟩
  | compEnd hq hd => exact { h with }
  | @popDelta c q hw hq hst =>
      have hmem : ∀ x ∈ q, x ∈ t.comp2WriterMq.items := by
        intro x hx
        rw [hq]
        exact List.mem_cons_of_mem _ hx
      exact h.inWriter hmem (h.toWrite (by rw [hq]; exact List.mem_cons_self) hst)
  | @popUnique c q hw hq hst =>
      refine h.inWriter ?_ trivial
      intro x hx
      rw [hq]
      exact List.mem_cons_of_mem _ hx
  | find hw => exact h.inWriter (fun _ hx => hx) trivial
  | similar hw hst => exact h.inWriter (fun _ hx => hx) trivial
  | nonSimilar hw hst => exact h.inWriter (fun _ hx => hx) trivial
  | fetch hw hl => exact h.inWriter (fun _ hx => hx) trivial
  | read hw hr =>
      refine h.inWriter (fun _ hx => hx) ?_
      split <;> trivial
  | store hst =>
      have hin := h.inHand
      generalize hpc : t.writer = pc at hst hin
      cases hst with
      | avoid c base => exact hmono.inWriter (fun _ hx => hx) trivial
      | delta c base he => exact hmono.inWriter (fun _ hx => hx) (fun hx => nomatch hx)
      | plain c => exact hmono.inWriter (fun _ hx => hx) rfl
      | cacheDelta c => exact hmono.inWriter (fun _ hx => hx) (fun _ => hin)
  | feature hw =>
      have hin := h.inHand
      rw [hw] at hin
      exact hmono.inWriter (fun _ hx => hx) hin
  | featuresEnd hw =>
      have hin := h.inHand
      rw [hw] at hin
      refine h.inWriter (fun _ hx => hx) fun hx => ?_
      rw [show _ = ChunkStatus.compBaseChunk from hin] at hx
      exact nomatch hx
  | publish hw => exact hmono.inWriter (fun _ hx => hx) trivial
  | writeEnd hw hq hd => exact hmono.inWriter (fun _ hx => hx) trivial

end ClientVar

/-! ## Between sessions -/

/-- What a session finds in the files was in the cache of the one before. -/
theorem InformCache.loaded_features {c : InformCache} {cntOrder : List (Fp × Nat)}
    {idxOrder : List (Feature × Fp)} (hi : Index.Lists c.localFeature2FpDb idxOrder) {f : Feature}
    {b : Fp} (h : (loadCntIdx (c.storeCntIdx cntOrder idxOrder)).localFeature2FpDb.lookup f =
      some b) : c.localFeature2FpDb.lookup f = some b := by
  cases cntOrder with
  | nil =>
      simp only [loadCntIdx, storeCntIdx, Finmap.lookup_empty] at h
      cases h
  | cons e cntOrder =>
      cases idxOrder with
      | nil =>
          simp only [loadCntIdx, storeCntIdx, Finmap.lookup_empty] at h
          cases h
      | cons e' idxOrder =>
          have heq : (loadCntIdx (c.storeCntIdx (e :: cntOrder) (e' :: idxOrder))).localFeature2FpDb =
              c.localFeature2FpDb := Index.insertList_of_lists hi
          rw [heq] at h
          exact h

namespace Service

/-- The bases in every cache, open or stored. -/
structure CacheOrdered (w : Service) : Prop where
  session : ∀ {s t}, w.clients.lookup s = some t → t.CacheOrder w.srv.fp2AddrDb
  files : ∀ {c f b},
    (InformCache.loadCntIdx (w.informFiles c)).localFeature2FpDb.lookup f = some b →
      b ∈ w.srv.fp2AddrDb
  recorded : ∀ {s fp addr}, (s, .published fp addr) ∈ w.trace → addr.stat = .cacheDeltaChunk →
    fp ≠ addr.baseFp

variable {cfg : Components} {w w' : Service} {a : Action}

theorem cacheOrdered_init : init.CacheOrdered where
  session := fun h => by simp [init] at h
  files := by
    intro c f b h
    simp [init, InformFiles.none, InformCache.loadCntIdx, Index.insertList] at h
  recorded := fun h => absurd h List.not_mem_nil

theorem cacheOrdered_step (hwf : w.Wf) (h : w.CacheOrdered) (hs : Stepped cfg w a w') :
    w'.CacheOrdered := by
  cases hs with
  | @login s c hl hn =>
      refine ⟨?_, h.files, h.recorded⟩
      intro u x hx
      rw [Index.lookup_insert_ite] at hx
      split at hx
      · cases hx
        refine ⟨trivial, ?_, (fun hp => nomatch hp), trivial, (fun hc => nomatch hc), trivial⟩
        rintro b (⟨f, hb⟩ | ⟨x, hx, -⟩)
        · exact Or.inl (h.files hb)
        · exact nomatch hx
      · exact h.session hx
  | @thread s a t srv' t' evs hst ht =>
      refine ⟨?_, fun hb => ht.db_mem (h.files hb), ?_⟩
      · intro u x hx
        rw [Index.lookup_insert_ite] at hx
        split at hx
        · cases hx
          exact ClientVar.cacheOrder_step (hwf _ _ hst) (h.session hst) ht
        · exact (h.session hx).mono ht.db_mem
      · intro u fp addr hm hstat
        rcases List.mem_append.mp hm with hm | hm
        · exact h.recorded hm hstat
        · obtain ⟨e, hm, heq⟩ := List.mem_map.mp hm
          cases heq
          obtain ⟨c, hw, rfl, rfl⟩ := ht.published hm
          have hin := (h.session hst).inHand
          rw [hw] at hin
          exact hin hstat
  | @logout s t cntOrder idxOrder hst hw hi =>
      have hord := h.session hst
      refine ⟨?_, ?_, h.recorded⟩
      · intro u x hx
        rw [Index.lookup_insert_ite] at hx
        split at hx
        · cases hx
          exact { hord with }
        · exact h.session hx
      · intro c f b hb
        by_cases hc : c = t.clientId
        · subst hc
          simp only [Function.update_self] at hb
          -- nothing is on its way when the threads have ended
          obtain ⟨hq, hcl, -⟩ := (hwf s t hst).drained hw
          rcases hord.cached (Or.inl ⟨f, InformCache.loaded_features hi hb⟩) with
            hb | ⟨x, hx, -⟩ | ⟨x, q, hx, -⟩
          · exact hb
          · have hm := ClientVar.mem_claimed_dual hx
            rw [hcl] at hm
            exact absurd hm (Multiset.notMem_zero _)
          · rw [hq] at hx
            exact nomatch hx
        · simp only [Function.update_of_ne hc] at hb
          exact h.files hb

end Service

end EDRStore
