/-
# `EDRStore.Stages` — the tags that pass from stage to stage

Four stages hand each other chunks by a status byte, and each of them ends the
server on a status its switch does not list.  A full-EDR upload never gets
there.  The two other methods send normal chunks, which `DataRecvThd` checks for
duplicates itself and pushes on as `UNIQUE_CHUNK`; `DualDedupThd` has no such
case, so that their first new chunk ends the server.
-/
import EDRStore.Lockstep

namespace EDRStore

/-- The default branches of the four stages. -/
def defaultExits : List Exit :=
  [.recvChunkType, .dualInputType, .cacheInputType, .cacheStatType, .writerUniqueType,
    .writerChunkType]

/-- An upload between two chunks: the server's stages and the client's cache
meta. -/
structure Upload where
  state : UploadState
  cacheMeta : CacheMeta

namespace Upload

variable (cfg : Components) (method : MethodType)

/-- One chunk under the given method; the address is what `tmp_chunk` holds. -/
def sendChunk (u : Upload) (c : PlainChunk × KeyForChunkHashDB) : Except Exit Upload := do
  let item := SenderThd.sendItem cfg method u.cacheMeta
    (prepareChunk cfg c.1.data c.1.key c.1.seed)
  let r ← UploadState.runItem cfg u.state c.2 item.1
  .ok ⟨r.1, item.2⟩

/-- The chunks of an upload, then its messages of features. -/
def run (u : Upload) (chunks : List (PlainChunk × KeyForChunkHashDB))
    (evictions : List (List Feature)) : Except Exit UploadState := do
  let u ← chunks.foldlM (sendChunk cfg method) u
  evictions.foldlM (fun s features => s.runEvict cfg World.evictInfo features) u.state

/-- The fingerprint `DataRecvThd` gives a chunk. -/
def recvFp (x : PlainChunk) : Fp :=
  match method with
  | .onlySimilarEnc => cfg.generateHash (x.enc cfg)
  | .similarEncComp => cfg.generateHash (x.comp cfg)
  | .fullEdr => x.fp cfg

variable {cfg} {method} {u : Upload}

/-- A chunk of the other two methods: known already, or the end of the server. -/
theorem sendChunk_normal (hm : method ≠ .fullEdr) (c : PlainChunk × KeyForChunkHashDB) :
    sendChunk cfg method u c =
      if recvFp cfg method c.1 ∈ u.state.srv.fp2AddrDb then .ok u else .error .dualInputType := by
  have hitem : ∃ data fs, SenderThd.sendItem cfg method u.cacheMeta
      (prepareChunk cfg c.1.data c.1.key c.1.seed) =
        ([⟨.normalChunk, data, fs, []⟩], u.cacheMeta) ∧
      recvFp cfg method c.1 = cfg.generateHash data := by
    cases method with
    | onlySimilarEnc => exact ⟨_, _, rfl, rfl⟩
    | similarEncComp => exact ⟨_, _, rfl, rfl⟩
    | fullEdr => exact absurd rfl hm
  obtain ⟨data, fs, hitem, hfp⟩ := hitem
  rw [sendChunk, hitem, hfp]
  simp only [UploadState.runItem_normal]
  split <;> rfl

theorem chunks_normal (hm : method ≠ .fullEdr) (chunks : List (PlainChunk × KeyForChunkHashDB)) :
    chunks.foldlM (sendChunk cfg method) u =
      if ∀ c ∈ chunks, recvFp cfg method c.1 ∈ u.state.srv.fp2AddrDb then .ok u
      else .error .dualInputType := by
  induction chunks with
  | nil => rw [if_pos (fun c hc => absurd hc List.not_mem_nil)]; rfl
  | cons c chunks ih =>
      rw [List.foldlM_cons, sendChunk_normal hm]
      by_cases hc : recvFp cfg method c.1 ∈ u.state.srv.fp2AddrDb
      · rw [if_pos hc, ok_bind, ih]
        simp only [List.forall_mem_cons, hc, true_and]
      · rw [if_neg hc, error_bind, if_neg]
        intro hall
        exact hc (hall c List.mem_cons_self)

/-! ## A full-EDR upload -/

theorem runWriter_avoids {s : UploadState} {chunk : WrappedChunk}
    (h : chunk.info.stat = .uniqueChunk ∨ chunk.info.stat = .cacheDeltaChunk) :
    Avoids (.cacheChunkType :: defaultExits) (UploadState.runWriter cfg s chunk) := by
  refine Avoids.bind ?_ fun r _ => Avoids.ok _
  intro e he
  rcases DataWriterThd.runChunk_error he with ⟨-, h1, h2⟩ | ⟨rfl, -⟩ | ⟨rfl, -⟩
  · rcases h with hs | hs
    · exact absurd hs h2
    · exact absurd hs h1
  · decide
  · decide

/-- What a single chunk can end the server with. -/
theorem runCache_exits {s : UploadState} {chunk : WrappedChunk}
    (h : chunk.info.stat = .uniqueChunk) {e : Exit}
    (he : UploadState.runCache cfg s chunk = .error e) :
    e ∉ .cacheChunkType :: defaultExits ∨ (e = .cacheChunkType ∧
      ∀ f ∈ chunk.info.features.toList, s.informCache.localFeature2FpDb.lookup f = none) := by
  rcases UploadState.runCache_single_error h he with hc | ⟨rfl, -⟩ | rfl | ⟨chunk', hs, hw⟩
  · exact Or.inr hc
  · exact Or.inl (by decide)
  · exact Or.inl (by decide)
  · exact Or.inl (runWriter_avoids hs e hw)

/-- Both sides know the same features. -/
def SameFeatures (u : Upload) : Prop :=
  ∀ f, f ∈ u.state.informCache.localFeature2FpDb ↔ f ∈ u.cacheMeta.feature2VersionIdx

/-- A chunk of a full-EDR upload ends the server in no default branch, and in
the cache only if the two sides know different features. -/
theorem sendChunk_exits {c : PlainChunk × KeyForChunkHashDB} {e : Exit}
    (he : sendChunk cfg .fullEdr u c = .error e) :
    e ∉ .cacheChunkType :: defaultExits ∨ (e = .cacheChunkType ∧ ¬ SameFeatures u) := by
  rcases bind_error he with he | ⟨r, -, he⟩
  · rcases sendItem_cases cfg u.cacheMeta c.1 with ⟨⟨f, hf, hm⟩, heq⟩ | ⟨hq, heq⟩
    · rw [heq, UploadState.runItem_single (c.1.fp cfg) rfl rfl] at he
      split at he
      · exact nomatch he
      · rcases bind_error he with he | ⟨s, -, he⟩
        · rcases runCache_exits rfl he with hno | ⟨he, hno⟩
          · exact Or.inl hno
          · refine Or.inr ⟨he, fun hsame => ?_⟩
            obtain ⟨fp, hfp⟩ := Index.lookup_isSome_of_mem ((hsame f).mpr hm)
            exact nomatch (hno f hf).symm.trans hfp
        · exact nomatch he
    · rw [heq, UploadState.runItem_pair (c.1.fp cfg) rfl rfl] at he
      simp only at he
      split at he
      · exact nomatch he
      · rcases bind_error he with he | ⟨s, -, he⟩
        · exact Or.inl (runWriter_avoids (Or.inl rfl) e he)
        · exact nomatch he
  · exact nomatch he

/-- Both sides go on knowing the same features. -/
theorem sameFeatures_sendChunk {c : PlainChunk × KeyForChunkHashDB} {u' : Upload}
    (h : SameFeatures u) (hs : sendChunk cfg .fullEdr u c = .ok u') : SameFeatures u' := by
  obtain ⟨r, hr, hs⟩ := bind_ok hs
  cases hs
  obtain ⟨-, hd⟩ := runItem_done hr
  generalize (SenderThd.sendItem cfg .fullEdr u.cacheMeta _).2 = m at hd
  obtain ⟨s', fp⟩ := r
  intro f
  have hpair : f ∈ (u.state.informCache.insertCachedChunk
        (c.1.cacheChunk cfg c.2)).localFeature2FpDb ↔
      f ∈ ((u.cacheMeta.queryCacheMeta (c.1.features cfg)).2.updateCacheMeta
        (c.1.features cfg)).feature2VersionIdx := by
    rw [CacheMeta.mem_updateCacheMeta, CacheMeta.mem_queryCacheMeta, ← h f, Index.mem_iff_lookup,
      InformCache.lookup_insertCachedChunk_feature]
    show (∃ fp, (if f ∈ (c.1.features cfg).toList then some (c.1.fp cfg)
      else u.state.informCache.localFeature2FpDb.lookup f) = some fp) ↔ _
    by_cases hf : f ∈ (c.1.features cfg).toList
    · rw [if_pos hf]
      exact ⟨fun _ => Or.inl hf, fun _ => ⟨_, rfl⟩⟩
    · rw [if_neg hf, ← Index.mem_iff_lookup]
      exact ⟨Or.inr, fun h => h.resolve_left hf⟩
  have hsingle : f ∈ u.state.informCache.localFeature2FpDb ↔
      f ∈ (u.cacheMeta.queryCacheMeta (c.1.features cfg)).2.feature2VersionIdx := by
    rw [CacheMeta.mem_queryCacheMeta]
    exact h f
  cases hd with
  | pairOld hq hm => exact hpair
  | pairNew hq hm hw =>
      show f ∈ s'.informCache.localFeature2FpDb ↔ _
      rw [World.runWriter_informCache hw]
      exact hpair
  | singleOld hq hm => exact hsingle
  | singleDelta hq hm hf hb hv hd he hw =>
      show f ∈ s'.informCache.localFeature2FpDb ↔ _
      rw [World.runWriter_informCache hw]
      exact hsingle
  | singlePlain hq hm h0 hw =>
      show f ∈ s'.informCache.localFeature2FpDb ↔ _
      rw [World.runWriter_informCache hw]
      exact hsingle

/-- Evictions end the server in no default branch, whatever the method. -/
theorem runEvict_avoids (s : UploadState) (features : List Feature) :
    Avoids (.cacheChunkType :: defaultExits) (s.runEvict cfg World.evictInfo features) := by
  rw [UploadState.runEvict_eq]
  refine Avoids.bind ?_ fun _ _ => Avoids.ok _
  refine Avoids.foldlM (fun _ => True) (fun c f _ _ => ?_) (fun _ _ _ _ _ _ => trivial) trivial
  unfold InformCache.evictFeature
  split
  · split
    · exact Avoids.ok _
    · exact Avoids.error (by decide)
  · exact Avoids.error (by decide)

theorem evictions_avoid (evictions : List (List Feature)) (s : UploadState) :
    Avoids (.cacheChunkType :: defaultExits)
      (evictions.foldlM (fun s features => s.runEvict cfg World.evictInfo features) s) :=
  Avoids.foldlM (fun _ => True) (fun s features _ _ => runEvict_avoids s features)
    (fun _ _ _ _ _ _ => trivial) trivial

theorem fullEdr_avoids (u : Upload) (chunks : List (PlainChunk × KeyForChunkHashDB))
    (evictions : List (List Feature)) :
    Avoids defaultExits (run cfg .fullEdr u chunks evictions) := by
  refine Avoids.bind ?_ fun u' _ =>
    (evictions_avoid evictions u'.state).mono fun _ => List.mem_cons_of_mem _
  refine Avoids.foldlM (fun _ => True) (fun u c _ _ e he => ?_)
    (fun _ _ _ _ _ _ => trivial) trivial
  rcases sendChunk_exits he with hno | ⟨rfl, -⟩
  · exact fun hm => hno (List.mem_cons_of_mem _ hm)
  · decide

theorem fullEdr_avoids_cache (u : Upload) (h : SameFeatures u)
    (chunks : List (PlainChunk × KeyForChunkHashDB)) (evictions : List (List Feature)) :
    Avoids [.cacheChunkType] (run cfg .fullEdr u chunks evictions) := by
  have hsub : ∀ e ∈ [Exit.cacheChunkType], e ∈ .cacheChunkType :: defaultExits := by decide
  refine Avoids.bind ?_ fun u' _ => (evictions_avoid evictions u'.state).mono hsub
  refine Avoids.foldlM SameFeatures (fun u c _ hu e he => ?_)
    (fun u c u' _ hu hs => sameFeatures_sendChunk hu hs) h
  rcases sendChunk_exits he with hno | ⟨-, hno⟩
  · exact fun hm => hno (hsub e hm)
  · exact absurd hu hno

/-- An upload reaches no default branch if and only if its method is full-EDR,
or it has no new chunk; and a full-EDR upload between two sides that know the
same features does not end in the cache stage either. -/
theorem no_default_branch_iff (u : Upload) (chunks : List (PlainChunk × KeyForChunkHashDB))
    (evictions : List (List Feature)) :
    (Avoids defaultExits (run cfg method u chunks evictions) ↔
      method = .fullEdr ∨ ∀ c ∈ chunks, recvFp cfg method c.1 ∈ u.state.srv.fp2AddrDb) ∧
    (method = .fullEdr → SameFeatures u →
      Avoids [.cacheChunkType] (run cfg method u chunks evictions)) := by
  refine ⟨⟨?_, ?_⟩, ?_⟩
  · intro h
    refine Classical.or_iff_not_imp_left.mpr fun hm => ?_
    refine Classical.by_contradiction fun hall => ?_
    refine h .dualInputType ?_ (by decide)
    simp only [run, chunks_normal hm, if_neg hall, error_bind]
  · intro hor
    cases method with
    | fullEdr => exact fullEdr_avoids u chunks evictions
    | onlySimilarEnc =>
        rw [run, chunks_normal (by decide), if_pos (hor.resolve_left (by decide)), ok_bind]
        exact (evictions_avoid evictions u.state).mono fun _ => List.mem_cons_of_mem _
    | similarEncComp =>
        rw [run, chunks_normal (by decide), if_pos (hor.resolve_left (by decide)), ok_bind]
        exact (evictions_avoid evictions u.state).mono fun _ => List.mem_cons_of_mem _
  · rintro rfl h
    exact fullEdr_avoids_cache u h chunks evictions

/-- One chunk sent as it is, to a server that has nothing yet. -/
def normalSample : Except Exit UploadState :=
  run Components.plain .onlySimilarEnc
    ⟨⟨.empty, (StorageCore.empty.openClient Components.plain).2, InformCache.loadCntIdx .none⟩,
      CacheMeta.new none⟩
    [(⟨[10, 5], [9], 0⟩, ⟨.uniqueChunk, [], 0, 0, []⟩)] []

/-- The first chunk of such an upload ends the server in a default branch. -/
theorem normal_chunk_exits : ¬ Avoids defaultExits normalSample :=
  fun h => h .dualInputType (by rfl) (by decide)

end Upload

end EDRStore
