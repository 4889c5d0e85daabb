/-
# `EDRStore.IndexOrder` — in which order the two indexes are published

For a non-similar chunk `DataWriterThd::Run` inserts the features first and the
record last:

    WriteChunk    UpdateFeatureIndex (three inserts)    fp_2_addr_db insert

so every chunk that ever enters the feature index is there, for a while, with
the placeholder of `DetectDuplicate` as its record.  The very first insert of a
run already leaves the claimed order; until then no writer can find a base.
Between two turns of the loops the order holds, as long as no chunk is admitted
twice.
-/
import EDRStore.AdmitOnce

namespace EDRStore

/-- `UpdateFeatureIndex` inserts one feature. -/
theorem ClientVar.Stepped.inserts_feature {cfg : Components} {srv srv' : Server}
    {t t' : ClientVar} {evs : List Event} (hs : Stepped cfg srv t .write srv' t' evs)
    {c : WrappedChunk} {f : Feature} {todo : List Feature}
    (hw : t.writer = .features c (f :: todo)) :
    srv' = { srv with feature2FpDb := srv.feature2FpDb.insert f c.info.fp } ∧
      t' = { t with writer := .features c todo } ∧ evs = [] := by
  cases hs with
  | feature hw' =>
      rw [hw] at hw'
      cases hw'
      exact ⟨rfl, rfl, rfl⟩
  | store hst =>
      rw [hw] at hst
      exact nomatch hst
  | popDelta hw' => exact nomatch hw'.symm.trans hw
  | popUnique hw' => exact nomatch hw'.symm.trans hw
  | find hw' => exact nomatch hw'.symm.trans hw
  | similar hw' => exact nomatch hw'.symm.trans hw
  | nonSimilar hw' => exact nomatch hw'.symm.trans hw
  | fetch hw' => exact nomatch hw'.symm.trans hw
  | read hw' => exact nomatch hw'.symm.trans hw
  | featuresEnd hw' => exact nomatch hw'.symm.trans hw
  | publish hw' => exact nomatch hw'.symm.trans hw
  | writeEnd hw' => exact nomatch hw'.symm.trans hw

namespace Service

/-- `fp_2_addr_db` has the final record of a base chunk. -/
def FinalBase (w : Service) (fp : Fp) : Prop :=
  ∃ s addr, (s, .published fp addr) ∈ w.trace ∧ addr.stat = .compBaseChunk ∧
    w.srv.fp2AddrDb.lookup fp = some addr

/-- Every chunk that a feature maps to has its final record. -/
def FeaturesFinal (w : Service) : Prop :=
  ∀ f fp, w.srv.feature2FpDb.lookup f = some fp → w.FinalBase fp

/-- The step is an insert of `UpdateFeatureIndex`. -/
def insertsFeature (w : Service) : Action → Bool
  | .thread s .write =>
      match (w.clients.lookup s).map ClientVar.writer with
      | some (.features _ (_ :: _)) => true
      | _ => false
  | _ => false

variable {cfg : Components} {w w' : Service} {a : Action}

theorem insertsFeature_iff : w.insertsFeature a = true ↔ ∃ s t c f todo,
    a = .thread s .write ∧ w.clients.lookup s = some t ∧ t.writer = .features c (f :: todo) := by
  constructor
  · intro h
    unfold insertsFeature at h
    split at h
    · rename_i s
      split at h
      · rename_i c f todo hm
        obtain ⟨t, hs, hw⟩ := Option.map_eq_some_iff.mp hm
        exact ⟨s, t, c, f, todo, rfl, hs, hw⟩
      · exact nomatch h
    · exact nomatch h
  · rintro ⟨s, t, c, f, todo, rfl, hs, hw⟩
    simp only [insertsFeature, hs, Option.map_some, hw]

/-! ## Until the first insert -/

/-- A writer that has inserted no feature. -/
def NoFeatureIn : WriterPc → Prop
  | .features c todo => todo = c.info.features.toList ∧ c.info.addr.stat = .compBaseChunk
  | .publish c => c.info.addr.stat ≠ .compBaseChunk
  | _ => True

/-- No base has been published. -/
structure NoBaseYet (w : Service) : Prop where
  features : w.srv.feature2FpDb = ∅
  published : ∀ {s fp addr}, (s, .published fp addr) ∈ w.trace → addr.stat ≠ .compBaseChunk
  writers : ∀ {s t}, w.clients.lookup s = some t → NoFeatureIn t.writer

theorem noBaseYet_init : init.NoBaseYet where
  features := rfl
  published := fun h => absurd h List.not_mem_nil
  writers := fun h => by simp [init] at h

theorem NoBaseYet.featuresFinal (h : w.NoBaseYet) : w.FeaturesFinal := by
  intro f fp hl
  rw [h.features, Finmap.lookup_empty] at hl
  exact nomatch hl

/-- The writer of a session that inserts no feature. -/
theorem noFeatureIn_step {srv srv' : Server} {t t' : ClientVar} {a : ThreadAction}
    {evs : List Event} (h : NoFeatureIn t.writer)
    (ht : ClientVar.Stepped cfg srv t a srv' t' evs)
    (hn : ∀ c f todo, t.writer = .features c (f :: todo) → a ≠ .write) :
    NoFeatureIn t'.writer := by
  by_cases ha : a = .write
  · cases ht with
    | popDelta hw hq hst => trivial
    | popUnique hw hq hst => trivial
    | find hw => trivial
    | similar hw hst => trivial
    | nonSimilar hw hst => trivial
    | fetch hw hl => trivial
    | read hw hr =>
        show NoFeatureIn (if _ then _ else _)
        split <;> trivial
    | store hst =>
        generalize t.writer = pc at hst
        cases hst with
        | avoid c base => trivial
        | delta c base he => exact fun hx => nomatch hx
        | plain c => exact ⟨rfl, rfl⟩
        | cacheDelta c => exact fun hx => nomatch hx
    | feature hw => exact absurd rfl (hn _ _ _ hw)
    | featuresEnd hw =>
        rw [hw] at h
        exact nomatch h.1
    | publish hw => trivial
    | writeEnd hw hq hd => trivial
    | _ => exact nomatch ha
  · rw [ht.writer_eq ha]
    exact h

theorem noBaseYet_step (h : w.NoBaseYet) (hn : w.insertsFeature a = false)
    (hs : Stepped cfg w a w') : w'.NoBaseYet := by
  cases hs with
  | @login s c hl hsn =>
      refine ⟨h.features, h.published, ?_⟩
      intro u x hx
      rw [Index.lookup_insert_ite] at hx
      split at hx
      · cases hx; trivial
      · exact h.writers hx
  | @thread s a t srv' t' evs hst ht =>
      have hno : ∀ c f todo, t.writer = .features c (f :: todo) → a ≠ .write := by
        rintro c f todo hw rfl
        rw [insertsFeature_iff.mpr ⟨s, t, c, f, todo, rfl, hst, hw⟩] at hn
        exact nomatch hn
      refine ⟨?_, ?_, ?_⟩
      · rcases ht.features with heq | ⟨c, f, todo, hw, -, -, -⟩
        · exact heq.trans h.features
        · cases ht <;> first | exact absurd rfl (hno c f todo hw) | exact h.features
      · intro u fp addr hm
        rcases List.mem_append.mp hm with hm | hm
        · exact h.published hm
        · obtain ⟨e, hm, heq⟩ := List.mem_map.mp hm
          cases heq
          obtain ⟨c, hw, rfl, rfl⟩ := ht.published hm
          have hwr := h.writers hst
          rw [hw] at hwr
          exact hwr
      · intro u x hx
        rw [Index.lookup_insert_ite] at hx
        split at hx
        · cases hx
          exact noFeatureIn_step (h.writers hst) ht hno
        · exact h.writers hx
  | @logout s t cntOrder idxOrder hst hw hi =>
      have hwr := h.writers hst
      refine ⟨h.features, h.published, ?_⟩
      intro u x hx
      rw [Index.lookup_insert_ite] at hx
      split at hx
      · cases hx; exact hwr
      · exact h.writers hx

/-- The first insert maps a feature to a chunk that has no final record. -/
theorem NoBaseYet.first_insert (h : w.NoBaseYet) (hi : w.insertsFeature a = true)
    (hs : Stepped cfg w a w') : ¬ w'.FeaturesFinal := by
  intro hf
  obtain ⟨s, t, c, f, todo, rfl, hlook, hw⟩ := insertsFeature_iff.mp hi
  cases hs with
  | @thread s a t' srv' t₁ evs hst ht =>
      obtain rfl := Option.some.inj (hst.symm.trans hlook)
      obtain ⟨rfl, -, rfl⟩ := ht.inserts_feature hw
      obtain ⟨u, addr, hm, hstat, -⟩ := hf f c.info.fp (by rw [Index.lookup_insert_ite, if_pos rfl])
      rw [List.map_nil, List.append_nil] at hm
      exact h.published hm hstat

/-- The order holds throughout a run exactly if the run inserts no feature. -/
theorem features_final_iff_from {as : List Action} (h : w.NoBaseYet)
    (hrun : runSteps (step cfg) w as = .ok w') :
    (Allowed (step cfg) (fun w _ => w.FeaturesFinal) w as ∧ w'.FeaturesFinal) ↔
      Allowed (step cfg) (fun w a => w.insertsFeature a = false) w as := by
  refine allowed_iff NoBaseYet FeaturesFinal (fun _ h => h.featuresFinal) ?_ ?_ h allowed_true hrun
  · intro w a w₁ h _ hn h₁
    exact noBaseYet_step h hn (step_stepped h₁)
  · intro w a w₁ h _ hfinal h₁
    cases hi : w.insertsFeature a with
    | false => rfl
    | true => exact absurd hfinal (h.first_insert hi (step_stepped h₁))

/-- In a whole run of the service. -/
theorem features_final_iff {as : List Action} (h : runSteps (step cfg) init as = .ok w) :
    (Allowed (step cfg) (fun w _ => w.FeaturesFinal) init as ∧ w.FeaturesFinal) ↔
      Allowed (step cfg) (fun w a => w.insertsFeature a = false) init as :=
  features_final_iff_from noBaseYet_init h

/-! ## Between two turns of the loops -/

/-- A chunk in the feature index has its final record, or is in the hand of a
writer that has not come to its last insert yet. -/
theorem features_final_between (h : Reach (step cfg) (NoOverlap cfg) init w) {f : Feature} {fp : Fp}
    (hl : w.srv.feature2FpDb.lookup f = some fp) : w.FinalBase fp ∨
      ∃ s t c, w.clients.lookup s = some t ∧ t.writer.stored? = some c ∧ c.info.fp = fp := by
  have hx := exclusive_reach h
  rcases hx.settled hl with ⟨s, addr, hm, hb⟩ | ⟨s, t, c, hs, hc, hfp, -⟩
  · exact Or.inl ⟨s, addr, hm, hb, hx.once.final trivial (mem_published.mpr hm)⟩
  · exact Or.inr ⟨s, t, c, hs, hc, hfp⟩

/-! ### A base looked up too early -/

/-- A chunk with the features of `raceItem`. -/
def similarItem : List SendChunk :=
  [⟨.fullEdrCacheChunk, [1, 8], ⟨1, 2, 3⟩, []⟩, ⟨.normalChunk, [3, 7], ⟨1, 2, 3⟩, []⟩]

/-- What `tmp_chunk.info.addr` holds before it is ever assigned. -/
def neverAssigned : KeyForChunkHashDB := ⟨.compBaseChunk, [7], 5, 3, []⟩

/-- One writer stops before its last insert; the other looks for a base. -/
def earlyBase : List Action :=
  [.login 0 0, .login 1 1, .thread 0 (.recv neverAssigned raceItem),
    .thread 1 (.recv neverAssigned similarItem),
    .thread 0 .dual, .thread 0 .dual, .thread 0 .dual, .thread 1 .dual, .thread 1 .dual,
    .thread 1 .dual, .thread 0 .comp, .thread 0 .comp, .thread 1 .comp, .thread 1 .comp] ++
  List.replicate 9 (.thread 0 .write) ++ List.replicate 6 (.thread 1 .write)

def earlyBaseEnd : Service := endOf (step Components.plain) init earlyBase

/-- A base is about to be read at an address that was never assigned. -/
theorem base_read_too_early : runSteps (step Components.plain) init earlyBase = .ok earlyBaseEnd ∧
    earlyBaseEnd.srv.feature2FpDb.lookup 7 = some [1, 7, 2, 7] ∧
    earlyBaseEnd.srv.fp2AddrDb.lookup [1, 7, 2, 7] = some neverAssigned ∧
    (earlyBaseEnd.clients.lookup 1).map ClientVar.writer =
      some (.read ⟨⟨[1, 8, 3, 7], ⟨7, 263, 519⟩,
        { neverAssigned with baseFp := [1, 7, 2, 7] }, .similarChunk⟩, [3, 7], []⟩ neverAssigned) ∧
    ¬ earlyBaseEnd.FeaturesFinal := by
  refine ⟨runSteps_endOf (by decide +kernel), by decide +kernel, by decide +kernel,
    by decide +kernel, fun h => ?_⟩
  obtain ⟨s, addr, hm, -⟩ := h 7 [1, 7, 2, 7] (by decide +kernel)
  have hn : ∀ e ∈ earlyBaseEnd.trace, e.2.published? = none := by decide +kernel
  exact nomatch hn _ hm

/-- The two uploads keep the order until a writer has come to its features. -/
theorem features_final_sample :
    (endOf (step Components.plain) init raceStart).FeaturesFinal ∧
    ¬ (Allowed (step Components.plain) (fun w _ => w.FeaturesFinal) init earlyBase ∧
      earlyBaseEnd.FeaturesFinal) := by
  constructor
  · exact ((features_final_iff (runSteps_endOf (by decide +kernel))).mpr (by decide +kernel)).2
  · intro h
    have hno := (features_final_iff (runSteps_endOf (by decide +kernel))).mp h
    revert hno
    decide +kernel

end Service

end EDRStore
