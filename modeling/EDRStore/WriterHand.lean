/-
# `EDRStore.WriterHand` — the chunk `DataWriterThd` is working on

What the program counter of a writer says about the chunk in its hands: whether
its bytes are already in a container (`stored?`), and what is known of the base
it is to be compressed against (`Based`).  A base is looked up in one step, read
in another and named in the record in a third; a fact about bases that holds
when they are looked up is still there when the record is published.
-/
import EDRStore.InFlight

namespace EDRStore

/-! ## Bases while they are counted -/

/-- All bases counted so far satisfy `P`. -/
def FeatureMatch.Among (P : Fp → Prop) (m : FeatureMatch) : Prop :=
  ∃ bs, SimilarPolicy.Counted bs m ∧ ∀ b ∈ bs, P b

namespace FeatureMatch

variable {P Q : Fp → Prop} {m : FeatureMatch}

theorem among_noMatch (P : Fp → Prop) : Among P SimilarPolicy.noMatch :=
  ⟨[], SimilarPolicy.counted_noMatch [], fun _ h => absurd h List.not_mem_nil⟩

theorem Among.mono (h : m.Among P) (hPQ : ∀ b, P b → Q b) : m.Among Q := by
  obtain ⟨bs, hc, hbs⟩ := h
  exact ⟨bs, hc, fun b hb => hPQ b (hbs b hb)⟩

theorem Among.count (h : m.Among P) {a : Option Fp} (ha : ∀ b, a = some b → P b) :
    (SimilarPolicy.countFeature m a).Among P := by
  obtain ⟨bs, hc, hbs⟩ := h
  cases a with
  | none => exact ⟨bs, hc, hbs⟩
  | some b =>
      refine ⟨b :: bs, (hc.weaken fun _ => List.mem_cons_of_mem b).count ?_, ?_⟩
      · intro b' hb'
        cases hb'
        exact List.mem_cons_self
      · intro b' hb'
        rcases List.mem_cons.mp hb' with rfl | hb'
        · exact ha _ rfl
        · exact hbs b' hb'

/-- The base chosen is one of the bases counted. -/
theorem Among.choose (h : m.Among P) {info : ChunkInfo}
    (hs : (SimilarPolicy.chooseBase m info).stat = .similarChunk) :
    P (SimilarPolicy.chooseBase m info).addr.baseFp := by
  obtain ⟨bs, hc, hbs⟩ := h
  cases hm : m.firstMatchBaseFp with
  | none =>
      rw [SimilarPolicy.chooseBase_none hm] at hs
      exact nomatch hs
  | some first =>
      obtain ⟨base, hb, heq⟩ := SimilarPolicy.chooseBase_some hc hm info
      rw [heq]
      exact hbs base hb

end FeatureMatch

/-! ## The chunk in hand -/

namespace WriterPc

/-- The chunk in hand, once its bytes are in a container. -/
def stored? : WriterPc → Option WrappedChunk
  | .features c _ => some c
  | .publish c => some c
  | _ => none

/-- `P own base` holds of the chunk in hand and the base it is compressed
against. -/
def Based (P : Fp → Fp → Prop) : WriterPc → Prop
  | .find c m _ => m.Among (P c.info.fp)
  | .fetch c => P c.info.fp c.info.addr.baseFp
  | .read c _ => P c.info.fp c.info.addr.baseFp
  | .avoid c _ => P c.info.fp c.info.addr.baseFp
  | .delta c _ => P c.info.fp c.info.addr.baseFp
  | .features c _ => c.info.addr.stat = .compBaseChunk
  | .publish c => c.info.addr.stat = .compDeltaChunk → P c.info.fp c.info.addr.baseFp
  | _ => True

variable {P Q : Fp → Fp → Prop} {pc : WriterPc}

theorem Based.mono (h : pc.Based P) (hPQ : ∀ own base, P own base → Q own base) :
    pc.Based Q := by
  cases pc with
  | find c m todo => exact FeatureMatch.Among.mono h (hPQ _)
  | fetch c => exact hPQ _ _ h
  | read c baseAddr => exact hPQ _ _ h
  | avoid c base => exact hPQ _ _ h
  | delta c base => exact hPQ _ _ h
  | features c todo => exact h
  | publish c => exact fun hs => hPQ _ _ (h hs)
  | pop => trivial
  | plain c => trivial
  | cacheDelta c => trivial
  | ended => trivial

theorem chunk?_of_stored? {c : WrappedChunk} (h : pc.stored? = some c) : pc.chunk? = some c := by
  cases pc with
  | features c' todo => exact h
  | publish c' => exact h
  | _ => exact nomatch h

end WriterPc

namespace ClientVar

variable {cfg : Components} {srv srv' : Server} {t t' : ClientVar} {a : ThreadAction}
  {evs : List Event} {P : Fp → Fp → Prop}

/-- The chunk in hand is held. -/
theorem inHand_held {c : WrappedChunk} (h : t.writer.chunk? = some c) : c.info.fp ∈ t.held := by
  simp only [held, h, inHand_some]
  simp

/-- Only the steps of the writer change its program counter. -/
theorem Stepped.writer_eq (hs : Stepped cfg srv t a srv' t' evs) (ha : a ≠ .write) :
    t'.writer = t.writer := by
  cases hs <;> first | rfl | exact absurd rfl ha

/-- The bytes of the chunk in hand were stored before, or are by this step. -/
theorem Stepped.stored (hs : Stepped cfg srv t a srv' t' evs) {c : WrappedChunk}
    (hc : t'.writer.stored? = some c) : t.writer.stored? = some c ∨
      ∃ addr data, evs = [.wrote c.info.fp addr data] ∧ addr.extent = c.info.addr.extent := by
  by_cases ha : a = .write
  · cases hs with
    | store hst =>
        generalize t.writer = pc at hst
        cases hst with
        | avoid c' base => exact nomatch hc
        | delta c' base he => cases hc; exact Or.inr ⟨_, _, rfl, rfl⟩
        | plain c' => cases hc; exact Or.inr ⟨_, _, rfl, rfl⟩
        | cacheDelta c' => cases hc; exact Or.inr ⟨_, _, rfl, rfl⟩
    | feature hw => cases hc; exact Or.inl (by rw [hw]; rfl)
    | featuresEnd hw => cases hc; exact Or.inl (by rw [hw]; rfl)
    | read hw hr =>
        simp only at hc
        split at hc <;> exact nomatch hc
    | _ => contradiction
  · rw [hs.writer_eq ha] at hc
    exact Or.inl hc

/-- A record is published for the chunk in hand. -/
theorem Stepped.published (hs : Stepped cfg srv t a srv' t' evs) {fp : Fp}
    {addr : KeyForChunkHashDB} (he : .published fp addr ∈ evs) :
    ∃ c, t.writer = .publish c ∧ fp = c.info.fp ∧ addr = c.info.addr := by
  cases hs with
  | publish hw =>
      cases List.mem_singleton.mp he
      exact ⟨_, hw, rfl, rfl⟩
  | store hst => cases List.mem_singleton.mp he
  | recvUnique hp hd ht hm => cases List.mem_singleton.mp he
  | dualUnique hp hq hst hm => cases List.mem_singleton.mp he
  | _ => exact absurd he List.not_mem_nil

/-- A fact about bases, known when they are looked up, stays with the chunk. -/
theorem Stepped.based (hs : Stepped cfg srv t a srv' t' evs)
    (hf : ∀ {c m todo f b}, t.writer = .find c m todo → srv.feature2FpDb.lookup f = some b →
      P c.info.fp b) (h : t.writer.Based P) : t'.writer.Based P := by
  by_cases ha : a = .write
  · cases hs with
    | popDelta hw hq hst => trivial
    | popUnique hw hq hst => exact FeatureMatch.among_noMatch _
    | find hw =>
        rw [hw] at h
        exact FeatureMatch.Among.count h fun b hb => hf hw hb
    | @similar c m hw hst =>
        rw [hw] at h
        have hb := FeatureMatch.Among.choose h hst
        show P (SimilarPolicy.chooseBase m c.info).fp (SimilarPolicy.chooseBase m c.info).addr.baseFp
        rw [SimilarPolicy.chooseBase_fp]
        exact hb
    | nonSimilar hw hst => trivial
    | fetch hw hl => rw [hw] at h; exact h
    | read hw hr =>
        rw [hw] at h
        simp only
        split <;> exact h
    | store hst =>
        generalize t.writer = pc at hst h
        cases hst with
        | avoid c base => exact h
        | delta c base he => exact fun _ => h
        | plain c => rfl
        | cacheDelta c => exact fun hx => nomatch hx
    | feature hw => rw [hw] at h; exact h
    | featuresEnd hw =>
        rw [hw] at h
        intro hx
        rw [show _ = ChunkStatus.compBaseChunk from h] at hx
        exact nomatch hx
    | publish hw => trivial
    | writeEnd hw hq hd => trivial
    | _ => exact nomatch ha
  · rw [hs.writer_eq ha]
    exact h

/-- The feature index changes only in `UpdateFeatureIndex`, for the chunk in
hand. -/
theorem Stepped.features (hs : Stepped cfg srv t a srv' t' evs) :
    srv'.feature2FpDb = srv.feature2FpDb ∨
      ∃ c f todo, t.writer = .features c (f :: todo) ∧
        t'.writer = .features c todo ∧ srv'.fp2AddrDb = srv.fp2AddrDb ∧
        srv'.feature2FpDb = srv.feature2FpDb.insert f c.info.fp := by
  cases hs with
  | feature hw => exact Or.inr ⟨_, _, _, hw, rfl, rfl, rfl⟩
  | _ => exact Or.inl rfl

/-! ## Where a recipe's fingerprints are -/

/-- The fingerprint is known, about to be inserted, or still to be checked. -/
def OnTheWay (db : Index Fp KeyForChunkHashDB) (t : ClientVar) (fp : Fp) : Prop :=
  fp ∈ db ∨ fp ∈ t.claimed ∨ ∃ c ∈ t.recv2DualMq.items, c.info.fp = fp ∧
    (c.info.stat = .chunkPair ∨ c.info.stat = .singleChunk)

/-- The fingerprint of an item's recipe entry is that of a chunk it pushes. -/
theorem pushes_fp {addr : KeyForChunkHashDB} {item : List SendChunk} {chunks : List WrappedChunk}
    {fp : Fp} (hi : DataRecvThd.Pushes cfg addr item chunks fp) :
    ∃ c ∈ chunks, c.info.fp = fp ∧ (c.info.stat = .chunkPair ∨ c.info.stat = .singleChunk) := by
  cases hi with
  | pair ht hfp =>
      exact ⟨_, List.mem_cons_of_mem _ (List.mem_singleton.mpr rfl), rfl, Or.inl rfl⟩
  | single ht hfp => exact ⟨_, List.mem_singleton.mpr rfl, rfl, Or.inr rfl⟩

theorem mem_claimed_dual {c : WrappedChunk} (h : t.dualPending = some c) :
    c.info.fp ∈ t.claimed := by
  simp [claimed, h]

/-- Taking an element that needs no check off the first queue. -/
theorem OnTheWay.popped {db : Index Fp KeyForChunkHashDB} {fp : Fp} (h : OnTheWay db t fp)
    {c : WrappedChunk} {q : List WrappedChunk} (hq : t.recv2DualMq.items = c :: q)
    (hc : t'.claimed = t.claimed) (hq' : t'.recv2DualMq.items = q)
    (hk : c.info.fp = fp → (c.info.stat = .chunkPair ∨ c.info.stat = .singleChunk) → fp ∈ db) :
    OnTheWay db t' fp := by
  rcases h with h | h | ⟨x, hx, hfp, hst⟩
  · exact Or.inl h
  · exact Or.inr (Or.inl (hc ▸ h))
  · rw [hq] at hx
    rcases List.mem_cons.mp hx with rfl | hx
    · exact Or.inl (hk hfp hst)
    · exact Or.inr (Or.inr ⟨x, hq' ▸ hx, hfp, hst⟩)

/-- Nothing is lost between the recipe and the index. -/
theorem Stepped.recipe (hs : Stepped cfg srv t a srv' t' evs)
    (h : ∀ fp ∈ t.fileRecipe, OnTheWay srv.fp2AddrDb t fp) :
    ∀ fp ∈ t'.fileRecipe, OnTheWay srv'.fp2AddrDb t' fp := by
  -- the chunks in the first queue, and what is claimed, are still there
  have hkeep : ∀ {fp}, OnTheWay srv.fp2AddrDb t fp →
      (fp ∈ srv.fp2AddrDb → fp ∈ srv'.fp2AddrDb) →
      (fp ∈ t.claimed → fp ∈ t'.claimed ∨ fp ∈ srv'.fp2AddrDb) →
      (∀ c ∈ t.recv2DualMq.items, c ∈ t'.recv2DualMq.items) → OnTheWay srv'.fp2AddrDb t' fp := by
    rintro fp (h | h | ⟨c, hc, hfp⟩) hdb hcl hq
    · exact Or.inl (hdb h)
    · rcases hcl h with h | h
      · exact Or.inr (Or.inl h)
      · exact Or.inl h
    · exact Or.inr (Or.inr ⟨c, hq c hc, hfp⟩)
  have hins : ∀ {fp : Fp} {info : ChunkInfo}, fp ∈ srv.fp2AddrDb →
      fp ∈ (srv.enter info).fp2AddrDb := fun h => Finmap.mem_insert.mpr (Or.inr h)
  cases hs with
  | @recvPush addr item chunks fp hp hd hi =>
      intro fp' hfp'
      rcases List.mem_append.mp hfp' with hfp' | hfp'
      · exact hkeep (h fp' hfp') id Or.inl fun c hc => List.mem_append_left _ hc
      · cases List.mem_singleton.mp hfp'
        obtain ⟨c, hc, hfp, hst⟩ := pushes_fp hi
        exact Or.inr (Or.inr ⟨c, List.mem_append_right _ hc, hfp, hst⟩)
  | recvKnown hp hd ht hm =>
      intro fp hfp
      rcases List.mem_append.mp hfp with hfp | hfp
      · exact hkeep (h fp hfp) id Or.inl fun c hc => hc
      · cases List.mem_singleton.mp hfp
        exact Or.inl hm
  | recvUnique hp hd ht hm =>
      intro fp hfp
      refine hkeep (h fp hfp) id (fun hc => Or.inl ?_) fun c hc => hc
      simp only [claimed, hp, inHand_none, add_zero] at hc
      exact Multiset.mem_add.mpr (Or.inl hc)
  | @recvInsert c hp =>
      intro fp hfp
      rcases List.mem_append.mp hfp with hfp | hfp
      · refine hkeep (h fp hfp) hins (fun hc => ?_) fun c hc => List.mem_append_left _ hc
        simp only [claimed, hp, inHand_some] at hc
        rcases Multiset.mem_add.mp hc with hc | hc
        · exact Or.inl (Multiset.mem_add.mpr (Or.inl hc))
        · cases Multiset.mem_singleton.mp hc
          exact Or.inr (Finmap.mem_insert.mpr (Or.inl rfl))
      · cases List.mem_singleton.mp hfp
        exact Or.inl (Finmap.mem_insert.mpr (Or.inl rfl))
  | recvEvict hp hd =>
      intro fp hfp
      exact hkeep (h fp hfp) id Or.inl fun c hc => List.mem_append_left _ hc
  | dualInsert hp =>
      intro fp hfp
      refine hkeep (h fp hfp) hins (fun hc => ?_) fun c hc => hc
      simp only [claimed, hp, inHand_some] at hc
      rcases Multiset.mem_add.mp hc with hc | hc
      · cases Multiset.mem_singleton.mp hc
        exact Or.inr (Finmap.mem_insert.mpr (Or.inl rfl))
      · exact Or.inl (Multiset.mem_add.mpr (Or.inr hc))
  | dualPass hp hq hst =>
      intro fp hfp
      refine (h fp hfp).popped hq rfl rfl fun _ hst' => ?_
      rcases hst with hst | hst <;> rcases hst' with hst' | hst' <;> rw [hst] at hst' <;>
        cases hst'
  | dualKnown hp hq hst hm =>
      intro fp hfp
      exact (h fp hfp).popped hq rfl rfl fun heq _ => heq ▸ hm
  | @dualUnique c q hp hq hst hm =>
      intro fp hfp
      have hcl : ∀ {x}, x ∈ t.claimed → x ∈ claimed { t with
          recv2DualMq := { t.recv2DualMq with items := q }
          dualPending := some c } := by
        intro x hx
        simp only [claimed, hp, inHand_none, zero_add] at hx
        exact Multiset.mem_add.mpr (Or.inr hx)
      rcases h fp hfp with h | h | ⟨x, hx, hfp', hst'⟩
      · exact Or.inl h
      · exact Or.inr (Or.inl (hcl h))
      · rw [hq] at hx
        rcases List.mem_cons.mp hx with rfl | hx
        · exact Or.inr (Or.inl (hfp' ▸ mem_claimed_dual rfl))
        · exact Or.inr (Or.inr ⟨x, hx, hfp', hst'⟩)
  | publish hw =>
      intro fp hfp
      exact hkeep (h fp hfp) (fun hm => Finmap.mem_insert.mpr (Or.inr hm)) Or.inl fun c hc => hc
  | _ => exact h

end ClientVar

/-! ## All sessions -/

namespace Service

/-- What the two indexes refer to. -/
structure Indexed (w : Service) : Prop where
  /-- A feature maps to a known chunk. -/
  features : ∀ {f b}, w.srv.feature2FpDb.lookup f = some b → b ∈ w.srv.fp2AddrDb
  /-- So does a writer that has looked one up, -/
  based : ∀ {s t}, w.clients.lookup s = some t →
    t.writer.Based fun _ base => base ∈ w.srv.fp2AddrDb
  /-- and the record it publishes. -/
  deltaBase : ∀ {s fp addr}, (s, .published fp addr) ∈ w.trace → addr.stat = .compDeltaChunk →
    addr.baseFp ∈ w.srv.fp2AddrDb
  recipe : ∀ {s t}, w.clients.lookup s = some t →
    ∀ fp ∈ t.fileRecipe, t.OnTheWay w.srv.fp2AddrDb fp

theorem indexed_init : init.Indexed where
  features := fun h => by simp [init, Server.empty] at h
  based := fun h => by simp [init] at h
  deltaBase := fun h => absurd h List.not_mem_nil
  recipe := fun h => by simp [init] at h

variable {cfg : Components} {w w' : Service} {a : Action}

theorem Indexed.thread (h : w.Indexed) (hb : w.ledger.Balanced) {s : SessId} {a : ThreadAction}
    {t t' : ClientVar} {srv' : Server} {evs : List Event} (hs : w.clients.lookup s = some t)
    (ht : ClientVar.Stepped cfg w.srv t a srv' t' evs)
    (hdb : ∀ {fp}, fp ∈ w.srv.fp2AddrDb → fp ∈ srv'.fp2AddrDb) : Indexed { w with
      srv := srv'
      clients := w.clients.insert s t'
      trace := w.trace ++ evs.map (s, ·) } := by
  have hheld : ∀ {c}, t.writer.chunk? = some c → c.info.fp ∈ w.srv.fp2AddrDb := by
    intro c hc
    have hm := ClientVar.inHand_held hc
    rw [← held_of_lookup hs] at hm
    exact hb.held_mem hm
  refine ⟨?_, ?_, ?_, ?_⟩
  · intro f b hl
    rcases ht.features with heq | ⟨c, f', todo, hw, -, -, heq⟩
    · rw [heq] at hl
      exact hdb (h.features hl)
    · rw [heq, Index.lookup_insert_ite] at hl
      split at hl
      · cases hl
        exact hdb (hheld (by rw [hw]; rfl))
      · exact hdb (h.features hl)
  · intro u x hx
    rw [Index.lookup_insert_ite] at hx
    split at hx
    · cases hx
      exact (ht.based (fun _ hl => h.features hl) (h.based hs)).mono fun _ _ => hdb
    · exact (h.based hx).mono fun _ _ => hdb
  · intro u fp addr hm hst
    rcases List.mem_append.mp hm with hm | hm
    · exact hdb (h.deltaBase hm hst)
    · obtain ⟨e, hm, heq⟩ := List.mem_map.mp hm
      cases heq
      obtain ⟨c, hw, rfl, rfl⟩ := ht.published hm
      have hbase := h.based hs
      rw [hw] at hbase
      exact hdb (hbase hst)
  · intro u x hx
    rw [Index.lookup_insert_ite] at hx
    split at hx
    · cases hx
      exact ht.recipe (h.recipe hs)
    · intro fp hfp
      rcases h.recipe hx fp hfp with hm | hm | hm
      · exact Or.inl (hdb hm)
      · exact Or.inr (Or.inl hm)
      · exact Or.inr (Or.inr hm)

theorem indexed_step (hwf : w.Wf) (hb : w.ledger.Balanced) (h : w.Indexed)
    (hs : Stepped cfg w a w') : w'.Indexed := by
  cases hs with
  | login hl hs =>
      refine ⟨h.features, ?_, h.deltaBase, ?_⟩
      · intro u x hx
        rw [Index.lookup_insert_ite] at hx
        split at hx
        · cases hx; trivial
        · exact h.based hx
      · intro u x hx
        rw [Index.lookup_insert_ite] at hx
        split at hx
        · cases hx
          exact fun fp hfp => absurd hfp List.not_mem_nil
        · exact h.recipe hx
  | @thread s a t srv' t' evs hs ht =>
      obtain ⟨m, hm, -⟩ := ledger_step hwf (Stepped.thread hs ht)
      exact h.thread hb hs ht fun hfp => hm.db_mem hfp
  | logout cntOrder idxOrder hs hw hi =>
      have hbase := h.based hs
      have hrecipe := h.recipe hs
      refine ⟨h.features, ?_, h.deltaBase, ?_⟩
      · intro u x hx
        rw [Index.lookup_insert_ite] at hx
        split at hx
        · cases hx; exact hbase
        · exact h.based hx
      · intro u x hx
        rw [Index.lookup_insert_ite] at hx
        split at hx
        · cases hx; exact hrecipe
        · exact h.recipe hx

end Service

end EDRStore
