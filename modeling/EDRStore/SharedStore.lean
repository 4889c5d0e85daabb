/-
# `EDRStore.SharedStore` — the containers of sessions that overlap

The container files are shared, the open container is the session's own: what
one session has written reaches the others when its container is full or when
its writer ends.  `Stored` extends the log of `StorageLog` to all sessions:

    every live session has its own open container
    what a session has written lies in a file, or in its open container

so that, once the session has ended, all of it can be read by anyone.
-/
import EDRStore.WriterHand
import EDRStore.StorageLog

namespace EDRStore

namespace ClientVar

/-! ## Chunks with bytes -/

/-- Every element but an eviction has bytes. -/
structure Full (t : ClientVar) : Prop where
  queued : ∀ {c}, c ∈ t.recv2DualMq.items ∨ c ∈ t.dual2CompMq.items →
    c.info.stat = .cacheEvictChunk ∨ c.data ≠ []
  pending : ∀ {c}, t.recvPending = some c ∨ t.dualPending = some c → c.data ≠ []
  toWrite : ∀ {c}, c ∈ t.comp2WriterMq.items ∨ t.writer.chunk? = some c → c.data ≠ []

/-- A client sends no empty chunk: all of them are ciphertexts. -/
def Sized : ThreadAction → Prop
  | .recv _ item => ∀ c ∈ item, c.data ≠ []
  | _ => True

instance : ∀ a : ThreadAction, Decidable (Sized a)
  | .recv _ item => inferInstanceAs (Decidable (∀ c ∈ item, c.data ≠ []))
  | .recvInsert => inferInstanceAs (Decidable True)
  | .recvEvict _ _ => inferInstanceAs (Decidable True)
  | .recvEnd => inferInstanceAs (Decidable True)
  | .dual => inferInstanceAs (Decidable True)
  | .comp => inferInstanceAs (Decidable True)
  | .write => inferInstanceAs (Decidable True)

variable {cfg : Components} {srv srv' : Server} {t t' : ClientVar} {a : ThreadAction}
  {evs : List Event}

@[simp] theorem admitted_data (c : WrappedChunk) : (DualDedupThd.admitted cfg c).data = c.data := by
  unfold DualDedupThd.admitted
  split <;> rfl

/-- The chunks that an item pushes are those of the item. -/
theorem pushes_data {addr : KeyForChunkHashDB} {item : List SendChunk} {chunks : List WrappedChunk}
    {fp : Fp} (hi : DataRecvThd.Pushes cfg addr item chunks fp) (hn : ∀ c ∈ item, c.data ≠ []) :
    ∀ c ∈ chunks, c.data ≠ [] := by
  cases hi with
  | pair ht hfp =>
      intro c hc
      rcases List.mem_cons.mp hc with rfl | hc
      · exact hn _ List.mem_cons_self
      · cases List.mem_singleton.mp hc
        exact hn _ (List.mem_cons_of_mem _ List.mem_cons_self)
  | single ht hfp =>
      intro c hc
      cases List.mem_singleton.mp hc
      exact hn _ List.mem_cons_self

/-- Taking the first element of the second queue. -/
theorem Full.popped (h : t.Full) {c : WrappedChunk} {q : List WrappedChunk}
    (hq : t.dual2CompMq.items = c :: q) (cache : InformCache) {out : List WrappedChunk}
    (hout : ∀ c ∈ out, c.data ≠ []) : Full { t with
      dual2CompMq := { t.dual2CompMq with items := q }
      informCache := cache
      comp2WriterMq := t.comp2WriterMq.push out } where
  queued := by
    rintro x (hx | hx)
    · exact h.queued (Or.inl hx)
    · exact h.queued (Or.inr (by rw [hq]; exact List.mem_cons_of_mem _ hx))
  pending := h.pending
  toWrite := by
    rintro x (hx | hx)
    · rcases List.mem_append.mp hx with hx | hx
      · exact h.toWrite (Or.inl hx)
      · exact hout x hx
    · exact h.toWrite (Or.inr hx)

/-- The writer goes on with a chunk that has bytes. -/
theorem Full.inWriter (h : t.Full) {pc : WriterPc} {cur : ClientStore}
    (hpc : ∀ c, pc.chunk? = some c → c.data ≠ []) : Full { t with writer := pc, cur := cur } where
  queued := h.queued
  pending := h.pending
  toWrite := by
    rintro x (hx | hx)
    · exact h.toWrite (Or.inl hx)
    · exact hpc x hx

theorem Full.recvPushed (h : t.Full) {chunks : List WrappedChunk}
    (hn : ∀ c ∈ chunks, c.info.stat = .cacheEvictChunk ∨ c.data ≠ []) {c : WrappedChunk}
    (hc : c ∈ (t.recv2DualMq.push chunks).items ∨ c ∈ t.dual2CompMq.items) :
    c.info.stat = .cacheEvictChunk ∨ c.data ≠ [] := by
  rcases hc with hc | hc
  · rcases List.mem_append.mp hc with hc | hc
    · exact h.queued (Or.inl hc)
    · exact hn c hc
  · exact h.queued (Or.inr hc)

/-- What is in a queue and is no eviction has bytes. -/
theorem Full.data_ne_nil (h : t.Full) {c : WrappedChunk}
    (hc : c ∈ t.recv2DualMq.items ∨ c ∈ t.dual2CompMq.items)
    (hst : c.info.stat ≠ .cacheEvictChunk) : c.data ≠ [] :=
  (h.queued hc).resolve_left hst

/-- Taking the first element of the first queue. -/
theorem Full.dualPopped (h : t.Full) {c : WrappedChunk} {q : List WrappedChunk}
    (hq : t.recv2DualMq.items = c :: q) :
    Full { t with recv2DualMq := { t.recv2DualMq with items := q } } where
  queued := by
    rintro x (hx | hx)
    · exact h.queued (Or.inl (by rw [hq]; exact List.mem_cons_of_mem _ hx))
    · exact h.queued (Or.inr hx)
  pending := h.pending
  toWrite := h.toWrite

/-- A chunk goes from the first queue to the second. -/
theorem Full.dualPushed (h : t.Full) {c : WrappedChunk}
    (hc : c.info.stat = .cacheEvictChunk ∨ c.data ≠ []) {x : WrappedChunk}
    (hx : x ∈ t.recv2DualMq.items ∨ x ∈ (t.dual2CompMq.push [c]).items) :
    x.info.stat = .cacheEvictChunk ∨ x.data ≠ [] := by
  rcases hx with hx | hx
  · exact h.queued (Or.inl hx)
  · rcases List.mem_append.mp hx with hx | hx
    · exact h.queued (Or.inr hx)
    · cases List.mem_singleton.mp hx
      exact hc

/-- Taking the first element of the third queue in hand. -/
theorem Full.writerPopped (h : t.Full) {c : WrappedChunk} {q : List WrappedChunk}
    (hq : t.comp2WriterMq.items = c :: q) {pc : WriterPc} (hpc : pc.chunk? = some c) :
    Full { t with comp2WriterMq := { t.comp2WriterMq with items := q }, writer := pc } where
  queued := h.queued
  pending := h.pending
  toWrite := by
    rintro x (hx | hx)
    · exact h.toWrite (Or.inl (by rw [hq]; exact List.mem_cons_of_mem _ hx))
    · obtain rfl := Option.some.inj (hpc.symm.trans hx)
      exact h.toWrite (Or.inl (by rw [hq]; exact List.mem_cons_self))

theorem full_step (hd : cfg.DeltaNonempty) (h : t.Full) (hn : Sized a)
    (hs : Stepped cfg srv t a srv' t' evs) : t'.Full := by
  cases hs with
  | recvPush hp _ hi =>
      exact { h with queued := h.recvPushed fun c hc => Or.inr (pushes_data hi hn c hc) }
  | recvKnown hp _ ht hm => exact { h with }
  | recvUnique hp _ ht hm =>
      refine { h with pending := ?_ }
      rintro c (hc | hc)
      · cases hc
        exact hn _ List.mem_cons_self
      · exact h.pending (Or.inr hc)
  | recvInsert hp =>
      refine { h with queued := h.recvPushed ?_, pending := ?_ }
      · intro c hc
        cases List.mem_singleton.mp hc
        exact Or.inr (h.pending (Or.inl hp))
      · rintro c (hc | hc)
        · cases hc
        · exact h.pending (Or.inr hc)
  | recvEvict hp _ =>
      refine { h with queued := h.recvPushed ?_ }
      intro c hc
      obtain ⟨fs, -, rfl⟩ := List.mem_map.mp hc
      exact Or.inl rfl
  | recvEnd hp _ => exact { h with }
  | @dualInsert c hp =>
      refine { h with queued := ?_, pending := ?_ }
      · refine fun hx => h.dualPushed (Or.inr ?_) hx
        rw [admitted_data]
        exact h.pending (Or.inr hp)
      · rintro x (hx | hx)
        · exact h.pending (Or.inl hx)
        · cases hx
  | dualPass hp hq hst =>
      have hc := h.queued (Or.inl (by rw [hq]; exact List.mem_cons_self))
      have hpop := h.dualPopped hq
      exact { hpop with queued := fun hx => hpop.dualPushed hc hx }
  | dualKnown hp hq hst hm => exact h.dualPopped hq
  | @dualUnique c q hp hq hst hm =>
      have hne : c.info.stat ≠ .cacheEvictChunk := by
        rcases hst with hst | hst <;> rw [hst] <;> exact fun he => nomatch he
      refine { h.dualPopped hq with pending := ?_ }
      rintro x (hx | hx)
      · exact h.pending (Or.inl hx)
      · cases hx
        exact h.data_ne_nil (Or.inl (by rw [hq]; exact List.mem_cons_self)) hne
  | dualEnd hp hq _ => exact { h with }
  | @compNew c q hq hst =>
      have hc : c.data ≠ [] := h.data_ne_nil (Or.inr (by rw [hq]; exact List.mem_cons_self))
        (by rw [hst]; exact fun he => nomatch he)
      refine h.popped hq t.informCache ?_
      intro x hx
      cases List.mem_singleton.mp hx
      exact hc
  | compDelta hq hst hf hb hdata he =>
      refine h.popped hq t.informCache ?_
      intro x hx
      cases List.mem_singleton.mp hx
      exact hd _ _ _ he
  | compPlain hq hst h0 =>
      refine h.popped hq t.informCache ?_
      intro x hx
      cases List.mem_singleton.mp hx
      exact h.data_ne_nil (Or.inr (by rw [hq]; exact List.mem_cons_self))
        (by rw [hst]; exact fun he => nomatch he)
  | @compInsert c q hq hst =>
      have hp := h.popped hq (t.informCache.insertCachedChunk c) (List.forall_mem_nil _)
      simpa [MessageQueue.push] using hp
  | @compEvict c q cache hq hst he =>
      have hp := h.popped hq cache (List.forall_mem_nil _)
      simpa [MessageQueue.push] using hp
  | compEnd hq _ => exact { h with }
  | popDelta hw hq hst => exact h.writerPopped hq rfl
  | popUnique hw hq hst => exact h.writerPopped hq rfl
  | find hw =>
      exact h.inWriter fun c hc => h.toWrite (Or.inr (by rw [hw]; exact hc))
  | @similar c m hw hst =>
      have hc : c.data ≠ [] := h.toWrite (Or.inr (by rw [hw]; rfl))
      exact h.inWriter fun c' hc' => by cases hc'; exact hc
  | @nonSimilar c m hw hst =>
      have hc : c.data ≠ [] := h.toWrite (Or.inr (by rw [hw]; rfl))
      exact h.inWriter fun c' hc' => by cases hc'; exact hc
  | fetch hw hl =>
      exact h.inWriter fun c hc => h.toWrite (Or.inr (by rw [hw]; exact hc))
  | read hw hr =>
      refine h.inWriter fun c hc => h.toWrite (Or.inr ?_)
      rw [hw]
      split at hc <;> exact hc
  | store hst =>
      have hc := h.toWrite (Or.inr hst.in_hand)
      refine h.inWriter fun c' hc' => ?_
      rw [(hst.goes_on _).1] at hc'
      cases hc'
      exact hc
  | feature hw =>
      exact h.inWriter fun c hc => h.toWrite (Or.inr (by rw [hw]; exact hc))
  | featuresEnd hw =>
      exact h.inWriter fun c hc => h.toWrite (Or.inr (by rw [hw]; exact hc))
  | publish hw => exact h.inWriter fun c hc => by cases hc
  | writeEnd hw hq _ => exact h.inWriter fun c hc => by cases hc

/-! ## What a step does to the containers -/

/-- The step writes nothing. -/
def Silent (evs : List Event) : Prop := ∀ fp addr data, .wrote fp addr data ∉ evs

theorem silent_nil : Silent [] := fun _ _ _ h => absurd h List.not_mem_nil

inductive StoreMoved (cfg : Components) (srv : Server) (t : ClientVar) (srv' : Server)
    (t' : ClientVar) (evs : List Event) : Prop
  | still (hst : srv'.storageCore = srv.storageCore) (hcur : t'.cur = t.cur)
      (hw : t'.writer = .ended ↔ t.writer = .ended) (he : Silent evs)
  | read (addr : KeyForChunkHashDB) (hst : srv'.storageCore = srv.storageCore)
      (hcur : t'.cur = (srv.storageCore.readChunk addr t.cur).2) (hw : t.writer ≠ .ended)
      (hw' : t'.writer ≠ .ended) (he : Silent evs)
  | wrote {c : WrappedChunk} {data : Bytes} {mark : KeyForChunkHashDB → KeyForChunkHashDB}
      {next : WrappedChunk → WriterPc} (hs : Storing cfg t.writer c data mark next)
      (hst : srv'.storageCore = (srv.storageCore.writeChunk cfg c.info.addr data t.cur).2.1)
      (hcur : t'.cur = (srv.storageCore.writeChunk cfg c.info.addr data t.cur).2.2)
      (hw' : t'.writer ≠ .ended)
      (he : evs =
        [.wrote c.info.fp (srv.storageCore.writeChunk cfg c.info.addr data t.cur).1 data])
  | tail (hst : srv'.storageCore = srv.storageCore.saveTail t.cur) (hcur : t'.cur = t.cur)
      (hw : t.writer ≠ .ended) (hw' : t'.writer = .ended) (he : Silent evs)

theorem silent_unique (fp : Fp) : Silent [.unique fp] :=
  fun _ _ _ h => by cases List.mem_singleton.mp h

theorem silent_published (fp : Fp) (addr : KeyForChunkHashDB) : Silent [.published fp addr] :=
  fun _ _ _ h => by cases List.mem_singleton.mp h

theorem Storing.live {pc : WriterPc} {c : WrappedChunk} {data : Bytes}
    {mark : KeyForChunkHashDB → KeyForChunkHashDB} {next : WrappedChunk → WriterPc}
    (h : Storing cfg pc c data mark next) : pc ≠ .ended := by
  cases h <;> exact fun hn => nomatch hn

/-- The bytes that are written are the chunk's or a delta. -/
theorem Storing.nonempty {pc : WriterPc} {c : WrappedChunk} {data : Bytes}
    {mark : KeyForChunkHashDB → KeyForChunkHashDB} {next : WrappedChunk → WriterPc}
    (hd : cfg.DeltaNonempty) (h : Storing cfg pc c data mark next) (hc : c.data ≠ []) :
    data ≠ [] := by
  cases h with
  | avoid c base => exact hc
  | delta c base he => exact hd _ _ _ he
  | plain c => exact hc
  | cacheDelta c => exact hc

theorem storeMoved_step (hs : Stepped cfg srv t a srv' t' evs) :
    StoreMoved cfg srv t srv' t' evs := by
  have hpc : ∀ {pc pc' : WriterPc}, t.writer = pc → pc ≠ .ended → pc' ≠ .ended →
      (pc' = .ended ↔ t.writer = .ended) := by
    intro pc pc' hw h h'
    rw [hw]
    exact ⟨fun hx => absurd hx h', fun hx => absurd hx h⟩
  cases hs with
  | recvUnique hp hd ht hm => exact .still rfl rfl Iff.rfl (silent_unique _)
  | dualUnique hp hq hst hm => exact .still rfl rfl Iff.rfl (silent_unique _)
  | popDelta hw hq hst =>
      exact .still rfl rfl (hpc hw (fun h => nomatch h) (fun h => nomatch h)) silent_nil
  | popUnique hw hq hst =>
      exact .still rfl rfl (hpc hw (fun h => nomatch h) (fun h => nomatch h)) silent_nil
  | find hw => exact .still rfl rfl (hpc hw (fun h => nomatch h) (fun h => nomatch h)) silent_nil
  | similar hw hst =>
      exact .still rfl rfl (hpc hw (fun h => nomatch h) (fun h => nomatch h)) silent_nil
  | nonSimilar hw hst =>
      exact .still rfl rfl (hpc hw (fun h => nomatch h) (fun h => nomatch h)) silent_nil
  | fetch hw hl =>
      exact .still rfl rfl (hpc hw (fun h => nomatch h) (fun h => nomatch h)) silent_nil
  | @read c baseAddr base cur hw hr =>
      refine .read baseAddr rfl ?_ (by rw [hw]; exact fun h => nomatch h) ?_ silent_nil
      · rcases hr with ⟨hr, -⟩ | ⟨hr, -⟩ <;> rw [hr]
      · simp only
        split <;> exact fun h => nomatch h
  | store hst => exact .wrote hst rfl rfl (hst.goes_on _).2 rfl
  | feature hw => exact .still rfl rfl (hpc hw (fun h => nomatch h) (fun h => nomatch h)) silent_nil
  | featuresEnd hw =>
      exact .still rfl rfl (hpc hw (fun h => nomatch h) (fun h => nomatch h)) silent_nil
  | publish hw =>
      exact .still rfl rfl (hpc hw (fun h => nomatch h) (fun h => nomatch h))
        (silent_published _ _)
  | writeEnd hw hq hd => exact .tail rfl rfl (by rw [hw]; exact fun h => nomatch h) rfl silent_nil
  | _ => exact .still rfl rfl Iff.rfl silent_nil

end ClientVar

/-! ## All sessions -/

namespace Service

/-- The session's threads are still running. -/
def Live (w : Service) (s : SessId) (t : ClientVar) : Prop :=
  w.clients.lookup s = some t ∧ t.writer ≠ .ended

/-- What the session `s` wrote there lies in a file, or in its open container. -/
def Located (w : Service) (s : SessId) (id : ContainerId) : Prop :=
  id ∈ w.srv.storageCore.containers ∨ ∃ t, w.Live s t ∧ t.cur.curContainer.id = id

structure Stored (cfg : Components) (log : Content) (w : Service) : Prop where
  logOk : LogOk cfg log w.srv.storageCore
  openOk : ∀ {s t}, w.Live s t → OpenOk cfg log w.srv.storageCore t.cur.curContainer
  cacheOk : ∀ {s t}, w.Live s t → CacheOk w.srv.storageCore t.cur.containerCache
  apart : ∀ {s s' t t'}, w.Live s t → w.Live s' t' → s ≠ s' →
    t.cur.curContainer.id ≠ t'.cur.curContainer.id
  wrote : ∀ {s fp addr data}, (s, .wrote fp addr data) ∈ w.trace →
    addr.extent.Within log ∧ addr.extent.read log = data ∧ data ≠ [] ∧
      w.Located s addr.containerId

variable {cfg : Components} {log log' : Content} {w : Service} {a : Action}

/-- One session reads and writes; the others are not touched. -/
theorem Stored.evolves (h : w.Stored cfg log) {s : SessId} {t t' : ClientVar} {srv' : Server}
    {evs : List Event} (ht : w.Live s t) (hw' : t'.writer ≠ .ended)
    (he : Evolves cfg log log' w.srv.storageCore srv'.storageCore t.cur t'.cur)
    (hnew : ∀ {fp addr data}, .wrote fp addr data ∈ evs →
      addr.extent.Within log' ∧ addr.extent.read log' = data ∧ data ≠ [] ∧
        Readable srv'.storageCore t'.cur addr.containerId) :
    Stored cfg log' { w with
      srv := srv'
      clients := w.clients.insert s t'
      trace := w.trace ++ evs.map (s, ·) } := by
  have hlive : ∀ {u x}, Live { w with
      srv := srv'
      clients := w.clients.insert s t'
      trace := w.trace ++ evs.map (s, ·) } u x → (u = s ∧ x = t') ∨ (u ≠ s ∧ w.Live u x) := by
    rintro u x ⟨hu, hx⟩
    rw [Index.lookup_insert_ite] at hu
    split at hu
    · rename_i hus
      cases hu
      exact Or.inl ⟨hus, rfl⟩
    · rename_i hus
      exact Or.inr ⟨hus, hu, hx⟩
  have hother : ∀ {u x}, u ≠ s → w.Live u x →
      OpenOk cfg log' srv'.storageCore x.cur.curContainer ∧
        x.cur.curContainer.id ≠ t'.cur.curContainer.id :=
    fun hu hx => he.other (h.openOk hx) (h.apart hx ht hu)
  have hself : Live { w with
      srv := srv'
      clients := w.clients.insert s t'
      trace := w.trace ++ evs.map (s, ·) } s t' :=
    ⟨by rw [Index.lookup_insert_ite, if_pos rfl], hw'⟩
  refine ⟨he.logOk, ?_, ?_, ?_, ?_⟩
  · intro u x hx
    rcases hlive hx with ⟨-, rfl⟩ | ⟨hus, hx⟩
    · exact he.openOk
    · exact (hother hus hx).1
  · intro u x hx
    rcases hlive hx with ⟨-, rfl⟩ | ⟨hus, hx⟩
    · exact he.cacheOk
    · exact (h.cacheOk hx).keeps he.keeps
  · intro u u' x x' hx hx' hne
    rcases hlive hx with ⟨hu, rfl⟩ | ⟨hus, hx⟩
    · rcases hlive hx' with ⟨hu', -⟩ | ⟨hus', hx'⟩
      · exact absurd (hu.trans hu'.symm) hne
      · exact (hother hus' hx').2.symm
    · rcases hlive hx' with ⟨-, hxt⟩ | ⟨hus', hx'⟩
      · rw [hxt]
        exact (hother hus hx).2
      · exact h.apart hx hx' hne
  · intro u fp addr data hm
    rcases List.mem_append.mp hm with hm | hm
    · obtain ⟨hin, hread, hne, hloc⟩ := h.wrote hm
      refine ⟨Extent.within_of_grows he.grows hin, ?_, hne, ?_⟩
      · rw [Extent.read_of_grows he.grows hin]
        exact hread
      · rcases hloc with hs | ⟨x, hx, hid⟩
        · exact Or.inl (Keeps.mem he.keeps hs)
        · by_cases hus : u = s
          · subst hus
            obtain rfl := Option.some.inj (hx.1.symm.trans ht.1)
            rcases he.readable (Or.inr hid) with hr | hr
            · exact Or.inl hr
            · exact Or.inr ⟨t', hself, hr⟩
          · exact Or.inr ⟨x, ⟨by rw [Index.lookup_insert_ite, if_neg hus]; exact hx.1, hx.2⟩, hid⟩
    · obtain ⟨e, hm, heq⟩ := List.mem_map.mp hm
      cases heq
      obtain ⟨hin, hread, hne, hr⟩ := hnew hm
      refine ⟨hin, hread, hne, ?_⟩
      rcases hr with hr | hr
      · exact Or.inl hr
      · exact Or.inr ⟨t', hself, hr⟩

/-- A session that has no live thread left, and a store that did not change. -/
theorem Stored.same (h : w.Stored cfg log) {w' : Service}
    (hst : w'.srv.storageCore = w.srv.storageCore) (htr : ∀ e ∈ w'.trace, e ∈ w.trace ∨
      ∃ s evs, e ∈ evs.map (s, ·) ∧ ClientVar.Silent evs)
    (hlive : ∀ u x, w'.Live u x → ∃ x', w.Live u x' ∧ x'.cur = x.cur)
    (hlive' : ∀ u x, w.Live u x → ∃ x', w'.Live u x' ∧ x'.cur = x.cur) : w'.Stored cfg log where
  logOk := by rw [hst]; exact h.logOk
  openOk := by
    intro u x hx
    obtain ⟨x', hx', hcur⟩ := hlive u x hx
    rw [hst, ← hcur]
    exact h.openOk hx'
  cacheOk := by
    intro u x hx
    obtain ⟨x', hx', hcur⟩ := hlive u x hx
    rw [hst, ← hcur]
    exact h.cacheOk hx'
  apart := by
    intro u u' x x' hx hx' hne
    obtain ⟨y, hy, hcur⟩ := hlive u x hx
    obtain ⟨y', hy', hcur'⟩ := hlive u' x' hx'
    rw [← hcur, ← hcur']
    exact h.apart hy hy' hne
  wrote := by
    intro u fp addr data hm
    rcases htr _ hm with hm | ⟨s, evs, hm, hs⟩
    · obtain ⟨hin, hread, hne, hloc⟩ := h.wrote hm
      refine ⟨hin, hread, hne, ?_⟩
      rcases hloc with hl | ⟨x, hx, hid⟩
      · exact Or.inl (by rw [hst]; exact hl)
      · obtain ⟨x', hx', hcur⟩ := hlive' u x hx
        exact Or.inr ⟨x', hx', by rw [hcur]; exact hid⟩
    · obtain ⟨e, hm, heq⟩ := List.mem_map.mp hm
      cases heq
      exact absurd hm (hs _ _ _)

/-- The tail container is saved, and the session is no longer live. -/
theorem Stored.tail (h : w.Stored cfg log) {s : SessId} {t t' : ClientVar} {srv' : Server}
    {evs : List Event} (ht : w.Live s t) (hw' : t'.writer = .ended)
    (hst : srv'.storageCore = w.srv.storageCore.saveTail t.cur) (he : ClientVar.Silent evs) :
    Stored cfg log { w with
      srv := srv'
      clients := w.clients.insert s t'
      trace := w.trace ++ evs.map (s, ·) } := by
  obtain ⟨hlog, hkeep, -, hsaved, -⟩ := saveTail_spec h.logOk (h.openOk ht)
  have hlive : ∀ {u x}, Live { w with
      srv := srv'
      clients := w.clients.insert s t'
      trace := w.trace ++ evs.map (s, ·) } u x → u ≠ s ∧ w.Live u x := by
    rintro u x ⟨hu, hx⟩
    rw [Index.lookup_insert_ite] at hu
    split at hu
    · cases hu
      exact absurd hw' hx
    · rename_i hus
      exact ⟨hus, hu, hx⟩
  refine ⟨by rw [hst]; exact hlog, ?_, ?_, ?_, ?_⟩
  · intro u x hx
    obtain ⟨hus, hx⟩ := hlive hx
    rw [hst]
    exact saveTail_other h.logOk (h.openOk ht) (h.openOk hx) (h.apart hx ht hus)
  · intro u x hx
    obtain ⟨-, hx⟩ := hlive hx
    rw [hst]
    exact (h.cacheOk hx).keeps hkeep
  · intro u u' x x' hx hx' hne
    exact h.apart (hlive hx).2 (hlive hx').2 hne
  · intro u fp addr data hm
    rcases List.mem_append.mp hm with hm | hm
    · obtain ⟨hin, hread, hne, hloc⟩ := h.wrote hm
      refine ⟨hin, hread, hne, ?_⟩
      rcases hloc with hl | ⟨x, hx, hid⟩
      · exact Or.inl (by rw [hst]; exact Keeps.mem hkeep hl)
      · by_cases hus : u = s
        · subst hus
          obtain rfl := Option.some.inj (hx.1.symm.trans ht.1)
          rcases hsaved with hsv | hemp
          · exact Or.inl (by rw [hst, ← hid]; exact hsv)
          · -- an empty container holds no written byte
            exfalso
            apply hne
            rw [← hread]
            have hz : log addr.extent.seg = [] := by
              rw [← hemp, hid]
              rfl
            simp [Extent.read, slice, hz]
        · exact Or.inr ⟨x, ⟨by rw [Index.lookup_insert_ite, if_neg hus]; exact hx.1, hx.2⟩, hid⟩
    · obtain ⟨e, hm, heq⟩ := List.mem_map.mp hm
      cases heq
      exact absurd hm (he _ _ _)

theorem stored_init (cfg : Components) : Stored cfg (fun _ => []) init where
  logOk :=
    { saved := fun h => by simp [init, Server.empty, StorageCore.empty] at h
      undrawn := fun _ _ => rfl
      unsaved := fun _ _ h => Finmap.notMem_empty h }
  openOk := fun h => by simp [Live, init] at h
  cacheOk := fun h => by simp [Live, init] at h
  apart := fun h => by simp [Live, init] at h
  wrote := fun h => absurd h List.not_mem_nil

/-- A login draws a new open container. -/
theorem Stored.login (hid : cfg.FreshIds) (h : w.Stored cfg log) {s : SessId} (c : ClientId)
    (hs : s ∉ w.clients) : Stored cfg log { w with
      srv := { w.srv with storageCore := (w.srv.storageCore.openClient cfg).1 }
      locked := Function.update w.locked c true
      clients := w.clients.insert s (w.openClient cfg c) } := by
  obtain ⟨hlog, hopen, hcache, hfiles, hname, -⟩ := openClient_spec hid h.logOk
  have hn : w.clients.lookup s = none := Finmap.lookup_eq_none.mpr hs
  have hkeep : Keeps w.srv.storageCore (w.srv.storageCore.openClient cfg).1 := by
    intro id b hb
    rw [hfiles]
    exact hb
  have hlive : ∀ {u x}, Live { w with
      srv := { w.srv with storageCore := (w.srv.storageCore.openClient cfg).1 }
      locked := Function.update w.locked c true
      clients := w.clients.insert s (w.openClient cfg c) } u x →
      (u = s ∧ x = w.openClient cfg c) ∨ w.Live u x := by
    rintro u x ⟨hu, hx⟩
    rw [Index.lookup_insert_ite] at hu
    split at hu
    · rename_i hus
      cases hu
      exact Or.inl ⟨hus, rfl⟩
    · exact Or.inr ⟨hu, hx⟩
  -- an open container that exists has another name than the one just drawn
  have hold : ∀ {u x}, w.Live u x → OpenOk cfg log (w.srv.storageCore.openClient cfg).1
      x.cur.curContainer ∧ x.cur.curContainer.id ≠ (w.openClient cfg c).cur.curContainer.id := by
    intro u x hx
    have ho := h.openOk hx
    refine ⟨⟨ho.body, by rw [hfiles]; exact ho.unsaved, fun n hn => ?_⟩, ?_⟩
    · exact ho.drawn n (Nat.le_trans (Nat.le_succ _) hn)
    · intro heq
      exact ho.drawn _ (Nat.le_refl _) (heq.trans hname)
  refine ⟨hlog, ?_, ?_, ?_, ?_⟩
  · intro u x hx
    rcases hlive hx with ⟨-, rfl⟩ | hx
    · exact hopen
    · exact (hold hx).1
  · intro u x hx
    rcases hlive hx with ⟨-, rfl⟩ | hx
    · exact hcache
    · exact (h.cacheOk hx).keeps hkeep
  · intro u u' x x' hx hx' hne
    rcases hlive hx with ⟨hu, hxt⟩ | hx
    · rcases hlive hx' with ⟨hu', -⟩ | hx'
      · exact absurd (hu.trans hu'.symm) hne
      · rw [hxt]
        exact (hold hx').2.symm
    · rcases hlive hx' with ⟨-, hxt⟩ | hx'
      · rw [hxt]
        exact (hold hx).2
      · exact h.apart hx hx' hne
  · intro u fp addr data hm
    obtain ⟨hin, hread, hne, hloc⟩ := h.wrote hm
    refine ⟨hin, hread, hne, ?_⟩
    rcases hloc with hl | ⟨x, hx, hid'⟩
    · exact Or.inl (Keeps.mem hkeep hl)
    · refine Or.inr ⟨x, ⟨?_, hx.2⟩, hid'⟩
      rw [Index.lookup_insert_ite, if_neg]
      · exact hx.1
      · rintro rfl
        exact nomatch hn.symm.trans hx.1

/-- A thread's step, from what it does to the containers. -/
theorem Stored.thread (hid : cfg.FreshIds) (hd : cfg.DeltaNonempty) (h : w.Stored cfg log)
    {s : SessId} {t t' : ClientVar} {srv' : Server} {evs : List Event}
    (hs : w.clients.lookup s = some t) (hfull : t.Full)
    (hm : ClientVar.StoreMoved cfg w.srv t srv' t' evs) : ∃ log', Stored cfg log' { w with
      srv := srv'
      clients := w.clients.insert s t'
      trace := w.trace ++ evs.map (s, ·) } := by
  cases hm with
  | still hst hcur hw he =>
      by_cases hend : t.writer = .ended
      · refine ⟨log, h.same hst ?_ ?_ ?_⟩
        · intro e hm
          rcases List.mem_append.mp hm with hm | hm
          · exact Or.inl hm
          · exact Or.inr ⟨s, evs, hm, he⟩
        · rintro u x ⟨hu, hx⟩
          rw [Index.lookup_insert_ite] at hu
          split at hu
          · cases hu
            exact absurd (hw.mpr hend) hx
          · exact ⟨x, ⟨hu, hx⟩, rfl⟩
        · rintro u x ⟨hu, hx⟩
          refine ⟨x, ⟨?_, hx⟩, rfl⟩
          rw [Index.lookup_insert_ite, if_neg]
          · exact hu
          · rintro rfl
            obtain rfl := Option.some.inj (hu.symm.trans hs)
            exact hx hend
      · have hlive : w.Live s t := ⟨hs, hend⟩
        have hev : Evolves cfg log log w.srv.storageCore srv'.storageCore t.cur t'.cur := by
          rw [hst, hcur]
          exact .refl h.logOk (h.openOk hlive) (h.cacheOk hlive)
        exact ⟨log, h.evolves hlive (fun hx => hend (hw.mp hx)) hev fun hm => absurd hm (he _ _ _)⟩
  | read addr hst hcur hw hw' he =>
      have hlive : w.Live s t := ⟨hs, hw⟩
      have hev : Evolves cfg log log w.srv.storageCore srv'.storageCore t.cur t'.cur := by
        rw [hst, hcur]
        exact .ofRead h.logOk (h.openOk hlive) (h.cacheOk hlive) addr
      exact ⟨log, h.evolves hlive hw' hev fun hm => absurd hm (he _ _ _)⟩
  | @wrote c data mark next hst hcore hcur hw' he =>
      have hlive : w.Live s t := ⟨hs, hst.live⟩
      obtain ⟨log', hwr⟩ := writeChunk_wrote hid h.logOk (h.openOk hlive) c.info.addr data
      have hev := Evolves.ofWrote (h.cacheOk hlive) hwr
      rw [← hcore, ← hcur] at hev
      refine ⟨log', h.evolves hlive hw' hev ?_⟩
      intro fp addr d hm
      rw [he] at hm
      cases List.mem_singleton.mp hm
      refine ⟨hwr.within, hwr.reads,
        hst.nonempty hd (hfull.toWrite (Or.inr hst.in_hand)), ?_⟩
      rw [hcore, hcur]
      exact hwr.readable_new
  | tail hst hcur hw hw' he => exact ⟨log, h.tail ⟨hs, hw⟩ hw' hst he⟩

/-- The deletion of a `ClientVar` touches no container. -/
theorem Stored.logout (h : w.Stored cfg log) {s : SessId} {t : ClientVar}
    (hs : w.clients.lookup s = some t) (hw : t.writer = .ended)
    (files : ClientId → InformFiles) (locked : ClientId → Bool) : Stored cfg log { w with
      informFiles := files
      locked := locked
      clients := w.clients.insert s { t with deleted := true } } := by
  refine h.same rfl (fun e he => Or.inl he) ?_ ?_
  · rintro u x ⟨hu, hx⟩
    rw [Index.lookup_insert_ite] at hu
    split at hu
    · cases hu
      exact absurd hw hx
    · exact ⟨x, ⟨hu, hx⟩, rfl⟩
  · rintro u x ⟨hu, hx⟩
    refine ⟨x, ⟨?_, hx⟩, rfl⟩
    rw [Index.lookup_insert_ite, if_neg]
    · exact hu
    · rintro rfl
      obtain rfl := Option.some.inj (hu.symm.trans hs)
      exact hx hw

/-! ## Every run of clients that send chunks -/

/-- What is received is never empty. -/
def Sized (_ : Service) : Action → Prop
  | .thread _ a => ClientVar.Sized a
  | _ => True

instance (w : Service) : ∀ a : Action, Decidable (Sized w a)
  | .thread _ a => inferInstanceAs (Decidable (ClientVar.Sized a))
  | .login _ _ => inferInstanceAs (Decidable True)
  | .logout _ _ _ => inferInstanceAs (Decidable True)

structure Sound (cfg : Components) (log : Content) (w : Service) : Prop where
  wf : w.Wf
  balanced : w.ledger.Balanced
  indexed : w.Indexed
  full : ∀ {s t}, w.clients.lookup s = some t → t.Full
  stored : w.Stored cfg log
  /-- The bytes of a record about to be published are in their place. -/
  inPlace : ∀ {s t c}, w.clients.lookup s = some t → t.writer.stored? = some c →
    ∃ addr data, (s, .wrote c.info.fp addr data) ∈ w.trace ∧ addr.extent = c.info.addr.extent
  published : ∀ {s fp addr}, (s, .published fp addr) ∈ w.trace →
    ∃ addr' data, (s, .wrote fp addr' data) ∈ w.trace ∧ addr'.extent = addr.extent

theorem sound_init (cfg : Components) : Sound cfg (fun _ => []) init where
  wf := wf_init
  balanced := balanced_init
  indexed := indexed_init
  full := fun h => by simp [init] at h
  stored := stored_init cfg
  inPlace := fun h => by simp [init] at h
  published := fun h => absurd h List.not_mem_nil

variable {w' : Service}

theorem sound_step (hid : cfg.FreshIds) (hd : cfg.DeltaNonempty) (h : w.Sound cfg log)
    (hn : Sized w a) (hs : Stepped cfg w a w') : ∃ log', w'.Sound cfg log' := by
  obtain ⟨m, hm, -⟩ := ledger_step h.wf hs
  have hwf := wf_step h.wf hs
  have hbal := h.balanced.step hm
  have hind := indexed_step h.wf h.balanced h.indexed hs
  cases hs with
  | @login s c hl hsn =>
      refine ⟨log, hwf, hbal, hind, ?_, h.stored.login hid c hsn, ?_, h.published⟩
      · intro u x hx
        rw [Index.lookup_insert_ite] at hx
        split at hx
        · cases hx
          refine ⟨?_, ?_, ?_⟩ <;> rintro x (hx | hx) <;> exact nomatch hx
        · exact h.full hx
      · intro u x c hx hc
        rw [Index.lookup_insert_ite] at hx
        split at hx
        · cases hx
          exact nomatch hc
        · exact h.inPlace hx hc
  | @thread s a t srv' t' evs hst ht =>
      obtain ⟨log', hlog'⟩ := h.stored.thread hid hd hst (h.full hst) (ClientVar.storeMoved_step ht)
      refine ⟨log', hwf, hbal, hind, ?_, hlog', ?_, ?_⟩
      · intro u x hx
        rw [Index.lookup_insert_ite] at hx
        split at hx
        · cases hx
          exact ClientVar.full_step hd (h.full hst) hn ht
        · exact h.full hx
      · intro u x c hx hc
        rw [Index.lookup_insert_ite] at hx
        split at hx
        · rename_i hus
          cases hx
          subst hus
          rcases ht.stored hc with hold | ⟨addr, data, he, hext⟩
          · obtain ⟨addr, data, hmem, hext⟩ := h.inPlace hst hold
            exact ⟨addr, data, List.mem_append_left _ hmem, hext⟩
          · refine ⟨addr, data, List.mem_append_right _ ?_, hext⟩
            rw [he]
            exact List.mem_singleton.mpr rfl
        · obtain ⟨addr, data, hmem, hext⟩ := h.inPlace hx hc
          exact ⟨addr, data, List.mem_append_left _ hmem, hext⟩
      · intro u fp addr hmem
        rcases List.mem_append.mp hmem with hmem | hmem
        · obtain ⟨addr', data, hw, hext⟩ := h.published hmem
          exact ⟨addr', data, List.mem_append_left _ hw, hext⟩
        · obtain ⟨e, hmem, heq⟩ := List.mem_map.mp hmem
          cases heq
          obtain ⟨c, hw, rfl, rfl⟩ := ht.published hmem
          obtain ⟨addr', data, hwr, hext⟩ := h.inPlace (c := c) hst (by rw [hw]; rfl)
          exact ⟨addr', data, List.mem_append_left _ hwr, hext⟩
  | @logout s t cntOrder idxOrder hst hw hi =>
      have hfull := h.full hst
      refine ⟨log, hwf, hbal, hind, ?_, h.stored.logout hst hw _ _, ?_, h.published⟩
      · intro u x hx
        rw [Index.lookup_insert_ite] at hx
        split at hx
        · cases hx
          exact ⟨hfull.queued, hfull.pending, hfull.toWrite⟩
        · exact h.full hx
      · intro u x c hx hc
        rw [Index.lookup_insert_ite] at hx
        split at hx
        · cases hx
          have hc : t.writer.stored? = some c := hc
          rw [hw] at hc
          exact nomatch hc
        · exact h.inPlace hx hc

/-- Whatever the interleaving. -/
theorem sound_reach (hid : cfg.FreshIds) (hd : cfg.DeltaNonempty)
    (h : Reach (step cfg) Sized init w) : ∃ log, w.Sound cfg log := by
  refine h.inv (fun w => ∃ log, w.Sound cfg log) ⟨_, sound_init cfg⟩ ?_
  rintro w a w' ⟨log, hi⟩ hn hs
  exact sound_step hid hd hi hn (step_stepped hs)

/-- What an ended session has published is in the files. -/
theorem Sound.saved (h : w.Sound cfg log) {s : SessId} {t : ClientVar} {fp : Fp}
    {addr : KeyForChunkHashDB} (hm : (s, .published fp addr) ∈ w.trace)
    (hs : w.clients.lookup s = some t) (hw : t.writer = .ended) :
    ∃ addr' data, (s, .wrote fp addr' data) ∈ w.trace ∧ addr'.extent = addr.extent ∧
      addr.extent.Within log ∧ addr.extent.read log = data ∧
      addr.containerId ∈ w.srv.storageCore.containers := by
  obtain ⟨addr', data, hwr, hext⟩ := h.published hm
  obtain ⟨hin, hread, -, hloc⟩ := h.stored.wrote hwr
  refine ⟨addr', data, hwr, hext, hext ▸ hin, hext ▸ hread, ?_⟩
  have hseg : addr'.containerId = addr.containerId := congrArg Extent.seg hext
  rw [← hseg]
  rcases hloc with hl | ⟨x, hx, -⟩
  · exact hl
  · obtain rfl := Option.some.inj (hx.1.symm.trans hs)
    exact absurd hw hx.2

end Service

end EDRStore
