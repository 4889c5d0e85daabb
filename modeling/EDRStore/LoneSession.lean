/-
# `EDRStore.LoneSession` — an upload with no other session about

One session of pairs and single chunks, on a server whose earlier sessions have
all ended.  Its elements are in flight in three queues; what is written and what
is recorded is read off the trace:

    wroteBy      the fingerprints of its `WriteChunk`s, in order
    publishedBy  the fingerprints of its final records, in order

The two lists differ by the chunk in the writer's hand only.  A base that the
writer finds can always be read, so no chunk is written a second time beside its
delta.
-/
import EDRStore.Overlap

namespace EDRStore

/-- The fingerprint of a logical item that is no normal chunk. -/
def DataRecvThd.itemFp (cfg : Components) : List SendChunk → Fp
  | cache :: comp :: _ =>
      match cache.type with
      | .fullEdrCacheChunk => dualFp cfg (cfg.generateHash cache.data) (cfg.generateHash comp.data)
      | _ => dualFp cfg (cfg.generateHash cache.data) cache.compressedFp
  | [chunk] => dualFp cfg (cfg.generateHash chunk.data) chunk.compressedFp
  | [] => []

theorem DataRecvThd.itemFp_pushes {cfg : Components} {addr : KeyForChunkHashDB}
    {item : List SendChunk} {chunks : List WrappedChunk} {fp : Fp}
    (hi : Pushes cfg addr item chunks fp) : fp = itemFp cfg item := by
  cases hi with
  | pair ht hfp => simp only [itemFp, ht, hfp]
  | @single chunk rest fp ht hfp =>
      cases rest with
      | nil => exact hfp
      | cons c rest => simp only [itemFp, ht, hfp]

namespace ClientVar

/-- An item of `FULL_EDR` is a pair or a single chunk. -/
def FullEdrForm : ThreadAction → Prop
  | .recv _ item => ∀ c ∈ item.head?, c.type ≠ .normalChunk
  | _ => True

instance : ∀ a : ThreadAction, Decidable (FullEdrForm a)
  | .recv _ item => inferInstanceAs (Decidable (∀ c ∈ item.head?, c.type ≠ .normalChunk))
  | .recvInsert => inferInstanceAs (Decidable True)
  | .recvEvict _ _ => inferInstanceAs (Decidable True)
  | .recvEnd => inferInstanceAs (Decidable True)
  | .dual => inferInstanceAs (Decidable True)
  | .comp => inferInstanceAs (Decidable True)
  | .write => inferInstanceAs (Decidable True)

variable {cfg : Components} {srv srv' : Server} {t t' : ClientVar} {a : ThreadAction}
  {evs : List Event}

/-- Without normal chunks only the dedup thread asks, and it has one chunk in
hand at a time. -/
theorem queried_pending (hf : FullEdrForm a) {fp : Fp} (hq : t.queried cfg a = some fp) :
    t.dualPending = none := by
  cases a with
  | recv addr item =>
      cases item with
      | nil => cases hq
      | cons c rest =>
          simp only [queried, if_neg (hf c rfl)] at hq
          cases hq
  | dual =>
      simp only [queried] at hq
      split at hq
      · rename_i hp _; exact hp
      · cases hq
  | _ => cases hq

/-- Nothing comes to be pending in the receiver. -/
theorem Stepped.recv_idle (hs : Stepped cfg srv t a srv' t' evs) (hf : FullEdrForm a)
    (h : t.recvPending = none) : t'.recvPending = none := by
  cases hs with
  | recvUnique hp hd ht hm => exact absurd ht (hf _ rfl)
  | recvInsert hp => rfl
  | _ => exact h

/-- The recipe lists one fingerprint for each item. -/
theorem Stepped.lists_items (hs : Stepped cfg srv t a srv' t' evs) (hf : FullEdrForm a)
    (hp : t.recvPending = none) (h : t.fileRecipe = t.received.map (DataRecvThd.itemFp cfg)) :
    t'.fileRecipe = t'.received.map (DataRecvThd.itemFp cfg) := by
  cases hs with
  | recvPush _ hd hi =>
      rw [List.map_append, ← h, DataRecvThd.itemFp_pushes hi]
      rfl
  | recvKnown _ hd ht hm => exact absurd ht (hf _ rfl)
  | recvUnique _ hd ht hm => exact absurd ht (hf _ rfl)
  | recvInsert hp' => exact nomatch hp.symm.trans hp'
  | _ => exact h

/-- What was written and not yet recorded is the chunk in hand. -/
theorem Stepped.wrote_published (hs : Stepped cfg srv t a srv' t' evs)
    (hn : ∀ c base, t.writer ≠ .avoid c base) :
    (t.writer.stored?.map (·.info.fp)).toList ++ evs.filterMap Event.wrote? =
      (evs.filterMap Event.published?).map Prod.fst ++
        (t'.writer.stored?.map (·.info.fp)).toList := by
  by_cases ha : a = .write
  · cases hs with
    | store hst =>
        generalize t.writer = pc at hst hn
        cases hst with
        | avoid => exact absurd rfl (hn _ _)
        | delta c base he => rfl
        | plain c => rfl
        | cacheDelta c => rfl
    | read hw hr =>
        simp only [hw]
        split <;> rfl
    | popDelta hw hq hst => simp only [hw]; rfl
    | popUnique hw hq hst => simp only [hw]; rfl
    | find hw => simp only [hw]; rfl
    | similar hw hst => simp only [hw]; rfl
    | nonSimilar hw hst => simp only [hw]; rfl
    | fetch hw hl => simp only [hw]; rfl
    | feature hw => simp only [hw]; rfl
    | featuresEnd hw => simp only [hw]; rfl
    | publish hw => simp only [hw]; rfl
    | writeEnd hw hq hd => simp only [hw]; rfl
    | _ => exact nomatch ha
  · rw [hs.writer_eq ha]
    cases hs with
    | store hst => exact absurd rfl ha
    | publish hw => exact absurd rfl ha
    | _ => exact List.append_nil _

/-- The record that is read is the one that `FetchBaseChunk` found. -/
theorem Stepped.reads_found (hs : Stepped cfg srv t a srv' t' evs) {c : WrappedChunk}
    {baseAddr : KeyForChunkHashDB} (hr : t'.writer = .read c baseAddr) :
    t.writer = .read c baseAddr ∨
      t.writer = .fetch c ∧ srv.fp2AddrDb.lookup c.info.addr.baseFp = some baseAddr := by
  by_cases ha : a = .write
  · cases hs with
    | fetch hw hl => cases hr; exact Or.inr ⟨hw, hl⟩
    | read hw hx =>
        simp only at hr
        split at hr <;> exact nomatch hr
    | store hst =>
        generalize t.writer = pc at hst
        cases hst <;> exact nomatch hr
    | _ => first | cases hr | cases ha
  · rw [hs.writer_eq ha] at hr
    exact Or.inl hr

/-- Delta encoding is avoided for a base that could not be read, or is empty. -/
theorem Stepped.avoids_unread (hs : Stepped cfg srv t a srv' t' evs) {c : WrappedChunk}
    {base : Bytes × Nat} (hv : t'.writer = .avoid c base) : t.writer = .avoid c base ∨
      ∃ baseAddr, t.writer = .read c baseAddr ∧
        (baseAddr.len = 0 ∨ (srv.storageCore.readChunk baseAddr t.cur).1 = none) := by
  by_cases ha : a = .write
  · cases hs with
    | @read c' baseAddr base' cur hw hx =>
        simp only at hv
        split at hv
        · rename_i h0
          cases hv
          refine Or.inr ⟨baseAddr, hw, ?_⟩
          rcases hx with ⟨-, hlen⟩ | ⟨hr, -⟩
          · exact Or.inl (hlen.symm.trans h0)
          · exact Or.inr (by rw [hr])
        · exact nomatch hv
    | store hst =>
        generalize t.writer = pc at hst
        cases hst <;> exact nomatch hv
    | _ => first | cases hv | cases ha
  · rw [hs.writer_eq ha] at hv
    exact Or.inl hv

end ClientVar

namespace Service

/-- The chunks that `s` has written. -/
def wroteBy (s : SessId) (trace : List (SessId × Event)) : List Fp :=
  trace.filterMap fun e => if e.1 = s then e.2.wrote? else none

/-- The chunks that `s` has recorded. -/
def publishedBy (s : SessId) (trace : List (SessId × Event)) : List Fp :=
  trace.filterMap fun e => if e.1 = s then e.2.published?.map Prod.fst else none

/-- The threads of all sessions have ended. -/
def Quiet (w : Service) : Prop := ∀ s t, w.clients.lookup s = some t → t.writer = .ended

def FullEdrForm : Action → Prop
  | .thread _ a => ClientVar.FullEdrForm a
  | _ => True

instance : ∀ a : Action, Decidable (FullEdrForm a)
  | .thread _ a => inferInstanceAs (Decidable (ClientVar.FullEdrForm a))
  | .login _ _ => inferInstanceAs (Decidable True)
  | .logout _ _ _ => inferInstanceAs (Decidable True)

/-- The steps of the session `s`, an upload in `FULL_EDR`. -/
def Lone (s : SessId) (w : Service) (a : Action) : Prop :=
  a.session = s ∧ Sized w a ∧ FullEdrForm a

instance (s : SessId) (w : Service) (a : Action) : Decidable (Lone s w a) :=
  inferInstanceAs (Decidable (_ ∧ _ ∧ _))

variable {cfg : Components} {log : Content} {w₀ w w' : Service} {a : Action} {s : SessId}

/-! ### The log of one session -/

theorem mem_publishedBy {trace : List (SessId × Event)} {fp : Fp} :
    fp ∈ publishedBy s trace ↔ ∃ addr, (s, .published fp addr) ∈ trace := by
  simp only [publishedBy, List.mem_filterMap]
  constructor
  · rintro ⟨⟨u, e⟩, hm, heq⟩
    split at heq
    · rename_i hu
      cases e with
      | published fp' addr => cases heq; exact ⟨addr, hu ▸ hm⟩
      | _ => exact nomatch heq
    · exact nomatch heq
  · rintro ⟨addr, hm⟩
    exact ⟨_, hm, by simp [Event.published?]⟩

theorem publishedBy_eq (trace : List (SessId × Event)) (s : SessId) :
    (publishedBy s trace : Multiset Fp) =
      Ledger.keysOf (Ledger.publishedKeys (published trace)) s := by
  have hlist : publishedBy s trace =
      ((Ledger.publishedKeys (published trace)).filter (·.1 = s)).map Prod.snd := by
    induction trace with
    | nil => rfl
    | cons e trace ih =>
        obtain ⟨u, e⟩ := e
        simp only [publishedBy, published, Ledger.publishedKeys] at ih
        cases hp : e.published? with
        | none => simp [publishedBy, published, Ledger.publishedKeys, hp, ih]
        | some x => by_cases hu : u = s <;>
            simp [publishedBy, published, Ledger.publishedKeys, hp, hu, ih]
  rw [hlist]
  rfl

theorem wroteBy_thread (trace : List (SessId × Event)) (s : SessId) (evs : List Event) :
    wroteBy s (trace ++ evs.map (s, ·)) = wroteBy s trace ++ evs.filterMap Event.wrote? := by
  rw [wroteBy, List.filterMap_append, List.filterMap_map]
  congr 1
  exact List.filterMap_congr fun e _ => if_pos rfl

theorem publishedBy_thread (trace : List (SessId × Event)) (s : SessId) (evs : List Event) :
    publishedBy s (trace ++ evs.map (s, ·)) =
      publishedBy s trace ++ (evs.filterMap Event.published?).map Prod.fst := by
  rw [publishedBy, List.filterMap_append, List.filterMap_map, List.map_filterMap]
  congr 1
  exact List.filterMap_congr fun e _ => if_pos rfl

/-- A session that never logged in has done nothing. -/
theorem trace_session {G : Service → Action → Prop} (h : Reach (step cfg) G init w) :
    ∀ e ∈ w.trace, e.1 ∈ w.clients := by
  refine h.inv (fun w => ∀ e ∈ w.trace, e.1 ∈ w.clients) (fun e he => absurd he List.not_mem_nil) ?_
  intro w a w' hi _ hs
  cases step_stepped hs with
  | login hl hn => exact fun e he => Finmap.mem_insert.mpr (Or.inr (hi e he))
  | logout cntOrder idxOrder hst hw hx =>
      exact fun e he => Finmap.mem_insert.mpr (Or.inr (hi e he))
  | thread hst ht =>
      intro e he
      rcases List.mem_append.mp he with he | he
      · exact Finmap.mem_insert.mpr (Or.inr (hi e he))
      · obtain ⟨x, -, rfl⟩ := List.mem_map.mp he
        exact Finmap.mem_insert.mpr (Or.inl rfl)

/-! ### The run of the lone session -/

/-- The chunk is a base that was there before, or one that `s` has recorded. -/
def Known (w₀ : Service) (s : SessId) (w : Service) (fp : Fp) : Prop :=
  fp ∈ w₀.srv.fp2AddrDb ∨ ∃ addr, (s, .published fp addr) ∈ w.trace

structure LoneRun (cfg : Components) (w₀ : Service) (s : SessId) (w : Service) : Prop where
  others : ∀ u, u ≠ s → w.clients.lookup u = w₀.clients.lookup u
  once : w.ledger.Once w₀.srv.fp2AddrDb (· = s)
  /-- The rest of the trace is the session's. -/
  trace : ∀ {e}, e ∈ w.trace → e.1 = s ∨ e ∈ w₀.trace
  grows : ∀ {e}, e ∈ w₀.trace → e ∈ w.trace
  features : ∀ {f b}, w.srv.feature2FpDb.lookup f = some b → Known w₀ s w b ∨
    ∃ t c, w.clients.lookup s = some t ∧ t.writer.stored? = some c ∧ c.info.fp = b
  written : wroteBy s w.trace = publishedBy s w.trace ++
    (((w.clients.lookup s).bind (·.writer.stored?)).map (·.info.fp)).toList
  recvIdle : ∀ {t}, w.clients.lookup s = some t → t.recvPending = none
  recipe : ∀ {t}, w.clients.lookup s = some t →
    t.fileRecipe = t.received.map (DataRecvThd.itemFp cfg)
  based : ∀ {t}, w.clients.lookup s = some t → t.writer.Based fun _ base => Known w₀ s w base
  /-- The record that is being read is a final one. -/
  read : ∀ {t c baseAddr}, w.clients.lookup s = some t → t.writer = .read c baseAddr →
    ∃ u fp, (u, .published fp baseAddr) ∈ w.trace
  notAvoided : ∀ {t c base}, w.clients.lookup s = some t → t.writer ≠ .avoid c base

theorem loneRun_init (hn : s ∉ w₀.clients) (htr : ∀ e ∈ w₀.trace, e.1 ∈ w₀.clients)
    (hb : w₀.ledger.Balanced) (hi : w₀.Indexed) : LoneRun cfg w₀ s w₀ := by
  have hl : w₀.clients.lookup s = none := Finmap.lookup_eq_none.mpr hn
  have hno : ∀ {e}, (s, e) ∉ w₀.trace := fun hm => hn (htr _ hm)
  have h0 : ∀ {t}, w₀.clients.lookup s ≠ some t := fun h => nomatch hl.symm.trans h
  refine ⟨fun _ _ => rfl, ⟨fun _ => rfl, ?_, ?_, ?_, ?_, ?_⟩, fun h => Or.inr h, id,
    fun h => Or.inl (Or.inl (hi.features h)), ?_, fun h => absurd h h0, fun h => absurd h h0,
    fun h => absurd h h0, fun h => absurd h h0, fun h => absurd h h0⟩
  · rintro u fp rfl hm
    exact absurd (mem_admitted.mp hm) hno
  · rintro u fp rfl hm
    exact absurd (mem_admitted.mp (hb.admitted_claimed hm)) hno
  · refine List.pairwise_of_forall_mem_list fun e he e' _ hs => ?_
    obtain ⟨u, fp⟩ := e
    cases hs
    exact absurd (mem_admitted.mp he) hno
  · refine List.pairwise_of_forall_mem_list fun e he e' _ hs => ?_
    obtain ⟨u, fp, addr⟩ := e
    cases hs
    exact absurd (mem_published.mp he) hno
  · rintro u fp addr rfl hm
    exact absurd (mem_published.mp hm) hno
  · have hw : wroteBy s w₀.trace = [] := by
      refine List.filterMap_eq_nil_iff.mpr fun e he => if_neg ?_
      rintro rfl
      exact hno he
    have hp : publishedBy s w₀.trace = [] := by
      refine List.filterMap_eq_nil_iff.mpr fun e he => if_neg ?_
      rintro rfl
      exact hno he
    rw [hw, hp, hl]
    rfl

/-- Nobody has a claim while the session's dedup thread asks. -/
theorem LoneRun.disciplined (h : LoneRun cfg w₀ s w) (hwf : w.Wf) (hq : w₀.Quiet)
    (hl : Lone s w a) {m : Ledger.Move Fp KeyForChunkHashDB}
    (hm : ∀ fp, m = .check fp → w.queried cfg a = some fp) : m.Disciplined w.ledger := by
  cases m with
  | check fp =>
      intro u hu
      have hfp := hm fp rfl
      have hu : fp ∈ w.claimed u := hu
      by_cases hus : u = s
      · subst hus
        cases a with
        | thread v b =>
            obtain rfl : v = u := hl.1
            obtain ⟨t, ht, hfp⟩ := Option.bind_eq_some_iff.mp hfp
            have hp := ClientVar.queried_pending hl.2.2 hfp
            rw [claimed_of_lookup ht] at hu
            simp [ClientVar.claimed, hp, h.recvIdle ht] at hu
        | _ => cases hfp
      · have hend := ended_claims hwf (u := u) fun t ht => hq u t (h.others u hus ▸ ht)
        rw [hend.1] at hu
        exact absurd hu (Multiset.notMem_zero _)
  | _ => trivial

/-- A base that is known to the session has a final record. -/
theorem LoneRun.known_final (h : LoneRun cfg w₀ s w) (hs₀ : w₀.Sound cfg log) (hq : w₀.Quiet)
    {fp : Fp} (hk : Known w₀ s w fp) {addr : KeyForChunkHashDB}
    (hl : w.srv.fp2AddrDb.lookup fp = some addr) : ∃ u, (u, .published fp addr) ∈ w.trace := by
  rcases hk with hk | ⟨addr', hm⟩
  · have hl₀ : w₀.srv.fp2AddrDb.lookup fp = some addr := (h.once.old hk).symm.trans hl
    obtain ⟨u, -, hm⟩ := recorded_of_ended hs₀.wf hs₀.balanced hl₀ fun u _ => hq u
    exact ⟨u, h.grows hm⟩
  · have hl' := h.once.final rfl (mem_published.mpr hm)
    obtain rfl := Option.some.inj (hl'.symm.trans hl)
    exact ⟨s, hm⟩

/-- A final record can be read by the session, and has bytes. -/
theorem LoneRun.reads (h : LoneRun cfg w₀ s w) (hq : w₀.Quiet) (hs : w.Sound cfg log)
    {t : ClientVar} (ht : w.clients.lookup s = some t) (hlive : t.writer ≠ .ended) {u : SessId}
    {fp : Fp} {addr : KeyForChunkHashDB} (hm : (u, .published fp addr) ∈ w.trace) :
    (∃ data, (w.srv.storageCore.readChunk addr t.cur).1 = some data) ∧ addr.len ≠ 0 := by
  obtain ⟨addr', data, hwr, hext⟩ := hs.published hm
  obtain ⟨-, hread, hne, hloc⟩ := hs.stored.wrote hwr
  have hseg : addr'.containerId = addr.containerId := congrArg Extent.seg hext
  have hr : Readable w.srv.storageCore t.cur addr.containerId := by
    rw [← hseg]
    rcases hloc with hin | ⟨x, hx, hid⟩
    · exact Or.inl hin
    · -- only this session has an open container
      by_cases hus : u = s
      · subst hus
        obtain rfl := Option.some.inj (hx.1.symm.trans ht)
        exact Or.inr hid
      · exact absurd (hq u x ((h.others u hus) ▸ hx.1)) hx.2
  obtain ⟨d, hd, -⟩ := readChunk_found hs.stored.logOk (hs.stored.cacheOk ⟨ht, hlive⟩)
    (hs.stored.openOk ⟨ht, hlive⟩) hr
  refine ⟨⟨d, hd⟩, fun h0 => hne ?_⟩
  rw [← hread, hext]
  simp [Extent.read, slice, KeyForChunkHashDB.extent, h0]

theorem Known.mono {fp : Fp} (h : Known w₀ s w fp) (ht : ∀ {e}, e ∈ w.trace → e ∈ w'.trace) :
    Known w₀ s w' fp :=
  h.imp_right fun ⟨addr, hm⟩ => ⟨addr, ht hm⟩

/-- A chunk in hand stays there, or its record has just been published. -/
theorem features_kept {a : ThreadAction} {t t' : ClientVar} {srv' : Server}
    {evs : List Event} (hst : w.clients.lookup s = some t)
    (ht : ClientVar.Stepped cfg w.srv t a srv' t' evs) {b : Fp} (h : Known w₀ s w b ∨
      ∃ t c, w.clients.lookup s = some t ∧ t.writer.stored? = some c ∧ c.info.fp = b) :
    Known w₀ s { w with
      srv := srv'
      clients := w.clients.insert s t'
      trace := w.trace ++ evs.map (s, ·) } b ∨
    ∃ x c, (w.clients.insert s t').lookup s = some x ∧ x.writer.stored? = some c ∧
      c.info.fp = b := by
  rcases h with hk | ⟨x, c, hx, hc, rfl⟩
  · exact Or.inl (hk.mono fun he => List.mem_append_left _ he)
  · obtain rfl := Option.some.inj (hx.symm.trans hst)
    rcases ht.stored_until hc with hc | ⟨-, he⟩
    · exact Or.inr ⟨t', c, by rw [Index.lookup_insert_ite, if_pos rfl], hc, rfl⟩
    · exact Or.inl (Or.inr ⟨c.info.addr,
        List.mem_append_right _ (List.mem_map.mpr ⟨_, he, rfl⟩)⟩)

/-- A step of one of the session's threads. -/
theorem LoneRun.thread (h : LoneRun cfg w₀ s w) (hs₀ : w₀.Sound cfg log) (hq : w₀.Quiet)
    {log' : Content} (hs : w.Sound cfg log') {a : ThreadAction} {t t' : ClientVar} {srv' : Server}
    {evs : List Event} (hst : w.clients.lookup s = some t)
    (ht : ClientVar.Stepped cfg w.srv t a srv' t' evs) (hf : ClientVar.FullEdrForm a)
    (honce : ({ w with
      srv := srv'
      clients := w.clients.insert s t'
      trace := w.trace ++ evs.map (s, ·) } : Service).ledger.Once w₀.srv.fp2AddrDb (· = s)) :
    LoneRun cfg w₀ s { w with
      srv := srv'
      clients := w.clients.insert s t'
      trace := w.trace ++ evs.map (s, ·) } := by
  have hself : ∀ {x}, (w.clients.insert s t').lookup s = some x → x = t' := by
    intro x hx
    rw [Index.lookup_insert_ite, if_pos rfl] at hx
    exact (Option.some.inj hx).symm
  have hgrow : ∀ {e}, e ∈ w.trace → e ∈ w.trace ++ evs.map (s, ·) :=
    fun he => List.mem_append_left _ he
  refine ⟨?_, honce, ?_, fun he => hgrow (h.grows he), ?_, ?_, ?_, ?_, ?_, ?_, ?_⟩
  · intro u hu
    rw [Index.lookup_insert_ite, if_neg hu]
    exact h.others u hu
  · intro e he
    rcases List.mem_append.mp he with he | he
    · exact h.trace he
    · obtain ⟨x, -, rfl⟩ := List.mem_map.mp he
      exact Or.inl rfl
  · intro f b hl
    rcases ht.features with heq | ⟨c, f', todo, hw, hw', -, heq⟩
    · rw [heq] at hl
      exact features_kept hst ht (h.features hl)
    · rw [heq, Index.lookup_insert_ite] at hl
      split at hl
      · cases hl
        exact Or.inr ⟨t', c, by rw [Index.lookup_insert_ite, if_pos rfl], by rw [hw']; rfl, rfl⟩
      · exact features_kept hst ht (h.features hl)
  · rw [wroteBy_thread, publishedBy_thread, Index.lookup_insert_ite, if_pos rfl, h.written, hst]
    simp only [Option.bind_some, List.append_assoc]
    rw [ht.wrote_published fun c base => h.notAvoided hst]
  · intro x hx
    cases hself hx
    exact ht.recv_idle hf (h.recvIdle hst)
  · intro x hx
    cases hself hx
    exact ht.lists_items hf (h.recvIdle hst) (h.recipe hst)
  · intro x hx
    cases hself hx
    refine (ht.based (fun hw hl => ?_) (h.based hst)).mono fun _ _ hk => hk.mono hgrow
    rcases h.features hl with hk | ⟨x, c', hx, hc', -⟩
    · exact hk
    · obtain rfl := Option.some.inj (hx.symm.trans hst)
      rw [hw] at hc'
      exact nomatch hc'
  · intro x c baseAddr hx hr
    cases hself hx
    rcases ht.reads_found hr with hr | ⟨hw, hl⟩
    · obtain ⟨u, fp, hm⟩ := h.read hst hr
      exact ⟨u, fp, hgrow hm⟩
    · have hb := h.based hst
      rw [hw] at hb
      obtain ⟨u, hm⟩ := h.known_final hs₀ hq hb hl
      exact ⟨u, _, hgrow hm⟩
  · intro x c base hx hv
    cases hself hx
    rcases ht.avoids_unread hv with hv | ⟨baseAddr, hr, hno⟩
    · exact h.notAvoided hst hv
    · obtain ⟨u, fp, hm⟩ := h.read hst hr
      obtain ⟨⟨data, hd⟩, hlen⟩ := h.reads hq hs hst (by rw [hr]; exact fun hx => nomatch hx) hm
      rcases hno with h0 | hno
      · exact hlen h0
      · rw [hd] at hno
        exact nomatch hno

theorem loneRun_step (h : LoneRun cfg w₀ s w) (hs₀ : w₀.Sound cfg log) (hq : w₀.Quiet)
    {log' : Content} (hs : w.Sound cfg log') (hl : Lone s w a) (hst : Stepped cfg w a w') :
    LoneRun cfg w₀ s w' := by
  obtain ⟨m, hm, hmq⟩ := ledger_step hs.wf hst
  have honce : w'.ledger.Once w₀.srv.fp2AddrDb (· = s) :=
    h.once.step hs.balanced hl.1 (h.disciplined hs.wf hq hl hmq) hm
  cases hst with
  | @login u c hlock hn =>
      obtain rfl : u = s := hl.1
      have hnone : w.clients.lookup u = none := Finmap.lookup_eq_none.mpr hn
      have hself : ∀ {x}, (w.clients.insert u (w.openClient cfg c)).lookup u = some x →
          x = w.openClient cfg c := by
        intro x hx
        rw [Index.lookup_insert_ite, if_pos rfl] at hx
        exact (Option.some.inj hx).symm
      refine ⟨?_, honce, h.trace, h.grows, ?_, ?_, ?_, ?_, ?_, ?_, ?_⟩
      · intro v hv
        rw [Index.lookup_insert_ite, if_neg hv]
        exact h.others v hv
      · intro f b hf
        rcases h.features hf with hk | ⟨t, x, ht, -⟩
        · exact Or.inl hk
        · exact nomatch hnone.symm.trans ht
      · have hw := h.written
        rw [hnone] at hw
        rw [Index.lookup_insert_ite, if_pos rfl]
        exact hw
      · intro x hx; cases hself hx; rfl
      · intro x hx; cases hself hx; rfl
      · intro x hx; cases hself hx; trivial
      · intro x c' baseAddr hx hr; cases hself hx; exact nomatch hr
      · intro x c' base hx hv; cases hself hx; exact nomatch hv
  | @thread u a t srv' t' evs hlook ht =>
      obtain rfl : u = s := hl.1
      exact h.thread hs₀ hq hs hlook ht hl.2.2 honce
  | @logout u t cntOrder idxOrder hlook hw hi =>
      obtain rfl : u = s := hl.1
      have hidle := h.recvIdle hlook
      have hrecipe := h.recipe hlook
      have hbased := h.based hlook
      have hself : ∀ {x}, (w.clients.insert u { t with deleted := true }).lookup u = some x →
          x = { t with deleted := true } := by
        intro x hx
        rw [Index.lookup_insert_ite, if_pos rfl] at hx
        exact (Option.some.inj hx).symm
      refine ⟨?_, honce, h.trace, h.grows, ?_, ?_, ?_, ?_, ?_, ?_, ?_⟩
      · intro v hv
        rw [Index.lookup_insert_ite, if_neg hv]
        exact h.others v hv
      · intro f b hf
        rcases h.features hf with hk | ⟨x, c, hx, hc, hfp⟩
        · exact Or.inl hk
        · obtain rfl := Option.some.inj (hx.symm.trans hlook)
          exact Or.inr ⟨{ x with deleted := true }, c,
            by rw [Index.lookup_insert_ite, if_pos rfl], hc, hfp⟩
      · have hwr := h.written
        rw [hlook] at hwr
        rw [Index.lookup_insert_ite, if_pos rfl]
        exact hwr
      · intro x hx; cases hself hx; exact hidle
      · intro x hx; cases hself hx; exact hrecipe
      · intro x hx; cases hself hx; exact hbased
      · intro x c baseAddr hx hr; cases hself hx; exact h.read hlook hr
      · intro x c base hx hv
        cases hself hx
        exact nomatch hw.symm.trans hv

theorem loneRun_reach (hid : cfg.FreshIds) (hd : cfg.DeltaNonempty)
    (h₀ : Reach (step cfg) Sized init w₀) (hq : w₀.Quiet) (hn : s ∉ w₀.clients)
    (h : Reach (step cfg) (Lone s) w₀ w) : LoneRun cfg w₀ s w ∧ ∃ log, w.Sound cfg log := by
  obtain ⟨log, hs₀⟩ := sound_reach hid hd h₀
  refine h.inv (fun w => LoneRun cfg w₀ s w ∧ ∃ log, w.Sound cfg log)
    ⟨loneRun_init hn (trace_session h₀) hs₀.balanced hs₀.indexed, log, hs₀⟩ ?_
  rintro w a w' ⟨hi, log', hs⟩ hl hst
  have hst := step_stepped hst
  exact ⟨loneRun_step hi hs₀ hq hs hl hst, sound_step hid hd hs hl.2.1 hst⟩

/-- Each new chunk is written once and recorded once, the chunks that were there
before are left alone, and the recipe lists one chunk with a final record for
each item. -/
theorem stored_once (hid : cfg.FreshIds) (hd : cfg.DeltaNonempty)
    (h₀ : Reach (step cfg) Sized init w₀) (hq : w₀.Quiet) (hn : s ∉ w₀.clients)
    (h : Reach (step cfg) (Lone s) w₀ w) {t : ClientVar} (ht : w.clients.lookup s = some t)
    (hend : t.writer = .ended) :
    (∀ fp ∈ t.fileRecipe, fp ∉ w₀.srv.fp2AddrDb →
      (wroteBy s w.trace).count fp = 1 ∧ (publishedBy s w.trace).count fp = 1 ∧
      ∃ addr addr' data, (s, .wrote fp addr' data) ∈ w.trace ∧ addr'.extent = addr.extent ∧
        (s, .published fp addr) ∈ w.trace ∧ w.srv.fp2AddrDb.lookup fp = some addr) ∧
    (∀ fp ∈ w₀.srv.fp2AddrDb, w.srv.fp2AddrDb.lookup fp = w₀.srv.fp2AddrDb.lookup fp ∧
      (wroteBy s w.trace).count fp = 0) ∧
    t.fileRecipe = t.received.map (DataRecvThd.itemFp cfg) ∧
    ∀ fp ∈ t.fileRecipe, ∃ u addr, (u, .published fp addr) ∈ w.trace ∧
      w.srv.fp2AddrDb.lookup fp = some addr := by
  obtain ⟨hr, log, hs⟩ := loneRun_reach hid hd h₀ hq hn h
  obtain ⟨log₀, hs₀⟩ := sound_reach hid hd h₀
  obtain ⟨hq1, hcl, hhd⟩ := (hs.wf s t ht).drained hend
  -- at the end, what was written is what was recorded
  have hwp : wroteBy s w.trace = publishedBy s w.trace := by
    rw [hr.written, ht]
    simp [hend, WriterPc.stored?]
  have hnodup : (publishedBy s w.trace).Nodup := by
    have hnd := hr.once.nodup rfl
    have hacc := hs.balanced.account s
    rw [show w.ledger.claimed s = 0 from (claimed_of_lookup ht).trans hcl,
      show w.ledger.held s = 0 from (held_of_lookup ht).trans hhd, add_zero, add_zero] at hacc
    rw [hacc, show w.ledger.published = published w.trace from rfl, ← publishedBy_eq] at hnd
    exact Multiset.coe_nodup.mp hnd
  have hmem : ∀ fp ∈ t.fileRecipe, fp ∈ w.srv.fp2AddrDb := by
    intro fp hfp
    rcases hs.indexed.recipe ht fp hfp with hm | hm | ⟨c, hc, -⟩
    · exact hm
    · rw [hcl] at hm
      exact absurd hm (Multiset.notMem_zero _)
    · rw [hq1] at hc
      exact absurd hc List.not_mem_nil
  have hfinal : ∀ fp ∈ t.fileRecipe, ∃ u addr, (u, .published fp addr) ∈ w.trace ∧
      w.srv.fp2AddrDb.lookup fp = some addr := by
    intro fp hfp
    obtain ⟨addr, hl⟩ := Index.lookup_isSome_of_mem (hmem fp hfp)
    obtain ⟨u, -, hm⟩ := recorded_of_ended hs.wf hs.balanced hl fun u _ x hx => by
      by_cases hu : u = s
      · subst hu
        obtain rfl := Option.some.inj (hx.symm.trans ht)
        exact hend
      · exact hq u x (hr.others u hu ▸ hx)
    exact ⟨u, addr, hm, hl⟩
  refine ⟨?_, ?_, hr.recipe ht, hfinal⟩
  · intro fp hfp hnew
    obtain ⟨u, addr, hm, hl⟩ := hfinal fp hfp
    obtain rfl : u = s := by
      rcases hr.trace hm with hu | hm
      · exact hu
      · exact absurd (hs₀.balanced.published_mem (mem_published.mpr hm)) hnew
    have hp : (publishedBy u w.trace).count fp = 1 :=
      List.count_eq_one_of_mem hnodup (mem_publishedBy.mpr ⟨addr, hm⟩)
    obtain ⟨addr', data, hwr, hext⟩ := hs.published hm
    exact ⟨hwp ▸ hp, hp, addr, addr', data, hwr, hext, hm, hl⟩
  · intro fp hold
    refine ⟨hr.once.old hold, ?_⟩
    rw [hwp, List.count_eq_zero]
    intro hp
    obtain ⟨addr, hm⟩ := mem_publishedBy.mp hp
    exact hr.once.fresh rfl (hs.balanced.admitted_published (mem_published.mpr hm)) hold

/-- After the two uploads of `endsBoth`, a third client sends the same chunk
again and a similar one. -/
def loneUpload : List Action :=
  [.login 2 2, .thread 2 (.recv neverAssigned raceItem), .thread 2 (.recv neverAssigned similarItem),
    .thread 2 .recvEnd] ++
  List.replicate 6 (.thread 2 .dual) ++ List.replicate 4 (.thread 2 .comp) ++
  List.replicate 10 (.thread 2 .write)

def loneUploadEnd : Service := endOf (step Components.plain) endsBothEnd loneUpload

theorem stored_once_sample :
    (wroteBy 2 loneUploadEnd.trace).count [1, 8, 3, 7] = 1 ∧
    (publishedBy 2 loneUploadEnd.trace).count [1, 8, 3, 7] = 1 ∧
    (wroteBy 2 loneUploadEnd.trace).count [1, 7, 2, 7] = 0 := by
  have hs : (loneUploadEnd.clients.lookup 2).map (fun t => (t.writer, t.fileRecipe)) =
      some (.ended, [[1, 7, 2, 7], [1, 8, 3, 7]]) := by decide +kernel
  obtain ⟨t, hs, heq⟩ := Option.map_eq_some_iff.mp hs
  have hq : ∀ s ∈ endsBothEnd.clients.keys,
      (endsBothEnd.clients.lookup s).map ClientVar.writer = some .ended := by decide +kernel
  have hquiet : endsBothEnd.Quiet := by
    intro s t ht
    obtain ⟨x, hx, hw⟩ := Option.map_eq_some_iff.mp
      (hq s (Finmap.mem_keys.mpr (Index.mem_of_lookup ht)))
    obtain rfl := Option.some.inj (hx.symm.trans ht)
    exact hw
  obtain ⟨hnew, hold, -⟩ := stored_once Components.plain_freshIds Components.plain_deltaNonempty
    (endOf_reach (by decide +kernel) (by decide +kernel)) hquiet
    (Finmap.mem_keys.not.mp (by decide +kernel))
    (show Reach (step Components.plain) (Lone 2) endsBothEnd loneUploadEnd from
      endOf_reach (by decide +kernel) (by decide +kernel)) hs (Prod.mk.inj heq).1
  have hin := hnew [1, 8, 3, 7] (by rw [(Prod.mk.inj heq).2]; decide)
    (Finmap.mem_keys.not.mp (by decide +kernel))
  exact ⟨hin.1, hin.2.1, (hold [1, 7, 2, 7] (Finmap.mem_keys.mp (by decide +kernel))).2⟩

end Service

end EDRStore
