/-
# `EDRStore.AdmitOnce` — a fingerprint is admitted as unique once

`DetectDuplicate` asks and then inserts, each under the lock of the index but
not both under one.  Between the two a second session can ask for the same
chunk, and both find it unique:

    session 0   query X: absent                insert X
    session 1                   query X: absent          insert X

The second copy of `X` is then similar to the first, and the record of the
first is replaced by a delta whose base is `X`.  When no query falls into the
gap of another one for the same chunk, each chunk is admitted once, its record
is final, and no record names itself.
-/
import EDRStore.CachedBases

namespace EDRStore

namespace ClientVar

variable {cfg : Components} {srv srv' : Server} {t t' : ClientVar} {a : ThreadAction}
  {evs : List Event}

/-- A stored chunk stays in hand until its record is published. -/
theorem Stepped.stored_until (hs : Stepped cfg srv t a srv' t' evs) {c : WrappedChunk}
    (hc : t.writer.stored? = some c) : t'.writer.stored? = some c ∨
      t.writer = .publish c ∧ .published c.info.fp c.info.addr ∈ evs := by
  by_cases ha : a = .write
  · cases hs with
    | feature hw => rw [hw] at hc; exact Or.inl hc
    | featuresEnd hw => rw [hw] at hc; exact Or.inl hc
    | publish hw =>
        rw [hw] at hc
        cases hc
        exact Or.inr ⟨hw, List.mem_singleton.mpr rfl⟩
    | store hst =>
        generalize t.writer = pc at hst hc
        cases hst <;> exact nomatch hc
    | popDelta hw => rw [hw] at hc; exact nomatch hc
    | popUnique hw => rw [hw] at hc; exact nomatch hc
    | find hw => rw [hw] at hc; exact nomatch hc
    | similar hw => rw [hw] at hc; exact nomatch hc
    | nonSimilar hw => rw [hw] at hc; exact nomatch hc
    | fetch hw => rw [hw] at hc; exact nomatch hc
    | read hw => rw [hw] at hc; exact nomatch hc
    | writeEnd hw => rw [hw] at hc; exact nomatch hc
    | _ => exact nomatch ha
  · rw [hs.writer_eq ha]
    exact Or.inl hc

end ClientVar

namespace Service

/-- A query is made only of a chunk that no thread has found unique and not
inserted yet. -/
def NoOverlap (cfg : Components) (w : Service) (a : Action) : Prop :=
  ∀ fp ∈ w.queried cfg a, ∀ s ∈ w.clients.keys, fp ∉ w.claimed s

instance (cfg : Components) (w : Service) (a : Action) : Decidable (NoOverlap cfg w a) :=
  inferInstanceAs (Decidable (∀ fp ∈ w.queried cfg a, ∀ s ∈ w.clients.keys, fp ∉ w.claimed s))

/-- The chunk was recorded as a base and, later, as a delta. -/
def Turned (w : Service) (fp : Fp) : Prop :=
  ∃ s s' addr addr', (s, .published fp addr) ∈ w.trace ∧ (s', .published fp addr') ∈ w.trace ∧
    addr.stat = .compBaseChunk ∧ addr'.stat = .compDeltaChunk

/-- Every chunk is admitted once and recorded once, and a record names another
chunk, which has stayed what it was. -/
structure AdmittedOnce (w : Service) : Prop where
  verdict : ((admitted w.trace).map Prod.snd).Nodup
  written : ((published w.trace).map fun e => e.2.1).Nodup
  kept : ∀ {s fp addr}, (s, .published fp addr) ∈ w.trace → w.srv.fp2AddrDb.lookup fp = some addr
  base : ∀ {s fp addr}, (s, .published fp addr) ∈ w.trace →
    addr.stat = .compDeltaChunk ∨ addr.stat = .cacheDeltaChunk →
      addr.baseFp ≠ fp ∧ ¬ w.Turned addr.baseFp

/-! ## The bases that the feature index gives -/

/-- The chunk is stored as a base, its record published or next to be. -/
def Settled (w : Service) (fp : Fp) : Prop :=
  (∃ s addr, (s, .published fp addr) ∈ w.trace ∧ addr.stat = .compBaseChunk) ∨
    ∃ s t c, w.clients.lookup s = some t ∧ t.writer.stored? = some c ∧ c.info.fp = fp ∧
      c.info.addr.stat = .compBaseChunk

variable {cfg : Components} {w w' : Service} {a : Action}

theorem Settled.thread {fp : Fp} (h : w.Settled fp) {s : SessId} {a : ThreadAction}
    {t t' : ClientVar} {srv' : Server} {evs : List Event} (hs : w.clients.lookup s = some t)
    (ht : ClientVar.Stepped cfg w.srv t a srv' t' evs) : Settled { w with
      srv := srv'
      clients := w.clients.insert s t'
      trace := w.trace ++ evs.map (s, ·) } fp := by
  rcases h with ⟨u, addr, hm, hb⟩ | ⟨u, x, c, hx, hc, rfl, hb⟩
  · exact Or.inl ⟨u, addr, List.mem_append_left _ hm, hb⟩
  · by_cases hu : u = s
    · subst hu
      obtain rfl := Option.some.inj (hx.symm.trans hs)
      rcases ht.stored_until hc with hc | ⟨-, he⟩
      · exact Or.inr ⟨u, t', c, by rw [Index.lookup_insert_ite, if_pos rfl], hc, rfl, hb⟩
      · exact Or.inl ⟨u, c.info.addr,
          List.mem_append_right _ (List.mem_map.mpr ⟨_, he, rfl⟩), hb⟩
    · exact Or.inr ⟨u, x, c, by rw [Index.lookup_insert_ite, if_neg hu]; exact hx, hc, rfl, hb⟩

/-- A session that opens or closes holds no stored chunk before or after. -/
theorem Settled.session {fp : Fp} (h : w.Settled fp) {s : SessId} {t' : ClientVar}
    (htr : w'.trace = w.trace) (hc : w'.clients = w.clients.insert s t')
    (hs : ∀ t, w.clients.lookup s = some t → t'.writer = t.writer) : w'.Settled fp := by
  rcases h with ⟨u, addr, hm, hb⟩ | ⟨u, x, c, hx, hst, hfp⟩
  · exact Or.inl ⟨u, addr, htr ▸ hm, hb⟩
  · by_cases hu : u = s
    · subst hu
      refine Or.inr ⟨u, t', c, ?_, ?_, hfp⟩
      · rw [hc, Index.lookup_insert_ite, if_pos rfl]
      · rw [hs x hx]
        exact hst
    · refine Or.inr ⟨u, x, c, ?_, hst, hfp⟩
      rw [hc, Index.lookup_insert_ite, if_neg hu]
      exact hx

/-! ## Runs without overlap -/

/-- What holds when no query falls into another one's gap. -/
structure Exclusive (w : Service) : Prop where
  wf : w.Wf
  balanced : w.ledger.Balanced
  once : w.ledger.Once ∅ fun _ => True
  cached : w.CacheOrdered
  settled : ∀ {f b}, w.srv.feature2FpDb.lookup f = some b → w.Settled b
  based : ∀ {s t}, w.clients.lookup s = some t → t.writer.Based (· ≠ ·)
  recorded : ∀ {s fp addr}, (s, .published fp addr) ∈ w.trace → addr.stat = .compDeltaChunk →
    fp ≠ addr.baseFp

theorem exclusive_init : init.Exclusive where
  wf := wf_init
  balanced := balanced_init
  once :=
    { old := fun h => absurd h Finmap.notMem_empty
      fresh := fun _ _ => Finmap.notMem_empty
      absent := fun _ h => absurd h (Multiset.notMem_zero _)
      admitted_once := List.Pairwise.nil
      published_once := List.Pairwise.nil
      final := fun _ h => absurd h List.not_mem_nil }
  cached := cacheOrdered_init
  settled := fun h => by simp [init, Server.empty] at h
  based := fun h => by simp [init] at h
  recorded := fun h => absurd h List.not_mem_nil

/-- The chunk in hand is not held by another session, so no feature maps to it
before its own are inserted. -/
theorem Exclusive.other_base (h : w.Exclusive) {s : SessId} {t : ClientVar} {c : WrappedChunk}
    {m : FeatureMatch} {todo : List Feature} {f : Feature} {b : Fp}
    (hs : w.clients.lookup s = some t) (hw : t.writer = .find c m todo)
    (hl : w.srv.feature2FpDb.lookup f = some b) : c.info.fp ≠ b := by
  rintro rfl
  have hheld : c.info.fp ∈ w.held s := by
    rw [held_of_lookup hs]
    exact ClientVar.inHand_held (by rw [hw]; rfl)
  rcases h.settled hl with ⟨u, addr, hm, -⟩ | ⟨u, x, c', hx, hc', hfp, -⟩
  · exact h.once.not_published h.balanced trivial trivial hheld (mem_published.mpr hm)
  · have hheld' : c.info.fp ∈ w.held u := by
      rw [held_of_lookup hx, ← hfp]
      exact ClientVar.inHand_held (WriterPc.chunk?_of_stored? hc')
    obtain rfl := h.once.owner trivial trivial (h.balanced.admitted_held hheld)
      (h.balanced.admitted_held hheld')
    obtain rfl := Option.some.inj (hx.symm.trans hs)
    rw [hw] at hc'
    exact nomatch hc'

/-- Without overlap, the ledger is disciplined. -/
theorem disciplined {m : Ledger.Move Fp KeyForChunkHashDB} (hn : NoOverlap cfg w a)
    (hq : ∀ fp, m = .check fp → w.queried cfg a = some fp) : m.Disciplined w.ledger := by
  cases m with
  | check fp =>
      intro u hu
      cases hl : w.clients.lookup u with
      | none =>
          have h0 : w.claimed u = 0 := by simp only [claimed, hl]; rfl
          have hu : fp ∈ w.claimed u := hu
          rw [h0] at hu
          exact absurd hu (Multiset.notMem_zero _)
      | some t => exact hn fp (hq fp rfl) u (Finmap.mem_keys.mpr (Index.mem_of_lookup hl)) hu
  | _ => trivial

theorem exclusive_step (h : w.Exclusive) (hn : NoOverlap cfg w a) (hs : Stepped cfg w a w') :
    w'.Exclusive := by
  obtain ⟨m, hm, hq⟩ := ledger_step h.wf hs
  have hwf := wf_step h.wf hs
  have hbal := h.balanced.step hm
  have honce := h.once.step h.balanced trivial (disciplined hn hq) hm
  have hcached := cacheOrdered_step h.wf h.cached hs
  cases hs with
  | @login s c hl hsn =>
      refine ⟨hwf, hbal, honce, hcached, ?_, ?_, h.recorded⟩
      · intro f b hf
        refine (h.settled hf).session rfl rfl fun t ht => ?_
        rw [Finmap.lookup_eq_none.mpr hsn] at ht
        exact nomatch ht
      · intro u x hx
        rw [Index.lookup_insert_ite] at hx
        split at hx
        · cases hx; trivial
        · exact h.based hx
  | @thread s a t srv' t' evs hst ht =>
      refine ⟨hwf, hbal, honce, hcached, ?_, ?_, ?_⟩
      · intro f b hf
        rcases ht.features with heq | ⟨c, f', todo, hw, hw', -, heq⟩
        · rw [heq] at hf
          exact (h.settled hf).thread hst ht
        · rw [heq, Index.lookup_insert_ite] at hf
          split at hf
          · cases hf
            have hb := h.based hst
            rw [hw] at hb
            exact Or.inr ⟨s, t', c, by rw [Index.lookup_insert_ite, if_pos rfl], by rw [hw']; rfl,
              rfl, hb⟩
          · exact (h.settled hf).thread hst ht
      · intro u x hx
        rw [Index.lookup_insert_ite] at hx
        split at hx
        · cases hx
          exact ht.based (fun hw hl => h.other_base hst hw hl) (h.based hst)
        · exact h.based hx
      · intro u fp addr hmem hstat
        rcases List.mem_append.mp hmem with hmem | hmem
        · exact h.recorded hmem hstat
        · obtain ⟨e, hmem, heq⟩ := List.mem_map.mp hmem
          cases heq
          obtain ⟨c, hw, rfl, rfl⟩ := ht.published hmem
          have hb := h.based hst
          rw [hw] at hb
          exact hb hstat
  | @logout s t cntOrder idxOrder hst hw hi =>
      have hb := h.based hst
      refine ⟨hwf, hbal, honce, hcached, ?_, ?_, h.recorded⟩
      · intro f b hf
        refine (h.settled hf).session rfl rfl fun x hx => ?_
        obtain rfl := Option.some.inj (hx.symm.trans hst)
        rfl
      · intro u x hx
        rw [Index.lookup_insert_ite] at hx
        split at hx
        · cases hx; exact hb
        · exact h.based hx

theorem exclusive_reach (h : Reach (step cfg) (NoOverlap cfg) init w) : w.Exclusive :=
  h.inv Exclusive exclusive_init fun _ _ _ hi hn hs => exclusive_step hi hn (step_stepped hs)

theorem Exclusive.admittedOnce (hx : w.Exclusive) : w.AdmittedOnce := by
  have hpub : ((published w.trace).map fun e => e.2.1).Nodup := by
    rw [List.Nodup, List.pairwise_map]
    exact hx.once.published_once.imp fun hne => hne trivial trivial
  have hkept : ∀ {s fp addr}, (s, .published fp addr) ∈ w.trace →
      w.srv.fp2AddrDb.lookup fp = some addr :=
    fun hm => hx.once.final trivial (mem_published.mpr hm)
  refine ⟨?_, hpub, hkept, ?_⟩
  · rw [List.Nodup, List.pairwise_map]
    exact hx.once.admitted_once.imp fun hne => hne trivial trivial
  · intro s fp addr hm hstat
    refine ⟨?_, ?_⟩
    · rcases hstat with hstat | hstat
      · exact (hx.recorded hm hstat).symm
      · exact (hx.cached.recorded hm hstat).symm
    · -- both records of a turned chunk would be the one in the index
      rintro ⟨u, u', addr₁, addr₂, h₁, h₂, hb, hd⟩
      have heq := Option.some.inj ((hkept h₁).symm.trans (hkept h₂))
      rw [heq, hd] at hb
      exact nomatch hb

/-! ## Runs with an overlap -/

/-- The trace only grows. -/
theorem Stepped.trace_grows (hs : Stepped cfg w a w') : ∃ evs, w'.trace = w.trace ++ evs := by
  cases hs with
  | login hl hsn => exact ⟨[], (List.append_nil _).symm⟩
  | thread hst ht => exact ⟨_, rfl⟩
  | logout cntOrder idxOrder hst hw hi => exact ⟨[], (List.append_nil _).symm⟩

theorem trace_grows {as : List Action} (h : runSteps (step cfg) w as = .ok w') :
    ∃ evs, w'.trace = w.trace ++ evs := by
  refine runSteps_inv (fun v => ∃ evs, v.trace = w.trace ++ evs) ?_ ⟨[], (List.append_nil _).symm⟩ h
  rintro v a v₁ ⟨evs, he⟩ h₁
  obtain ⟨evs', he'⟩ := (step_stepped h₁).trace_grows
  exact ⟨evs ++ evs', by rw [he', he, List.append_assoc]⟩

/-- The query of an absent chunk gives `UNIQUE_CHUNK`. -/
theorem admitted_of_queried {fp : Fp} (hs : Stepped cfg w a w') (hq : w.queried cfg a = some fp)
    (hm : fp ∉ w.srv.fp2AddrDb) : admitted w'.trace = admitted w.trace ++ [(a.session, fp)] := by
  cases hs with
  | login hl hsn => cases hq
  | logout cntOrder idxOrder hst hw hi => cases hq
  | @thread s a t srv' t' evs hst ht =>
      simp only [queried, hst, Option.bind_some] at hq
      have he : evs = [.unique fp] := by
        cases ht with
        | @recvPush addr item chunks fp' hp hd hi =>
            cases hi with
            | pair ht hfp => simp [ClientVar.queried, ht] at hq
            | single ht hfp => simp [ClientVar.queried, ht] at hq
        | recvKnown hp hd ht hkn =>
            simp only [ClientVar.queried, ht, if_true, Option.some.injEq] at hq
            exact absurd (hq ▸ hkn) hm
        | recvUnique hp hd ht hkn =>
            simp only [ClientVar.queried, ht, if_true, Option.some.injEq] at hq
            rw [hq]
        | dualInsert hp => simp [ClientVar.queried, hp] at hq
        | dualPass hp hq' hst' => rcases hst' with h | h <;> simp [ClientVar.queried, hp, hq', h] at hq
        | dualKnown hp hq' hst' hkn =>
            simp only [ClientVar.queried, hp, hq', hst', if_true, Option.some.injEq] at hq
            exact absurd (hq ▸ hkn) hm
        | dualUnique hp hq' hst' hkn =>
            simp only [ClientVar.queried, hp, hq', hst', if_true, Option.some.injEq] at hq
            rw [hq]
        | dualEnd hp hq' hd => simp [ClientVar.queried, hp, hq'] at hq
        | _ => cases hq
      rw [he]
      simp only [admitted, List.filterMap_append, List.map_cons, List.map_nil, List.filterMap_cons,
        List.filterMap_nil, Event.unique?, Option.map_some, Action.session]

/-- A query in the gap of another one admits the chunk again. -/
theorem Exclusive.overlap (h : w.Exclusive) (hn : ¬ NoOverlap cfg w a) (hs : Stepped cfg w a w') :
    ¬ ((admitted w'.trace).map Prod.snd).Nodup := by
  unfold NoOverlap at hn
  push Not at hn
  obtain ⟨fp, hq, u, -, hu⟩ := hn
  have habs : fp ∉ w.srv.fp2AddrDb := h.once.absent (s := u) trivial hu
  have hmem : fp ∈ (admitted w.trace).map Prod.snd :=
    List.mem_map.mpr ⟨_, h.balanced.admitted_claimed (s := u) hu, rfl⟩
  rw [admitted_of_queried hs hq habs, List.map_append, List.nodup_append]
  rintro ⟨-, -, hd⟩
  exact hd fp hmem fp List.mem_cons_self rfl

/-- Where the chunks admitted are all different, no two queries overlapped. -/
theorem Exclusive.allowed {as : List Action} (hx : w.Exclusive)
    (h : runSteps (step cfg) w as = .ok w') (hv : ((admitted w'.trace).map Prod.snd).Nodup) :
    Allowed (step cfg) (NoOverlap cfg) w as := by
  refine allowed_of_end Exclusive
    (fun _ _ _ hx hn h₁ => exclusive_step hx hn (step_stepped h₁)) ?_ hx h
  intro w a w₁ as hx h₁ hrun
  by_contra hn
  obtain ⟨evs, he⟩ := trace_grows hrun
  rw [he, admitted, List.filterMap_append, List.map_append] at hv
  exact hx.overlap hn (step_stepped h₁) (List.nodup_append.mp hv).1

/-- Every chunk is admitted once, and all that follows from it, in exactly the
runs in which no query falls into another one's gap. -/
theorem admitted_once_iff {as : List Action} (h : runSteps (step cfg) init as = .ok w) :
    w.AdmittedOnce ↔ Allowed (step cfg) (NoOverlap cfg) init as := by
  constructor
  · intro ho
    exact exclusive_init.allowed h ho.verdict
  · intro hal
    exact (exclusive_reach (runSteps_reach hal h)).admittedOnce

/-! ### The race -/

/-- One chunk, sent as a pair. -/
def raceItem : List SendChunk :=
  [⟨.fullEdrCacheChunk, [1, 7], ⟨1, 2, 3⟩, []⟩, ⟨.normalChunk, [2, 7], ⟨1, 2, 3⟩, []⟩]

/-- Two clients send it, and their dedup threads come to its query. -/
def raceStart : List Action :=
  [.login 0 0, .login 1 1, .thread 0 (.recv ⟨.compBaseChunk, [], 0, 0, []⟩ raceItem),
    .thread 1 (.recv ⟨.compBaseChunk, [], 0, 0, []⟩ raceItem),
    .thread 0 .dual, .thread 1 .dual]

/-- Both queries before both inserts. -/
def race : List Action := raceStart ++
  [.thread 0 .dual, .thread 1 .dual, .thread 0 .dual, .thread 1 .dual,
    .thread 0 .comp, .thread 0 .comp, .thread 1 .comp, .thread 1 .comp] ++
  List.replicate 11 (.thread 0 .write) ++ List.replicate 10 (.thread 1 .write)

/-- The second query after the first insert. -/
def raceAvoided : List Action := raceStart ++
  [.thread 0 .dual, .thread 0 .dual, .thread 1 .dual, .thread 0 .comp, .thread 0 .comp] ++
  List.replicate 11 (.thread 0 .write)

def raceEnd : Service := endOf (step Components.plain) init race

def raceAvoidedEnd : Service := endOf (step Components.plain) init raceAvoided

/-- Both clients find the chunk unique, and its record ends as a delta against
itself. -/
theorem race_admits_twice : runSteps (step Components.plain) init race = .ok raceEnd ∧
    admitted raceEnd.trace = [(0, [1, 7, 2, 7]), (1, [1, 7, 2, 7])] ∧
    raceEnd.srv.fp2AddrDb.lookup [1, 7, 2, 7] =
      some ⟨.compDeltaChunk, [0], 2, 4, [1, 7, 2, 7]⟩ ∧
    raceEnd.Turned [1, 7, 2, 7] ∧ ¬ raceEnd.AdmittedOnce := by
  refine ⟨runSteps_endOf (by decide +kernel), by decide +kernel, by decide +kernel,
    ⟨0, 1, ⟨.compBaseChunk, [], 0, 2, []⟩, ⟨.compDeltaChunk, [0], 2, 4, [1, 7, 2, 7]⟩,
      by decide +kernel, by decide +kernel, rfl, rfl⟩, fun h => ?_⟩
  have hv := h.verdict
  revert hv
  decide +kernel

theorem admitted_once_sample : raceAvoidedEnd.AdmittedOnce :=
  (@admitted_once_iff Components.plain raceAvoidedEnd raceAvoided
    (runSteps_endOf (by decide +kernel))).mpr
    (by decide +kernel)

end Service

end EDRStore
