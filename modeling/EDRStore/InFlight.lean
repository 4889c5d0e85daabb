/-
# `EDRStore.InFlight` — the service as a ledger

A fingerprint that `DetectDuplicate` found absent is `claimed` until it is
inserted, and `held` from then on: as an element of one of the three queues, or
in the hands of a thread, until `DataWriterThd` publishes its record.  Seen so,
every step of every thread is a move of `Ledger`, and what holds of ledgers
holds of `fp_2_addr_db`.
-/
import EDRStore.Interleaving
import EDRStore.Lib.Ledger

namespace EDRStore

namespace Event

def unique? : Event → Option Fp
  | .unique fp => some fp
  | _ => none

def wrote? : Event → Option Fp
  | .wrote fp _ _ => some fp
  | _ => none

def published? : Event → Option (Fp × KeyForChunkHashDB)
  | .published fp addr => some (fp, addr)
  | _ => none

end Event

/-- The element is a chunk already admitted; the others are still to be checked,
or belong to the cache. -/
def WrappedChunk.isAdmitted (c : WrappedChunk) : Bool :=
  c.info.stat = .uniqueChunk ∨ c.info.stat = .uniqueChunkAfterCache

/-- The fingerprints admitted among the elements of a queue. -/
def admittedIn (l : List WrappedChunk) : Multiset Fp :=
  ((l.filter WrappedChunk.isAdmitted).map (·.info.fp) : List Fp)

/-- All the fingerprints of a queue. -/
def fpsIn (l : List WrappedChunk) : Multiset Fp := (l.map (·.info.fp) : List Fp)

/-- The fingerprint in the hands of a thread, if any. -/
def inHand (c : Option WrappedChunk) : Multiset Fp := fpsIn c.toList

@[simp] theorem inHand_none : inHand none = 0 := rfl

@[simp] theorem inHand_some (c : WrappedChunk) : inHand (some c) = c.info.fp ::ₘ 0 := rfl

@[simp] theorem fpsIn_cons (c : WrappedChunk) (l : List WrappedChunk) :
    fpsIn (c :: l) = c.info.fp ::ₘ fpsIn l := rfl

@[simp] theorem fpsIn_nil : fpsIn [] = 0 := rfl

@[simp] theorem fpsIn_append (l l' : List WrappedChunk) : fpsIn (l ++ l') = fpsIn l + fpsIn l' := by
  rw [fpsIn, List.map_append]
  rfl

@[simp] theorem admittedIn_nil : admittedIn [] = 0 := rfl

@[simp] theorem admittedIn_append (l l' : List WrappedChunk) :
    admittedIn (l ++ l') = admittedIn l + admittedIn l' := by
  rw [admittedIn, List.filter_append, List.map_append]
  rfl

theorem admittedIn_cons {c : WrappedChunk} (h : c.isAdmitted = true) (l : List WrappedChunk) :
    admittedIn (c :: l) = c.info.fp ::ₘ admittedIn l := by
  rw [admittedIn, List.filter_cons_of_pos h]
  rfl

theorem admittedIn_skip {c : WrappedChunk} (h : c.isAdmitted = false) (l : List WrappedChunk) :
    admittedIn (c :: l) = admittedIn l := by
  rw [admittedIn, List.filter_cons_of_neg (by rw [h]; exact Bool.false_ne_true)]
  rfl

@[simp] theorem DualDedupThd.admitted_fp (cfg : Components) (c : WrappedChunk) :
    (admitted cfg c).info.fp = c.info.fp := by
  unfold admitted
  split <;> rfl

theorem DualDedupThd.isAdmitted_admitted (cfg : Components) (c : WrappedChunk) :
    (admitted cfg c).isAdmitted = true := by
  unfold admitted
  split <;> rfl

namespace ClientVar

/-- Found absent, not inserted yet. -/
def claimed (t : ClientVar) : Multiset Fp := inHand t.dualPending + inHand t.recvPending

/-- Inserted, its record not published yet. -/
def held (t : ClientVar) : Multiset Fp :=
  inHand t.writer.chunk? + fpsIn t.comp2WriterMq.items + admittedIn t.dual2CompMq.items +
    admittedIn t.recv2DualMq.items

/-- What a session looks like between two steps, whatever the others do. -/
structure Wf (t : ClientVar) : Prop where
  recvStat : ∀ {c}, t.recvPending = some c → c.info.stat = .uniqueChunk
  dualStat : ∀ {c}, t.dualPending = some c → c.info.stat = .chunkPair ∨ c.info.stat = .singleChunk
  recvEnded : t.recv2DualMq.done = true → t.recvPending = none
  dualEnded : t.dual2CompMq.done = true →
    t.recv2DualMq.done = true ∧ t.recv2DualMq.items = [] ∧ t.dualPending = none
  compEnded : t.comp2WriterMq.done = true → t.dual2CompMq.done = true ∧ t.dual2CompMq.items = []
  writeEnded : t.writer = .ended → t.comp2WriterMq.done = true ∧ t.comp2WriterMq.items = []

/-- The fingerprint whose query in `DetectDuplicate` is the step to be taken. -/
def queried (cfg : Components) (t : ClientVar) : ThreadAction → Option Fp
  | .recv _ (chunk :: _) =>
      if chunk.type = .normalChunk then some (cfg.generateHash chunk.data) else none
  | .dual =>
      match t.dualPending, t.recv2DualMq.items with
      | none, c :: _ =>
          if c.info.stat = .chunkPair ∨ c.info.stat = .singleChunk then some c.info.fp else none
      | _, _ => none
  | _ => none

variable {cfg : Components} {srv srv' : Server} {t t' : ClientVar} {a : ThreadAction}
  {evs : List Event}

theorem Storing.in_hand {pc : WriterPc} {c : WrappedChunk} {data : Bytes}
    {mark : KeyForChunkHashDB → KeyForChunkHashDB} {next : WrappedChunk → WriterPc}
    (h : Storing cfg pc c data mark next) : pc.chunk? = some c := by
  cases h <;> rfl

/-- After a `WriteChunk` the writer still has the chunk in hand. -/
theorem Storing.goes_on {pc : WriterPc} {c : WrappedChunk} {data : Bytes}
    {mark : KeyForChunkHashDB → KeyForChunkHashDB} {next : WrappedChunk → WriterPc}
    (h : Storing cfg pc c data mark next) (c' : WrappedChunk) :
    (next c').chunk? = some c' ∧ next c' ≠ .ended := by
  cases h <;> exact ⟨rfl, fun hn => nomatch hn⟩

/-- Once the writer has ended, nothing is under way. -/
theorem Wf.drained (h : t.Wf) (hw : t.writer = .ended) :
    t.recv2DualMq.items = [] ∧ t.claimed = 0 ∧ t.held = 0 := by
  obtain ⟨hd3, h3⟩ := h.writeEnded hw
  obtain ⟨hd2, h2⟩ := h.compEnded hd3
  obtain ⟨hd1, h1, hp⟩ := h.dualEnded hd2
  refine ⟨h1, ?_, ?_⟩
  · simp [claimed, hp, h.recvEnded hd1]
  · simp [held, hw, WriterPc.chunk?, h1, h2, h3]

/-- `CacheCompThd` takes an element and pushes on. -/
theorem Wf.popped (h : t.Wf) {c : WrappedChunk} {q : List WrappedChunk}
    (hq : t.dual2CompMq.items = c :: q) (cache : InformCache) (out : List WrappedChunk) :
    Wf { t with
      dual2CompMq := { t.dual2CompMq with items := q }
      informCache := cache
      comp2WriterMq := { t.comp2WriterMq with items := out } } := by
  have hd : t.comp2WriterMq.done ≠ true := by
    intro hd
    rw [(h.compEnded hd).2] at hq
    exact nomatch hq
  exact { h with
    compEnded := fun hd' => absurd hd' hd
    writeEnded := fun hw => absurd (h.writeEnded hw).1 hd }

theorem wf_step (h : t.Wf) (hs : Stepped cfg srv t a srv' t' evs) : t'.Wf := by
  cases hs with
  | recvPush hp hd hi =>
      exact { h with
        recvEnded := fun hd' => absurd (hd.symm.trans hd') Bool.false_ne_true
        dualEnded := fun hd' => absurd (hd.symm.trans (h.dualEnded hd').1) Bool.false_ne_true }
  | recvKnown hp hd ht hm => exact { h with }
  | recvUnique hp hd ht hm =>
      exact { h with
        recvStat := fun hc => by cases hc; rfl
        recvEnded := fun hd' => absurd (hd.symm.trans hd') Bool.false_ne_true }
  | recvInsert hp =>
      have hd : t.recv2DualMq.done ≠ true := by
        intro hd
        rw [h.recvEnded hd] at hp
        exact nomatch hp
      exact { h with
        recvStat := fun hc => nomatch hc
        recvEnded := fun _ => rfl
        dualEnded := fun hd' => absurd (h.dualEnded hd').1 hd }
  | recvEvict hp hd =>
      exact { h with
        recvEnded := fun hd' => absurd (hd.symm.trans hd') Bool.false_ne_true
        dualEnded := fun hd' => absurd (hd.symm.trans (h.dualEnded hd').1) Bool.false_ne_true }
  | recvEnd hp hd =>
      exact { h with
        recvEnded := fun _ => hp
        dualEnded := fun hd' => absurd (hd.symm.trans (h.dualEnded hd').1) Bool.false_ne_true }
  | dualInsert hp =>
      have hd : t.dual2CompMq.done ≠ true := by
        intro hd
        rw [(h.dualEnded hd).2.2] at hp
        exact nomatch hp
      exact { h with
        dualStat := fun hc => nomatch hc
        dualEnded := fun hd' => absurd hd' hd
        compEnded := fun hd' => absurd (h.compEnded hd').1 hd }
  | dualPass hp hq hst =>
      have hd : t.dual2CompMq.done ≠ true := by
        intro hd
        rw [(h.dualEnded hd).2.1] at hq
        exact nomatch hq
      exact { h with
        dualEnded := fun hd' => absurd hd' hd
        compEnded := fun hd' => absurd (h.compEnded hd').1 hd }
  | dualKnown hp hq hst hm =>
      exact { h with
        dualEnded := fun hd' => by
          rw [(h.dualEnded hd').2.1] at hq
          exact nomatch hq }
  | dualUnique hp hq hst hm =>
      exact { h with
        dualStat := fun hc => by cases hc; exact hst
        dualEnded := fun hd' => by
          rw [(h.dualEnded hd').2.1] at hq
          exact nomatch hq }
  | dualEnd hp hq hd =>
      exact { h with
        dualEnded := fun _ => ⟨hd, hq, hp⟩
        compEnded := fun hd' => ⟨rfl, (h.compEnded hd').2⟩ }
  | compNew hq hst => exact h.popped hq _ _
  | compDelta hq hst hf hb hd he => exact h.popped hq _ _
  | compPlain hq hst h0 => exact h.popped hq _ _
  | compInsert hq hst => exact h.popped hq _ t.comp2WriterMq.items
  | compEvict hq hst he => exact h.popped hq _ t.comp2WriterMq.items
  | compEnd hq hd =>
      exact { h with
        compEnded := fun _ => ⟨hd, hq⟩
        writeEnded := fun hw => ⟨rfl, (h.writeEnded hw).2⟩ }
  | popDelta hw hq hst =>
      exact { h with
        writeEnded := fun hw' => nomatch hw' }
  | popUnique hw hq hst => exact { h with writeEnded := fun hw' => nomatch hw' }
  | find hw => exact { h with writeEnded := fun hw' => nomatch hw' }
  | similar hw hst => exact { h with writeEnded := fun hw' => nomatch hw' }
  | nonSimilar hw hst => exact { h with writeEnded := fun hw' => nomatch hw' }
  | fetch hw hl => exact { h with writeEnded := fun hw' => nomatch hw' }
  | read hw hr =>
      refine { h with writeEnded := fun hw' => ?_ }
      simp only at hw'
      split at hw' <;> exact nomatch hw'
  | store hst =>
      have hn := hst.goes_on
      exact { h with writeEnded := fun hw' => absurd hw' (hn _).2 }
  | feature hw => exact { h with writeEnded := fun hw' => nomatch hw' }
  | featuresEnd hw => exact { h with writeEnded := fun hw' => nomatch hw' }
  | publish hw => exact { h with writeEnded := fun hw' => nomatch hw' }
  | writeEnd hw hq hd => exact { h with writeEnded := fun _ => ⟨hd, hq⟩ }

/-! ## A step as a move -/

/-- A step of a session, as a move. -/
inductive Moved (srv : Server) (t : ClientVar) (srv' : Server) (t' : ClientVar)
    (evs : List Event) : Ledger.Move Fp KeyForChunkHashDB → Prop
  | idle (hd : srv'.fp2AddrDb = srv.fp2AddrDb) (hc : t'.claimed = t.claimed)
      (hh : t'.held = t.held) (hu : evs.filterMap Event.unique? = [])
      (hp : evs.filterMap Event.published? = []) : Moved srv t srv' t' evs .idle
  | check {fp} (hm : fp ∉ srv.fp2AddrDb) (hd : srv'.fp2AddrDb = srv.fp2AddrDb)
      (hc : t'.claimed = fp ::ₘ t.claimed) (hh : t'.held = t.held) (he : evs = [.unique fp]) :
      Moved srv t srv' t' evs (.check fp)
  | enter {fp addr} (hd : srv'.fp2AddrDb = srv.fp2AddrDb.insert fp addr)
      (hc : t.claimed = fp ::ₘ t'.claimed) (hh : t'.held = fp ::ₘ t.held) (he : evs = []) :
      Moved srv t srv' t' evs (.enter fp addr)
  | publish {fp addr} (hd : srv'.fp2AddrDb = srv.fp2AddrDb.insert fp addr)
      (hc : t'.claimed = t.claimed) (hh : t.held = fp ::ₘ t'.held)
      (he : evs = [.published fp addr]) : Moved srv t srv' t' evs (.publish fp addr)

theorem isAdmitted_of_unique {c : WrappedChunk} (h : c.info.stat = .uniqueChunk) :
    c.isAdmitted = true := by
  simp only [WrappedChunk.isAdmitted, h]
  rfl

/-- Only the writer's hands changed, and they hold the same fingerprint. -/
theorem Moved.inWriter {cur : ClientStore} {pc : WriterPc} (hd : srv'.fp2AddrDb = srv.fp2AddrDb)
    (hh : inHand pc.chunk? = inHand t.writer.chunk?) (hu : evs.filterMap Event.unique? = [])
    (hp : evs.filterMap Event.published? = []) :
    Moved srv t srv' { t with writer := pc, cur := cur } evs .idle :=
  .idle hd rfl (by simp only [held, hh]) hu hp

/-- Every step is a move, and a check is the query of `DetectDuplicate`. -/
theorem moved_step (h : t.Wf) (hs : Stepped cfg srv t a srv' t' evs) :
    ∃ m, Moved srv t srv' t' evs m ∧ ∀ fp, m = .check fp → t.queried cfg a = some fp := by
  cases hs with
  | @recvPush addr item chunks fp hp hd hi =>
      have hn : admittedIn chunks = 0 := by
        cases hi with
        | pair ht hfp => rfl
        | single ht hfp => rfl
      refine ⟨.idle, .idle rfl rfl ?_ rfl rfl, fun fp hm => by cases hm⟩
      simp only [held, MessageQueue.push, admittedIn_append, hn, add_zero]
  | recvKnown hp hd ht hm => exact ⟨.idle, .idle rfl rfl rfl rfl rfl, fun fp hm => by cases hm⟩
  | recvUnique hp hd ht hm =>
      refine ⟨.check _, .check hm rfl ?_ rfl rfl, ?_⟩
      · simp only [claimed, hp, inHand_some, inHand_none, Multiset.add_cons, add_zero]
        rfl
      · intro fp hfp
        cases hfp
        simp only [queried, ht, if_true]
  | recvInsert hp =>
      refine ⟨.enter _ _, .enter rfl ?_ ?_ rfl, fun fp hm => by cases hm⟩
      · simp only [claimed, hp, inHand_some, inHand_none, Multiset.add_cons, add_zero]
      · simp only [held, MessageQueue.push, admittedIn_append, admittedIn_nil,
          admittedIn_cons (isAdmitted_of_unique (h.recvStat hp)), Multiset.add_cons, add_zero]
  | @recvEvict garbage features hp hd =>
      have hn : admittedIn (DataRecvThd.processEvictFeature garbage features) = 0 := by
        simp [admittedIn, DataRecvThd.processEvictFeature, WrappedChunk.isAdmitted]
      refine ⟨.idle, .idle rfl rfl ?_ rfl rfl, fun fp hm => by cases hm⟩
      simp only [held, MessageQueue.push, admittedIn_append, hn, add_zero]
  | recvEnd hp hd => exact ⟨.idle, .idle rfl rfl rfl rfl rfl, fun fp hm => by cases hm⟩
  | @dualInsert c hp =>
      refine ⟨.enter _ _, .enter rfl ?_ ?_ rfl, fun fp hm => by cases hm⟩
      · simp only [claimed, hp, inHand_some, inHand_none, Multiset.cons_add, zero_add]
      · simp only [held, MessageQueue.push, admittedIn_append, admittedIn_nil,
          admittedIn_cons (DualDedupThd.isAdmitted_admitted cfg c), DualDedupThd.admitted_fp,
          Multiset.add_cons, Multiset.cons_add, add_zero]
  | @dualPass c q hp hq hst =>
      have ha : c.isAdmitted = false := by
        rcases hst with hst | hst <;> simp [WrappedChunk.isAdmitted, hst]
      refine ⟨.idle, .idle rfl rfl ?_ rfl rfl, fun fp hm => by cases hm⟩
      simp only [held, MessageQueue.push, hq, admittedIn_append, admittedIn_skip ha,
        admittedIn_nil, add_zero]
  | @dualKnown c q hp hq hst hm =>
      have ha : c.isAdmitted = false := by
        rcases hst with hst | hst <;> simp [WrappedChunk.isAdmitted, hst]
      refine ⟨.idle, .idle rfl rfl ?_ rfl rfl, fun fp hm => by cases hm⟩
      simp only [held, hq, admittedIn_skip ha]
  | @dualUnique c q hp hq hst hm =>
      have ha : c.isAdmitted = false := by
        rcases hst with hst | hst <;> simp [WrappedChunk.isAdmitted, hst]
      refine ⟨.check _, .check hm rfl ?_ ?_ rfl, ?_⟩
      · simp only [claimed, hp, inHand_some, inHand_none, Multiset.cons_add, zero_add]
      · simp only [held, hq, admittedIn_skip ha]
      · intro fp hfp
        cases hfp
        simp only [queried, hp, hq, hst, if_true]
  | dualEnd hp hq hd => exact ⟨.idle, .idle rfl rfl rfl rfl rfl, fun fp hm => by cases hm⟩
  | @compNew c q hq hst =>
      have ha : c.isAdmitted = true := by simp [WrappedChunk.isAdmitted, hst]
      refine ⟨.idle, .idle rfl rfl ?_ rfl rfl, fun fp hm => by cases hm⟩
      simp only [held, MessageQueue.push, hq, admittedIn_cons ha, fpsIn_append, fpsIn_cons,
        fpsIn_nil, Multiset.add_cons, Multiset.cons_add, add_zero]
  | compDelta hq hst hf hb hd he =>
      refine ⟨.idle, .idle rfl rfl ?_ rfl rfl, fun fp hm => by cases hm⟩
      simp only [held, MessageQueue.push, hq, admittedIn_cons (isAdmitted_of_unique hst),
        fpsIn_append, fpsIn_cons, fpsIn_nil, Multiset.add_cons, Multiset.cons_add, add_zero]
  | compPlain hq hst h0 =>
      refine ⟨.idle, .idle rfl rfl ?_ rfl rfl, fun fp hm => by cases hm⟩
      simp only [held, MessageQueue.push, hq, admittedIn_cons (isAdmitted_of_unique hst),
        fpsIn_append, fpsIn_cons, fpsIn_nil, Multiset.add_cons, Multiset.cons_add, add_zero]
  | @compInsert c q hq hst =>
      have ha : c.isAdmitted = false := by simp [WrappedChunk.isAdmitted, hst]
      refine ⟨.idle, .idle rfl rfl ?_ rfl rfl, fun fp hm => by cases hm⟩
      simp only [held, hq, admittedIn_skip ha]
  | @compEvict c q cache hq hst he =>
      have ha : c.isAdmitted = false := by simp [WrappedChunk.isAdmitted, hst]
      refine ⟨.idle, .idle rfl rfl ?_ rfl rfl, fun fp hm => by cases hm⟩
      simp only [held, hq, admittedIn_skip ha]
  | compEnd hq hd => exact ⟨.idle, .idle rfl rfl rfl rfl rfl, fun fp hm => by cases hm⟩
  | popDelta hw hq hst =>
      refine ⟨.idle, .idle rfl rfl ?_ rfl rfl, fun fp hm => by cases hm⟩
      simp only [held, hw, hq, WriterPc.chunk?, inHand_some, inHand_none, fpsIn_cons,
        Multiset.cons_add, zero_add]
  | popUnique hw hq hst =>
      refine ⟨.idle, .idle rfl rfl ?_ rfl rfl, fun fp hm => by cases hm⟩
      simp only [held, hw, hq, WriterPc.chunk?, inHand_some, inHand_none, fpsIn_cons,
        Multiset.cons_add, zero_add]
  | find hw =>
      exact ⟨.idle, .inWriter rfl (by rw [hw]; rfl) rfl rfl, fun fp hm => by cases hm⟩
  | similar hw hst =>
      refine ⟨.idle, .inWriter rfl ?_ rfl rfl, fun fp hm => by cases hm⟩
      rw [hw]
      simp only [WriterPc.chunk?, inHand_some, SimilarPolicy.chooseBase_fp]
  | nonSimilar hw hst =>
      refine ⟨.idle, .inWriter rfl ?_ rfl rfl, fun fp hm => by cases hm⟩
      rw [hw]
      simp only [WriterPc.chunk?, inHand_some, SimilarPolicy.chooseBase_fp]
  | fetch hw hl =>
      exact ⟨.idle, .inWriter rfl (by rw [hw]; rfl) rfl rfl, fun fp hm => by cases hm⟩
  | read hw hr =>
      refine ⟨.idle, .inWriter rfl ?_ rfl rfl, fun fp hm => by cases hm⟩
      rw [hw]
      split <;> rfl
  | store hst =>
      refine ⟨.idle, .inWriter rfl ?_ rfl rfl, fun fp hm => by cases hm⟩
      rw [hst.in_hand, (hst.goes_on _).1]
      rfl
  | feature hw =>
      exact ⟨.idle, .inWriter rfl (by rw [hw]; rfl) rfl rfl, fun fp hm => by cases hm⟩
  | featuresEnd hw =>
      exact ⟨.idle, .inWriter rfl (by rw [hw]; rfl) rfl rfl, fun fp hm => by cases hm⟩
  | publish hw =>
      refine ⟨.publish _ _, .publish rfl rfl ?_ rfl, fun fp hm => by cases hm⟩
      simp only [held, hw, WriterPc.chunk?, inHand_some, inHand_none, Multiset.cons_add, zero_add]
  | writeEnd hw hq hd =>
      exact ⟨.idle, .inWriter rfl (by rw [hw]; rfl) rfl rfl, fun fp hm => by cases hm⟩

end ClientVar

/-! ## All sessions together -/

namespace Service

/-- The verdicts in a trace. -/
def admitted (trace : List (SessId × Event)) : List (SessId × Fp) :=
  trace.filterMap fun e => e.2.unique?.map (e.1, ·)

/-- The final records in a trace. -/
def published (trace : List (SessId × Event)) : List (SessId × Fp × KeyForChunkHashDB) :=
  trace.filterMap fun e => e.2.published?.map (e.1, ·)

def claimed (w : Service) (s : SessId) : Multiset Fp :=
  ((w.clients.lookup s).map ClientVar.claimed).getD 0

def held (w : Service) (s : SessId) : Multiset Fp :=
  ((w.clients.lookup s).map ClientVar.held).getD 0

/-- The service, seen as a ledger. -/
def ledger (w : Service) : Ledger SessId Fp KeyForChunkHashDB where
  db := w.srv.fp2AddrDb
  claimed := w.claimed
  held := w.held
  admitted := admitted w.trace
  published := published w.trace

/-- The session that takes the step. -/
def Action.session : Action → SessId
  | .login s _ => s
  | .thread s _ => s
  | .logout s _ _ => s

/-- The fingerprint whose query in `DetectDuplicate` is the step to be taken. -/
def queried (cfg : Components) (w : Service) : Action → Option Fp
  | .thread s a => (w.clients.lookup s).bind (·.queried cfg a)
  | _ => none

/-- Every session is well formed. -/
def Wf (w : Service) : Prop := ∀ s t, w.clients.lookup s = some t → t.Wf

theorem mem_admitted {trace : List (SessId × Event)} {s : SessId} {fp : Fp} :
    (s, fp) ∈ admitted trace ↔ (s, .unique fp) ∈ trace := by
  simp only [admitted, List.mem_filterMap, Option.map_eq_some_iff]
  constructor
  · rintro ⟨⟨u, e⟩, hm, fp', he, heq⟩
    cases heq
    cases e with
    | unique fp => cases he; exact hm
    | wrote fp addr data => exact nomatch he
    | published fp addr => exact nomatch he
  · intro h
    exact ⟨_, h, fp, rfl, rfl⟩

theorem mem_published {trace : List (SessId × Event)} {s : SessId} {fp : Fp}
    {addr : KeyForChunkHashDB} :
    (s, fp, addr) ∈ published trace ↔ (s, .published fp addr) ∈ trace := by
  simp only [published, List.mem_filterMap, Option.map_eq_some_iff]
  constructor
  · rintro ⟨⟨u, e⟩, hm, x, he, heq⟩
    cases heq
    cases e with
    | unique fp => exact nomatch he
    | wrote fp addr data => exact nomatch he
    | published fp addr => cases he; exact hm
  · intro h
    exact ⟨_, h, _, rfl, rfl⟩

theorem filterMap_tagged {α : Type} (f : Event → Option α) (s : SessId) (evs : List Event) :
    (evs.map (s, ·)).filterMap (fun e : SessId × Event => (f e.2).map (e.1, ·)) =
      (evs.filterMap f).map (s, ·) := by
  rw [List.filterMap_map, List.map_filterMap]
  rfl

variable {cfg : Components} {w w' : Service} {a : Action}

theorem claimed_of_lookup {s : SessId} {t : ClientVar} (h : w.clients.lookup s = some t) :
    w.claimed s = t.claimed := by
  simp only [claimed, h, Option.map_some, Option.getD_some]

theorem held_of_lookup {s : SessId} {t : ClientVar} (h : w.clients.lookup s = some t) :
    w.held s = t.held := by
  simp only [held, h, Option.map_some, Option.getD_some]

/-- A step that leaves a session's part of the account as it was. -/
theorem ledger_same {s : SessId} {t : ClientVar} (hd : w'.srv.fp2AddrDb = w.srv.fp2AddrDb)
    (hc : w'.clients = w.clients.insert s t) (ht : w'.trace = w.trace)
    (hcl : t.claimed = w.claimed s) (hh : t.held = w.held s) : w'.ledger = w.ledger := by
  have h1 : w'.claimed = w.claimed := by
    funext u
    simp only [claimed, hc, Index.lookup_insert_ite]
    split
    · rename_i hu; rw [hu]; exact hcl
    · rfl
  have h2 : w'.held = w.held := by
    funext u
    simp only [held, hc, Index.lookup_insert_ite]
    split
    · rename_i hu; rw [hu]; exact hh
    · rfl
  simp only [ledger, hd, ht, h1, h2]

/-- The ledger after a thread's step. -/
theorem ledger_thread {s : SessId} {srv' : Server} {t' : ClientVar} {evs : List Event} :
    ledger { w with
      srv := srv'
      clients := w.clients.insert s t'
      trace := w.trace ++ evs.map (s, ·) } =
    { db := srv'.fp2AddrDb
      claimed := Function.update w.claimed s t'.claimed
      held := Function.update w.held s t'.held
      admitted := admitted w.trace ++ (evs.filterMap Event.unique?).map (s, ·)
      published := published w.trace ++ (evs.filterMap Event.published?).map (s, ·) } := by
  have h1 : ∀ u, claimed { w with
      srv := srv'
      clients := w.clients.insert s t'
      trace := w.trace ++ evs.map (s, ·) } u = Function.update w.claimed s t'.claimed u := by
    intro u
    simp only [claimed, Index.lookup_insert_ite, Function.update_apply]
    split <;> rfl
  have h2 : ∀ u, held { w with
      srv := srv'
      clients := w.clients.insert s t'
      trace := w.trace ++ evs.map (s, ·) } u = Function.update w.held s t'.held u := by
    intro u
    simp only [held, Index.lookup_insert_ite, Function.update_apply]
    split <;> rfl
  simp only [ledger, funext h1, funext h2, admitted, published, List.filterMap_append,
    filterMap_tagged]

/-- Every step of the service is a move of the session that takes it, and a
check is the query of `DetectDuplicate`. -/
theorem ledger_step (hwf : w.Wf) (h : Stepped cfg w a w') :
    ∃ m, Ledger.Step w.ledger a.session m w'.ledger ∧
      ∀ fp, m = .check fp → w.queried cfg a = some fp := by
  cases h with
  | @login s c hl hs =>
      refine ⟨.idle, ?_, fun fp hm => nomatch hm⟩
      have hn : w.clients.lookup s = none := Finmap.lookup_eq_none.mpr hs
      have heq : ledger { w with
          srv := { w.srv with storageCore := (w.srv.storageCore.openClient cfg).1 }
          locked := Function.update w.locked c true
          clients := w.clients.insert s (w.openClient cfg c) } = w.ledger :=
        ledger_same rfl rfl rfl (by simp only [claimed, hn]; rfl) (by simp only [held, hn]; rfl)
      rw [heq]
      exact .idle
  | @logout s t cntOrder idxOrder hs hw hi =>
      refine ⟨.idle, ?_, fun fp hm => nomatch hm⟩
      have heq : ledger { w with
          informFiles := Function.update w.informFiles t.clientId
            (t.informCache.deleteEvictChunk.storeCntIdx cntOrder idxOrder)
          locked := Function.update w.locked t.clientId false
          clients := w.clients.insert s { t with deleted := true } } = w.ledger :=
        ledger_same rfl rfl rfl (claimed_of_lookup hs).symm (held_of_lookup hs).symm
      rw [heq]
      exact .idle
  | @thread s a t srv' t' evs hs ht =>
      obtain ⟨m, hm, hq⟩ := ClientVar.moved_step (hwf s t hs) ht
      refine ⟨m, ?_, fun fp hfp => ?_⟩
      · rw [ledger_thread]
        show Ledger.Step w.ledger s m _
        have hcl := claimed_of_lookup hs
        have hhd := held_of_lookup hs
        cases hm with
        | idle hd hc hh hu hp =>
            rw [hd, hc, hh, hu, hp, ← hcl, ← hhd, Function.update_eq_self,
              Function.update_eq_self]
            simp only [List.map_nil, List.append_nil]
            exact .idle
        | check hm hd hc hh he =>
            subst he
            rw [hd, hc, hh, ← hcl, ← hhd, Function.update_eq_self]
            simp only [List.filterMap_cons, List.filterMap_nil, Event.unique?, Event.published?,
              List.map_cons, List.map_nil, List.append_nil]
            exact .check (show _ ∉ w.ledger.db from hm)
        | enter hd hc hh he =>
            subst he
            rw [hd, hh, ← hhd]
            simp only [List.filterMap_nil, List.map_nil, List.append_nil]
            exact .enter (show w.ledger.claimed s = _ from hcl.trans hc)
        | publish hd hc hh he =>
            subst he
            rw [hd, hc, ← hcl, Function.update_eq_self]
            simp only [List.filterMap_cons, List.filterMap_nil, Event.unique?, Event.published?,
              List.map_cons, List.map_nil, List.append_nil]
            exact .publish (show w.ledger.held s = _ from hhd.trans hh)
      · simp only [queried, hs, Option.bind_some]
        exact hq fp hfp

/-! ### What holds of every run -/

theorem Wf.insert (hwf : w.Wf) {s : SessId} {t : ClientVar} (ht : t.Wf)
    (hc : w'.clients = w.clients.insert s t) : w'.Wf := by
  intro u t' hu
  rw [hc, Index.lookup_insert_ite] at hu
  split at hu
  · cases hu; exact ht
  · exact hwf u t' hu

theorem wf_openClient (w : Service) (c : ClientId) : (w.openClient cfg c).Wf where
  recvStat := fun hc => nomatch hc
  dualStat := fun hc => nomatch hc
  recvEnded := fun _ => rfl
  dualEnded := fun hd => nomatch hd
  compEnded := fun hd => nomatch hd
  writeEnded := fun hw => nomatch hw

theorem wf_step (hwf : w.Wf) (h : Stepped cfg w a w') : w'.Wf := by
  cases h with
  | login hl hs => exact hwf.insert (wf_openClient w _) rfl
  | thread hs ht => exact hwf.insert (ClientVar.wf_step (hwf _ _ hs) ht) rfl
  | @logout s t cntOrder idxOrder hs hw hi =>
      have ht : ClientVar.Wf { t with deleted := true } := { hwf s t hs with }
      exact hwf.insert ht rfl

theorem wf_init : init.Wf := fun _ _ h => by simp [init] at h

theorem balanced_init : init.ledger.Balanced where
  account := fun _ => rfl
  held_mem := fun h => by simp [ledger, held, init] at h
  published_mem := fun h => by simp [ledger, published, init] at h
  record := fun h => by simp [ledger, init, Server.empty] at h

/-! ### Sessions that have ended -/

/-- A session that has ended, or never began, has nothing under way. -/
theorem ended_claims (hwf : w.Wf) {u : SessId}
    (he : ∀ t, w.clients.lookup u = some t → t.writer = .ended) :
    w.claimed u = 0 ∧ w.held u = 0 := by
  cases ht : w.clients.lookup u with
  | none =>
      simp only [claimed, held, ht]
      exact ⟨rfl, rfl⟩
  | some t =>
      rw [claimed_of_lookup ht, held_of_lookup ht]
      exact ((hwf u t ht).drained (he t ht)).2

/-- Once those who found a chunk unique have ended, its record is a final one. -/
theorem recorded_of_ended (hwf : w.Wf) (hb : w.ledger.Balanced) {fp : Fp}
    {addr : KeyForChunkHashDB} (hl : w.srv.fp2AddrDb.lookup fp = some addr)
    (he : ∀ u, (u, .unique fp) ∈ w.trace → ∀ t, w.clients.lookup u = some t → t.writer = .ended) :
    ∃ u, (u, .unique fp) ∈ w.trace ∧ (u, .published fp addr) ∈ w.trace := by
  obtain ⟨u, hu, hplace⟩ := hb.record hl
  obtain ⟨hc, hh⟩ := ended_claims hwf (he u (mem_admitted.mp hu))
  refine ⟨u, mem_admitted.mp hu, ?_⟩
  rcases hplace with hm | hm | hm
  · have hm : fp ∈ w.claimed u := hm
    rw [hc] at hm
    exact absurd hm (Multiset.notMem_zero _)
  · have hm : fp ∈ w.held u := hm
    rw [hh] at hm
    exact absurd hm (Multiset.notMem_zero _)
  · exact mem_published.mp hm

end Service

end EDRStore
