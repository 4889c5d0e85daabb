/-
# `EDRStore.Overlap` — restoring what an overlapping session has uploaded

A session may end with chunks in its recipe that it never stored: those another
session had found unique before, and may not have written yet.

    session 0   query X, insert placeholder                      write X
    session 1                                query X: duplicate          ended

What a session finds in the index is final once every session that was told
`UNIQUE_CHUNK` for it has ended too; then any client reads the bytes that were
written.
-/
import EDRStore.SharedStore
import EDRStore.IndexOrder

namespace EDRStore

namespace Service

/-- Every session that found the chunk unique has ended. -/
def OwnersEnded (w : Service) (fp : Fp) : Prop :=
  ∀ s, (s, .unique fp) ∈ w.trace → ∃ t, w.clients.lookup s = some t ∧ t.writer = .ended

/-- The index has the record of bytes that were written, and a client whose
container cache is new reads them. -/
def Restorable (cfg : Components) (w : Service) (fp : Fp) : Prop :=
  ∃ s addr addr' data, w.srv.fp2AddrDb.lookup fp = some addr ∧
    (s, .published fp addr) ∈ w.trace ∧ (s, .wrote fp addr' data) ∈ w.trace ∧
    addr'.extent = addr.extent ∧
    ∀ cur : ClientStore,
      cur.containerCache = ReadCache.new cfg.containerCacheSize maxContainerSize →
        (w.srv.storageCore.readChunk addr cur).1 = some data

variable {cfg : Components} {log : Content} {w : Service}

/-- A known chunk whose owners have ended can be read. -/
theorem Sound.restorable (h : w.Sound cfg log) {fp : Fp} (hfp : fp ∈ w.srv.fp2AddrDb)
    (ho : w.OwnersEnded fp) : w.Restorable cfg fp := by
  obtain ⟨addr, hl⟩ := Index.lookup_isSome_of_mem hfp
  obtain ⟨s, had, hpub⟩ := recorded_of_ended h.wf h.balanced hl fun u hu t ht => by
    obtain ⟨x, hx, hw⟩ := ho u hu
    obtain rfl := Option.some.inj (hx.symm.trans ht)
    exact hw
  obtain ⟨t, hs, hw⟩ := ho s had
  obtain ⟨addr', data, hwr, hext, hin, hread, hfile⟩ := h.saved hpub hs hw
  refine ⟨s, addr, addr', data, hl, hpub, hwr, hext, fun cur hcur => ?_⟩
  obtain ⟨d, cache, hr, -, hd⟩ := readChunk_saved h.stored.logOk
    (show CacheOk _ cur.containerCache from hcur ▸ cacheOk_new cfg _) hfile
  rw [hr, hd hin, hread]

/-- Whatever the interleaving: once a session has ended, every chunk of its
recipe whose owners have ended can be read, and so can the base of its delta. -/
theorem ended_upload_restorable (hid : cfg.FreshIds) (hd : cfg.DeltaNonempty)
    (h : Reach (step cfg) Sized init w) {s : SessId} {t : ClientVar}
    (hs : w.clients.lookup s = some t) (hw : t.writer = .ended) :
    ∀ fp ∈ t.fileRecipe, w.OwnersEnded fp → w.Restorable cfg fp ∧
      ∀ addr, w.srv.fp2AddrDb.lookup fp = some addr → addr.stat = .compDeltaChunk →
        w.OwnersEnded addr.baseFp → w.Restorable cfg addr.baseFp := by
  obtain ⟨log, hsound⟩ := sound_reach hid hd h
  intro fp hfp ho
  -- nothing is on its way any more
  have hmem : fp ∈ w.srv.fp2AddrDb := by
    obtain ⟨hq, hcl, -⟩ := (hsound.wf s t hs).drained hw
    rcases hsound.indexed.recipe hs fp hfp with hm | hm | ⟨c, hc, -⟩
    · exact hm
    · rw [hcl] at hm
      exact absurd hm (Multiset.notMem_zero _)
    · rw [hq] at hc
      exact absurd hc List.not_mem_nil
  have hrest := hsound.restorable hmem ho
  refine ⟨hrest, fun addr hl hstat hob => ?_⟩
  obtain ⟨u, addr', -, -, hl', hpub, -⟩ := hrest
  obtain rfl := Option.some.inj (hl.symm.trans hl')
  exact hsound.restorable (hsound.indexed.deltaBase hpub hstat) hob

/-! ### A session that ends first -/

/-- The second client sends a chunk the first has only inserted a placeholder
for, and ends. -/
def endsFirst : List Action :=
  [.login 0 0, .login 1 1, .thread 0 (.recv neverAssigned raceItem),
    .thread 0 .dual, .thread 0 .dual, .thread 0 .dual,
    .thread 1 (.recv neverAssigned raceItem), .thread 1 .dual, .thread 1 .dual,
    .thread 1 .recvEnd, .thread 1 .dual, .thread 1 .comp, .thread 1 .comp, .thread 1 .write]

/-- The first client ends too. -/
def endsBoth : List Action := endsFirst ++
  [.thread 0 .recvEnd, .thread 0 .dual, .thread 0 .comp, .thread 0 .comp, .thread 0 .comp] ++
  List.replicate 12 (.thread 0 .write)

def endsFirstEnd : Service := endOf (step Components.plain) init endsFirst

def endsBothEnd : Service := endOf (step Components.plain) init endsBoth

/-- All threads of the second session have ended, its recipe has a chunk whose
record is the placeholder, and nobody can read it. -/
theorem ended_upload_lost : Reach (step Components.plain) Sized init endsFirstEnd ∧
    (endsFirstEnd.clients.lookup 1).map (fun t => (t.writer, t.fileRecipe)) =
      some (.ended, [[1, 7, 2, 7]]) ∧
    endsFirstEnd.srv.fp2AddrDb.lookup [1, 7, 2, 7] = some neverAssigned ∧
    (endsFirstEnd.srv.storageCore.readChunk neverAssigned
      (StorageCore.openReader Components.plain ⟨[1], []⟩)).1 = none ∧
    ¬ endsFirstEnd.Restorable Components.plain [1, 7, 2, 7] := by
  refine ⟨endOf_reach (by decide +kernel) (by decide +kernel), by decide +kernel,
    by decide +kernel, by decide +kernel, ?_⟩
  rintro ⟨s, addr, addr', data, -, -, hwr, -⟩
  have hn : ∀ e ∈ endsFirstEnd.trace, e.2.wrote? = none := by decide +kernel
  exact nomatch hn _ hwr

/-- Once both have ended, the chunk is restorable. -/
theorem ended_upload_restorable_sample :
    endsBothEnd.Restorable Components.plain [1, 7, 2, 7] := by
  have hs : (endsBothEnd.clients.lookup 1).map (fun t => (t.writer, t.fileRecipe)) =
      some (.ended, [[1, 7, 2, 7]]) := by decide +kernel
  obtain ⟨t, hs, heq⟩ := Option.map_eq_some_iff.mp hs
  have ho : ∀ e ∈ endsBothEnd.trace, e.2.unique? = some [1, 7, 2, 7] →
      (endsBothEnd.clients.lookup e.1).map ClientVar.writer = some .ended := by decide +kernel
  refine (ended_upload_restorable Components.plain_freshIds Components.plain_deltaNonempty
    (endOf_reach (by decide +kernel) (by decide +kernel)) hs (Prod.mk.inj heq).1 _ ?_ ?_).1
  · rw [(Prod.mk.inj heq).2]
    exact List.mem_cons_self
  · exact fun u hu => Option.map_eq_some_iff.mp (ho _ hu rfl)

end Service

end EDRStore
