/-
# `EDRStore.WriterRun` — one writer from empty indexes

A single `DataWriterThd` fed any sequence of new chunks.  The decoder knows
deltas of one level only, while the writer never looks at the form of the base
it picks; that the base is always a plain chunk rests on when the feature index
is updated: only after a chunk stored as it is, with that chunk's fingerprint.
-/
import EDRStore.DataReader

namespace EDRStore

/-- The server, the writer's client, and the elements fed so far. -/
structure WriterRun where
  srv : Server
  cur : ClientStore
  fed : List WrappedChunk

namespace WriterRun

variable (cfg : Components)

/-- Empty indexes and a client just logged in. -/
def init : WriterRun :=
  let r := StorageCore.empty.openClient cfg
  { srv := { Server.empty with storageCore := r.1 }, cur := r.2, fed := [] }

def step (s : WriterRun) (chunk : WrappedChunk) : Except Exit WriterRun := do
  let r ← DataWriterThd.runChunk cfg s.srv chunk s.cur
  .ok { srv := r.1, cur := r.2, fed := s.fed ++ [chunk] }

/-- A new fingerprint, with bytes that fit a chunk buffer, as the cache stage
hands it over. -/
structure Feedable (s : WriterRun) (chunk : WrappedChunk) : Prop where
  stat : chunk.info.stat = .uniqueChunk ∨ chunk.info.stat = .cacheDeltaChunk
  nonempty : chunk.data ≠ []
  sized : chunk.data.length ≤ encMaxChunkSize
  new : ∀ c ∈ s.fed, c.info.fp ≠ chunk.info.fp

instance (s : WriterRun) (chunk : WrappedChunk) : Decidable (Feedable s chunk) :=
  decidable_of_iff
    ((chunk.info.stat = .uniqueChunk ∨ chunk.info.stat = .cacheDeltaChunk) ∧ chunk.data ≠ [] ∧
      chunk.data.length ≤ encMaxChunkSize ∧ ∀ c ∈ s.fed, c.info.fp ≠ chunk.info.fp)
    ⟨fun h => ⟨h.1, h.2.1, h.2.2.1, h.2.2.2⟩, fun h => ⟨h.stat, h.nonempty, h.sized, h.new⟩⟩

/-- The record of a chunk holds its bytes, or a delta that decodes to them
against the record of its base. -/
inductive Holds (cfg : Components) (log : Content) (srv : Server) (data : Bytes) :
    KeyForChunkHashDB → Prop
  | base {addr} (hs : addr.stat = .compBaseChunk) (hr : addr.extent.read log = data) :
      Holds cfg log srv data addr
  | delta {addr baseAddr} (hs : addr.stat = .compDeltaChunk)
      (hl : srv.fp2AddrDb.lookup addr.baseFp = some baseAddr)
      (hd : cfg.deltaDecode (baseAddr.extent.read log) (addr.extent.read log) = some data) :
      Holds cfg log srv data addr

structure Inv (log : Content) (s : WriterRun) : Prop where
  logOk : LogOk cfg log s.srv.storageCore
  openOk : OpenOk cfg log s.srv.storageCore s.cur.curContainer
  cacheOk : CacheOk s.srv.storageCore s.cur.containerCache
  /-- The feature index names plain chunks only. -/
  features : ∀ {f base}, s.srv.feature2FpDb.lookup f = some base →
    ∃ addr, s.srv.fp2AddrDb.lookup base = some addr ∧ addr.stat = .compBaseChunk
  within : ∀ {fp addr}, s.srv.fp2AddrDb.lookup fp = some addr → addr.extent.Within log
  readable : ∀ {fp addr}, s.srv.fp2AddrDb.lookup fp = some addr →
    Readable s.srv.storageCore s.cur addr.containerId
  /-- No record is empty, as every delta has its header. -/
  solid : cfg.DeltaNonempty → ∀ {fp addr}, s.srv.fp2AddrDb.lookup fp = some addr →
    addr.extent.read log ≠ []
  fromFed : ∀ {fp addr}, s.srv.fp2AddrDb.lookup fp = some addr → ∃ c ∈ s.fed, c.info.fp = fp
  /-- The base of a delta is a plain chunk. -/
  oneLevel : ∀ {fp addr}, s.srv.fp2AddrDb.lookup fp = some addr → addr.stat = .compDeltaChunk →
    ∃ baseAddr, s.srv.fp2AddrDb.lookup addr.baseFp = some baseAddr ∧
      baseAddr.stat = .compBaseChunk
  held : ∀ c ∈ s.fed, c.info.stat = .uniqueChunk →
    ∃ addr, s.srv.fp2AddrDb.lookup c.info.fp = some addr ∧ Holds cfg log s.srv c.data addr

variable {cfg} {log log' : Content} {s s' : WriterRun} {chunk : WrappedChunk}

theorem inv_init (hid : cfg.FreshIds) : Inv cfg (fun _ => []) (init cfg) := by
  have hst : LogOk cfg (fun _ => []) StorageCore.empty :=
    { saved := fun h => by simp [StorageCore.empty] at h
      undrawn := fun _ _ => rfl
      unsaved := fun _ _ h => Finmap.notMem_empty h }
  obtain ⟨hlog, hopen, hcache, -⟩ := openClient_spec hid hst
  exact
    { logOk := hlog
      openOk := hopen
      cacheOk := hcache
      features := fun h => by simp [init, Server.empty] at h
      within := fun h => by simp [init, Server.empty] at h
      readable := fun h => by simp [init, Server.empty] at h
      solid := by intro _ fp addr h; simp [init, Server.empty] at h
      fromFed := fun h => by simp [init, Server.empty] at h
      oneLevel := fun h => by simp [init, Server.empty] at h
      held := fun _ h => absurd h List.not_mem_nil }

/-- The fingerprint of a feedable chunk has no record. -/
theorem Inv.fresh (h : Inv cfg log s) (hg : Feedable s chunk) :
    s.srv.fp2AddrDb.lookup chunk.info.fp = none := by
  cases hl : s.srv.fp2AddrDb.lookup chunk.info.fp with
  | none => rfl
  | some addr =>
      obtain ⟨c, hc, heq⟩ := h.fromFed hl
      exact absurd heq (hg.new c hc)

/-- What a chunk is held by does not change when the log grows and its record
and its base's stay. -/
theorem Holds.mono {srv srv' : Server} {data : Bytes} {addr : KeyForChunkHashDB}
    (h : Holds cfg log srv data addr) (hgrow : Grows log log')
    (hkeep : ∀ {fp a}, srv.fp2AddrDb.lookup fp = some a → srv'.fp2AddrDb.lookup fp = some a)
    (hw : ∀ {fp a}, srv.fp2AddrDb.lookup fp = some a → a.extent.Within log)
    (ha : addr.extent.Within log) : Holds cfg log' srv' data addr := by
  cases h with
  | base hs hr => exact .base hs (by rw [Extent.read_of_grows hgrow ha, hr])
  | delta hs hl hd =>
      refine .delta hs (hkeep hl) ?_
      rw [Extent.read_of_grows hgrow ha, Extent.read_of_grows hgrow (hw hl)]
      exact hd

/-- One element keeps every record and adds its own. -/
theorem Inv.keepsRecords (h : Inv cfg log s) (hg : Feedable s chunk) {cur' : ClientStore}
    {srv' : Server} {addr : KeyForChunkHashDB}
    (hs : DataWriterThd.Stores cfg log log' s.srv srv' s.cur cur' chunk addr) {fp : Fp}
    {a : KeyForChunkHashDB} (hl : s.srv.fp2AddrDb.lookup fp = some a) :
    srv'.fp2AddrDb.lookup fp = some a := by
  rw [hs.lookup, if_neg, hl]
  rintro rfl
  rw [h.fresh hg] at hl
  exact nomatch hl

/-- What the form of the new record says of its features, its base and its bytes. -/
structure NewRecord (cfg : Components) (log' : Content) (s : WriterRun) (srv' : Server)
    (chunk : WrappedChunk) (addr : KeyForChunkHashDB) : Prop where
  features : ∀ {f base}, srv'.feature2FpDb.lookup f = some base →
    (base = chunk.info.fp ∧ addr.stat = .compBaseChunk) ∨ s.srv.feature2FpDb.lookup f = some base
  oneLevel : addr.stat = .compDeltaChunk → ∃ baseAddr,
    s.srv.fp2AddrDb.lookup addr.baseFp = some baseAddr ∧ baseAddr.stat = .compBaseChunk
  holds : chunk.info.stat = .uniqueChunk → Holds cfg log' srv' chunk.data addr
  solid : cfg.DeltaNonempty → addr.extent.read log' ≠ []

theorem Inv.newRecord (hd : cfg.DeltaRoundTrip) (h : Inv cfg log s) (hg : Feedable s chunk)
    {cur' : ClientStore} {srv' : Server} {addr : KeyForChunkHashDB}
    (hst : DataWriterThd.Stores cfg log log' s.srv srv' s.cur cur' chunk addr) :
    NewRecord cfg log' s srv' chunk addr := by
  have hgrow := hst.evolves.grows
  have hkeep : ∀ {fp a}, s.srv.fp2AddrDb.lookup fp = some a → srv'.fp2AddrDb.lookup fp = some a :=
    fun hl => h.keepsRecords hg hst hl
  obtain ⟨n, hf, -⟩ := hst.form
  generalize hfeatures : srv'.feature2FpDb = features at hf
  generalize hread : addr.extent.read log' = data at hf
  cases hf with
  | cacheDelta hc hstat hbase hdata =>
      exact
        { features := fun hl => Or.inr (hfeatures ▸ hl)
          oneLevel := fun hx => by rw [hstat] at hx; cases hx
          holds := fun hx => by rw [hc] at hx; cases hx
          solid := fun _ => by rw [hread, hdata]; exact hg.nonempty }
  | base hu hno hstat hdata =>
      exact
        { features := by
            intro f base hl
            rw [hfeatures, Index.lookup_insertAll] at hl
            split at hl
            · cases hl
              exact Or.inl ⟨rfl, hstat⟩
            · exact Or.inr hl
          oneLevel := fun hx => by rw [hstat] at hx; cases hx
          holds := fun _ => .base hstat (hread.trans hdata)
          solid := fun _ => by rw [hread, hdata]; exact hg.nonempty }
  | delta f hu hf hbase hl hstat hdelta hn =>
      obtain ⟨baseAddr, hl', hbs⟩ := h.features hbase
      obtain rfl := Option.some.inj (hl.symm.trans hl')
      have hw := h.within hl
      have henc := hdelta hw
      refine
        { features := fun hl => Or.inr (hfeatures ▸ hl)
          oneLevel := fun _ => ⟨_, hl, hbs⟩
          holds := fun _ => .delta hstat (hkeep hl) ?_
          solid := fun hne => ?_ }
      · rw [DataWriterThd.baseBytes, if_pos (h.readable hl)] at henc
        rw [Extent.read_of_grows hgrow hw, hread]
        exact hd _ _ _ henc
      · rw [hread]
        exact hne _ _ _ henc

theorem inv_step (hid : cfg.FreshIds) (hd : cfg.DeltaRoundTrip) (h : Inv cfg log s)
    (hg : Feedable s chunk) (hs : s.step cfg chunk = .ok s') : ∃ log', Inv cfg log' s' := by
  obtain ⟨⟨srv', cur'⟩, hrun, heq⟩ := bind_ok hs
  cases heq
  obtain ⟨log', addr, hst⟩ := DataWriterThd.runChunk_stores hid h.logOk h.openOk h.cacheOk hrun
  have hgrow := hst.evolves.grows
  have hkeep : ∀ {fp a}, s.srv.fp2AddrDb.lookup fp = some a → srv'.fp2AddrDb.lookup fp = some a :=
    fun hl => h.keepsRecords hg hst hl
  have hself : srv'.fp2AddrDb.lookup chunk.info.fp = some addr := by rw [hst.lookup, if_pos rfl]
  have hold : ∀ {fp a}, srv'.fp2AddrDb.lookup fp = some a →
      (fp = chunk.info.fp ∧ a = addr) ∨ s.srv.fp2AddrDb.lookup fp = some a := by
    intro fp a hl
    rw [hst.lookup] at hl
    split at hl
    · rename_i hfp; cases hl; exact Or.inl ⟨hfp, rfl⟩
    · exact Or.inr hl
  have hform := h.newRecord hd hg hst
  refine ⟨log', ?_⟩
  exact
    { logOk := hst.evolves.logOk
      openOk := hst.evolves.openOk
      cacheOk := hst.evolves.cacheOk
      features := by
        intro f base hl
        rcases hform.features hl with ⟨rfl, hstat⟩ | hl
        · exact ⟨addr, hself, hstat⟩
        · obtain ⟨a, ha, hs⟩ := h.features hl
          exact ⟨a, hkeep ha, hs⟩
      within := by
        intro fp a hl
        rcases hold hl with ⟨rfl, rfl⟩ | hl
        · exact hst.within
        · exact Extent.within_of_grows hgrow (h.within hl)
      readable := by
        intro fp a hl
        rcases hold hl with ⟨rfl, rfl⟩ | hl
        · exact hst.readable
        · exact hst.evolves.readable (h.readable hl)
      solid := by
        intro hne fp a hl
        rcases hold hl with ⟨rfl, rfl⟩ | hl
        · exact hform.solid hne
        · rw [Extent.read_of_grows hgrow (h.within hl)]
          exact h.solid hne hl
      fromFed := by
        intro fp a hl
        rcases hold hl with ⟨rfl, rfl⟩ | hl
        · exact ⟨chunk, List.mem_append_right _ (List.mem_singleton.mpr rfl), rfl⟩
        · obtain ⟨c, hc, heq⟩ := h.fromFed hl
          exact ⟨c, List.mem_append_left _ hc, heq⟩
      oneLevel := by
        intro fp a hl hstat
        have hb : ∃ baseAddr, s.srv.fp2AddrDb.lookup a.baseFp = some baseAddr ∧
            baseAddr.stat = .compBaseChunk := by
          rcases hold hl with ⟨rfl, rfl⟩ | hl
          · exact hform.oneLevel hstat
          · exact h.oneLevel hl hstat
        obtain ⟨baseAddr, hb, hbs⟩ := hb
        exact ⟨baseAddr, hkeep hb, hbs⟩
      held := by
        intro c hc hu
        rcases List.mem_append.mp hc with hc | hc
        · obtain ⟨a, ha, hh⟩ := h.held c hc hu
          exact ⟨a, hkeep ha, hh.mono hgrow hkeep h.within (h.within ha)⟩
        · cases List.mem_singleton.mp hc
          exact ⟨addr, hself, hform.holds hu⟩ }

theorem inv_reach (hid : cfg.FreshIds) (hd : cfg.DeltaRoundTrip)
    (h : Reach (step cfg) Feedable (init cfg) s) : ∃ log, Inv cfg log s := by
  refine h.inv (fun s => ∃ log, Inv cfg log s) ⟨_, inv_init hid⟩ ?_
  rintro s chunk s' ⟨log, hi⟩ hg hs
  exact inv_step hid hd hi hg hs

/-- Records are final: what one state has, every later state has. -/
theorem records_final (hid : cfg.FreshIds) (hd : cfg.DeltaRoundTrip) (hi : Inv cfg log s)
    (h : Reach (step cfg) Feedable s s') {fp : Fp} {addr : KeyForChunkHashDB}
    (hl : s.srv.fp2AddrDb.lookup fp = some addr) : s'.srv.fp2AddrDb.lookup fp = some addr := by
  have hinv : (∃ log, Inv cfg log s') ∧ s'.srv.fp2AddrDb.lookup fp = some addr := by
    refine h.inv (fun t => (∃ log, Inv cfg log t) ∧ t.srv.fp2AddrDb.lookup fp = some addr)
      ⟨⟨log, hi⟩, hl⟩ ?_
    rintro t chunk t' ⟨⟨log, hi⟩, hl⟩ hg hs
    refine ⟨inv_step hid hd hi hg hs, ?_⟩
    obtain ⟨⟨srv', cur'⟩, hrun, heq⟩ := bind_ok hs
    cases heq
    obtain ⟨log', addr', hst⟩ := DataWriterThd.runChunk_stores hid hi.logOk hi.openOk hi.cacheOk hrun
    exact hi.keepsRecords hg hst hl
  exact hinv.2

/-- A reader that finds every record restores what the records hold. -/
theorem Inv.restores (h : Inv cfg log s) {srv : Server} {cur : ClientStore}
    (hdb : srv.fp2AddrDb = s.srv.fp2AddrDb) (hst : LogOk cfg log srv.storageCore)
    (hcache : CacheOk srv.storageCore cur.containerCache)
    (hr : ∀ {fp addr}, s.srv.fp2AddrDb.lookup fp = some addr →
      Found cfg log srv.storageCore cur addr)
    {c : WrappedChunk} (hc : c ∈ s.fed) (hu : c.info.stat = .uniqueChunk)
    (informCache : InformCache) :
    ∃ cur', DataDecoderThd.restoreChunk cfg srv informCache c.info.fp cur =
      .ok ([⟨.data .compNormalChunk, c.data⟩], cur') := by
  obtain ⟨addr, hl, hh⟩ := h.held c hc hu
  have hl' : srv.fp2AddrDb.lookup c.info.fp = some addr := by rw [hdb]; exact hl
  cases hh with
  | base hs hd =>
      obtain ⟨cache, heq, -⟩ := restoreChunk_base informCache hst hcache hl' hs
        (hr hl) (h.within hl)
      exact ⟨_, by rw [heq, hd]⟩
  | delta hs hb hd =>
      obtain ⟨baseAddr, hb', hbs⟩ := h.oneLevel hl hs
      rw [hb'] at hb
      cases hb
      obtain ⟨cache, heq, -⟩ := restoreChunk_delta informCache hst hcache hl' hs
        (hr hl) (h.within hl) (by rw [hdb]; exact hb') hbs (hr hb') (h.within hb') hd
      exact ⟨_, heq⟩

/-- The only exit the writer can take is a failure of xdelta. -/
theorem Inv.exits (h : Inv cfg log s) (hg : Feedable s chunk) {e : Exit}
    (he : s.step cfg chunk = .error e) : e = .deltaEncode := by
  rcases bind_error he with he | ⟨r, -, he⟩
  · rcases DataWriterThd.runChunk_error he with ⟨-, h1, h2⟩ | ⟨-, -, f, -, base, hb, hn⟩ | ⟨he, -⟩
    · rcases hg.stat with hs | hs
      · exact absurd hs h2
      · exact absurd hs h1
    · obtain ⟨addr, hl, -⟩ := h.features hb
      rw [hl] at hn
      exact nomatch hn
    · exact he
  · exact nomatch he

/-- With a header in every delta, the tail save leaves no record behind. -/
theorem Inv.tail (h : Inv cfg log s) (hne : cfg.DeltaNonempty) {fp : Fp}
    {addr : KeyForChunkHashDB} (hl : s.srv.fp2AddrDb.lookup fp = some addr) :
    addr.containerId ∈ (s.srv.storageCore.saveTail s.cur).containers := by
  obtain ⟨-, hkeep, -, htail, -⟩ := saveTail_spec h.logOk h.openOk
  rcases h.readable hl with hm | hid
  · exact Keeps.mem hkeep hm
  · rcases htail with ht | ht
    · exact hid ▸ ht
    · refine absurd ?_ (h.solid hne hl)
      rw [Extent.read, show addr.extent.seg = s.cur.curContainer.id from hid.symm, ht]
      simp [slice]

/-- Global delta storage is lossless and one level deep.  In every state one
writer reaches from empty indexes: the feature index names plain chunks, the
base of every delta is a plain chunk, no later element changes a record, every
unique chunk fed is restored byte for byte by the writer's own client (and by
any download that comes after the tail save), and of the writer's exits only a
failure of xdelta is left. -/
theorem global_delta_lossless (hid : cfg.FreshIds) (hd : cfg.DeltaRoundTrip)
    (h : Reach (step cfg) Feedable (init cfg) s) :
    (∀ f base, s.srv.feature2FpDb.lookup f = some base →
      ∃ addr, s.srv.fp2AddrDb.lookup base = some addr ∧ addr.stat = .compBaseChunk) ∧
    (∀ fp addr, s.srv.fp2AddrDb.lookup fp = some addr → addr.stat = .compDeltaChunk →
      ∃ baseAddr, s.srv.fp2AddrDb.lookup addr.baseFp = some baseAddr ∧
        baseAddr.stat = .compBaseChunk) ∧
    (∀ s', Reach (step cfg) Feedable s s' → ∀ fp addr,
      s.srv.fp2AddrDb.lookup fp = some addr → s'.srv.fp2AddrDb.lookup fp = some addr) ∧
    (∀ c ∈ s.fed, c.info.stat = .uniqueChunk → ∀ informCache,
      (∃ cur', DataDecoderThd.restoreChunk cfg s.srv informCache c.info.fp s.cur =
        .ok ([⟨.data .compNormalChunk, c.data⟩], cur')) ∧
      (cfg.DeltaNonempty → ∀ garbage, ∃ cur',
        DataDecoderThd.restoreChunk cfg (DataWriterThd.runEnd s.srv s.cur) informCache c.info.fp
          (StorageCore.openReader cfg garbage) =
            .ok ([⟨.data .compNormalChunk, c.data⟩], cur'))) ∧
    (∀ chunk, Feedable s chunk → ∀ e, s.step cfg chunk = .error e → e = .deltaEncode) := by
  obtain ⟨log, hi⟩ := inv_reach hid hd h
  refine ⟨fun f base => hi.features, fun fp addr => hi.oneLevel, ?_, ?_, ?_⟩
  · intro s' hs' fp addr
    exact records_final hid hd hi hs'
  · intro c hc hu informCache
    refine ⟨?_, ?_⟩
    · exact hi.restores rfl hi.logOk hi.cacheOk
        (fun hl => Found.ofReadable hi.openOk (hi.readable hl)) hc hu informCache
    · intro hne garbage
      obtain ⟨hlog, -⟩ := saveTail_spec hi.logOk hi.openOk
      exact hi.restores (show (DataWriterThd.runEnd s.srv s.cur).fp2AddrDb = _ from rfl) hlog
        (cacheOk_new cfg _)
        (fun hl => Or.inl (hi.tail hne hl)) hc hu informCache
  · intro chunk hg e he
    exact hi.exits hg he

/-- Two similar chunks: the second is stored as a delta against the first. -/
def sampleChunks : List WrappedChunk :=
  [⟨⟨[1], ⟨1, 2, 3⟩, ⟨.uniqueChunk, [], 0, 0, []⟩, .uniqueChunk⟩, [7, 8], []⟩,
   ⟨⟨[2], ⟨3, 4, 5⟩, ⟨.uniqueChunk, [], 0, 0, []⟩, .uniqueChunk⟩, [7, 9], []⟩]

def sampleEnd : WriterRun := endOf (step Components.plain) (init Components.plain) sampleChunks

theorem sampleEnd_reach :
    Reach (step Components.plain) Feedable (init Components.plain) sampleEnd :=
  endOf_reach (by decide +kernel) (by decide +kernel)

theorem global_delta_lossless_sample :
    (∃ addr, sampleEnd.srv.fp2AddrDb.lookup [1] = some addr ∧ addr.stat = .compBaseChunk) ∧
    ∃ cur', DataDecoderThd.restoreChunk Components.plain sampleEnd.srv
      (InformCache.loadCntIdx .none) [2] sampleEnd.cur =
        .ok ([⟨.data .compNormalChunk, [7, 9]⟩], cur') := by
  have h := global_delta_lossless Components.plain_freshIds Components.plain_deltaRoundTrip
    sampleEnd_reach
  have hfed : sampleEnd.fed = sampleChunks := by decide +kernel
  refine ⟨h.1 3 [1] (by decide +kernel), ?_⟩
  exact (h.2.2.2.1 (sampleChunks.getLast (by decide)) (by rw [hfed]; exact List.getLast_mem _) rfl
    (InformCache.loadCntIdx .none)).1

end WriterRun

end EDRStore
