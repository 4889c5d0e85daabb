/-
# `EDRStore.BaselineStore` — what the other server gives back

What the store is for needs no containers and no compression: it is a
dictionary of chunks, each held whole or as a delta against one held whole
(`Dictionary`).  Which of the two is settled by the feature index alone, so the
dictionary is a function of what was sent, and its deltas are one level deep
(`Dictionary.Flat`).

`Refines` relates the server to it, `runChunk_refines` is the step, and
`restoreChunk_whole`, `restoreChunk_delta` say what a restore makes of an entry:
the chunk as `CompressOneChunk` and `DecompressOneChunk` leave it (`regained`).
That is the chunk itself unless it is longer than `MAX_CHUNK_SIZE` and was
compressed: the buffer that `DecompressOneChunk` states is smaller than what the
writer compresses, a chunk of up to four bytes more or a delta of up to
`ENC_MAX_CHUNK_SIZE`.
-/
import EDRStore.Baseline

namespace EDRStore

/-- xdelta writes no more than the buffer it is given. -/
def Components.DeltaFits (cfg : Components) : Prop :=
  ∀ base input delta, cfg.deltaEncode base input = some delta → delta.length ≤ encMaxChunkSize

namespace CompressLib

/-- A compressed chunk is never empty. -/
def Nonempty (lib : CompressLib) : Prop :=
  ∀ t data capacity out, lib.compress t data capacity = some out → out ≠ []

end CompressLib

namespace CompressUtil

variable (util : CompressUtil)

/-- What comes back of stored bytes: decompressed if they were compressed. -/
def regained (data : Bytes) : Bytes :=
  let c := util.compressOneChunk data
  if c.1 then util.decompressOneChunk c.2 else c.2

/-- The decompressor's buffer is large enough, or will not be used. -/
def Fits (data : Bytes) : Prop := data.length ≤ maxChunkSize ∨ util.compressed data = none

instance (data : Bytes) : Decidable (util.Fits data) := inferInstanceAs (Decidable (_ ∨ _))

variable {util}

theorem regained_of_fits (hrt : util.lib.RoundTrip) {data : Bytes} (hne : data ≠ [])
    (h : util.Fits data) : util.regained data = data := by
  cases hc : util.compressed data with
  | none => rw [regained, compressOneChunk_none hc]; rfl
  | some out =>
      have hmax : data.length ≤ maxChunkSize := by
        rcases h with h | h
        · exact h
        · exact nomatch hc.symm.trans h
      rw [regained, compressOneChunk_some hc]
      exact decompressOneChunk_compressed hrt (List.length_pos_of_ne_nil hne) hmax hc

theorem compressOneChunk_ne_nil (hlib : util.lib.Nonempty) {data : Bytes} (hne : data ≠ []) :
    (util.compressOneChunk data).2 ≠ [] := by
  cases hc : util.compressed data with
  | none => rw [compressOneChunk_none hc]; exact hne
  | some out =>
      rw [compressOneChunk_some hc]
      exact hlib _ _ _ _ (CompressType.of_accept hc)

end CompressUtil

namespace Baseline

/-! ## The dictionary -/

/-- A chunk, and the chunk it is held against. -/
structure Entry where
  data : Bytes
  base : Option Fp
deriving DecidableEq

structure Dictionary where
  features : Index Feature Fp
  entries : Index Fp Entry

namespace Dictionary

def empty : Dictionary := { features := ∅, entries := ∅ }

/-- The base of a chunk, if it has one. -/
def baseOf (features : Index Feature Fp) (info : ChunkInfo) : Option Fp :=
  let info := SimilarPolicy.findBaseChunkDb features info
  if info.stat = .similarChunk then some info.addr.baseFp else none

/-- One more chunk; only one without a base enters its features. -/
def put (dict : Dictionary) (chunk : WrappedChunk) : Dictionary where
  features :=
    match baseOf dict.features chunk.info with
    | none => dict.features.insertAll chunk.info.features.toList chunk.info.fp
    | some _ => dict.features
  entries := dict.entries.insert chunk.info.fp ⟨chunk.data, baseOf dict.features chunk.info⟩

def ofChunks (chunks : List WrappedChunk) : Dictionary := chunks.foldl put empty

/-- What an entry is to be stored as: the chunk, or its delta against its base. -/
def payload (cfg : Components) (dict : Dictionary) (fp : Fp) : Option Bytes := do
  let e ← dict.entries.lookup fp
  match e.base with
  | none => some e.data
  | some base => do
      let x ← dict.entries.lookup base
      cfg.deltaEncode x.data e.data

/-- No delta is against a delta, now or later. -/
structure Flat (dict : Dictionary) : Prop where
  features : ∀ {f base}, dict.features.lookup f = some base →
    ∃ data, dict.entries.lookup base = some ⟨data, none⟩
  bases : ∀ {fp data base}, dict.entries.lookup fp = some ⟨data, some base⟩ →
    ∃ data', dict.entries.lookup base = some ⟨data', none⟩

theorem flat_empty : Flat empty where
  features := fun h => by simp [empty] at h
  bases := fun h => by simp [empty] at h

theorem baseOf_none {features : Index Feature Fp} {info : ChunkInfo}
    (h : baseOf features info = none) :
    SimilarPolicy.findBaseChunkDb features info = { info with stat := .nonSimilarChunk } := by
  unfold baseOf at h
  have hv := SimilarPolicy.findBaseChunk_verdict features.lookup info
  rw [← SimilarPolicy.findBaseChunkDb] at hv
  generalize SimilarPolicy.findBaseChunkDb features info = r at h hv
  cases hv with
  | nonSimilar => rfl
  | similar => cases h

theorem baseOf_some {features : Index Feature Fp} {info : ChunkInfo} {base : Fp}
    (h : baseOf features info = some base) :
    SimilarPolicy.findBaseChunkDb features info =
        { info with addr := { info.addr with baseFp := base }, stat := .similarChunk } ∧
      ∃ f, features.lookup f = some base := by
  unfold baseOf at h
  have hv := SimilarPolicy.findBaseChunk_verdict features.lookup info
  rw [← SimilarPolicy.findBaseChunkDb] at hv
  generalize SimilarPolicy.findBaseChunkDb features info = r at h hv
  cases hv with
  | nonSimilar => cases h
  | similar f base' hf hb =>
      obtain rfl : base' = base := Option.some.inj h
      exact ⟨rfl, f, hb⟩

theorem lookup_put (dict : Dictionary) (chunk : WrappedChunk) (fp : Fp) :
    (dict.put chunk).entries.lookup fp =
      if fp = chunk.info.fp then some ⟨chunk.data, baseOf dict.features chunk.info⟩
      else dict.entries.lookup fp :=
  Index.lookup_insert_ite _ _ _ _

/-- An entry stays what it is. -/
theorem lookup_put_of_lookup {dict : Dictionary} {chunk : WrappedChunk}
    (hnew : chunk.info.fp ∉ dict.entries) {fp : Fp} {e : Entry}
    (h : dict.entries.lookup fp = some e) : (dict.put chunk).entries.lookup fp = some e := by
  rw [lookup_put, if_neg, h]
  rintro rfl
  exact hnew (Index.mem_of_lookup h)

theorem Flat.put {dict : Dictionary} (h : dict.Flat) {chunk : WrappedChunk}
    (hnew : chunk.info.fp ∉ dict.entries) : (dict.put chunk).Flat := by
  have hkeep : ∀ {base}, (∃ data, dict.entries.lookup base = some ⟨data, none⟩) →
      ∃ data, (dict.put chunk).entries.lookup base = some ⟨data, none⟩ := by
    rintro base ⟨data, hd⟩
    exact ⟨data, lookup_put_of_lookup hnew hd⟩
  constructor
  · intro f base hf
    cases hb : baseOf dict.features chunk.info with
    | some b =>
        simp only [Dictionary.put, hb] at hf
        exact hkeep (h.features hf)
    | none =>
        simp only [Dictionary.put, hb, Index.lookup_insertAll] at hf
        split at hf
        · cases hf
          exact ⟨chunk.data, by rw [lookup_put, if_pos rfl, hb]⟩
        · exact hkeep (h.features hf)
  · intro fp data base hfp
    rw [lookup_put] at hfp
    split at hfp
    · -- the base of the new chunk is named by a feature
      have hb : baseOf dict.features chunk.info = some base :=
        congrArg Entry.base (Option.some.inj hfp)
      obtain ⟨-, f, hf⟩ := baseOf_some hb
      exact hkeep (h.features hf)
    · exact hkeep (h.bases hfp)

/-- The entries are those of the chunks. -/
theorem lookup_foldl_put {chunks : List WrappedChunk} :
    ∀ {dict : Dictionary} {fp : Fp} {e : Entry},
      (chunks.foldl Dictionary.put dict).entries.lookup fp = some e →
      (∃ x ∈ chunks, x.info.fp = fp ∧ x.data = e.data) ∨ dict.entries.lookup fp = some e := by
  induction chunks with
  | nil => intro dict fp e h; exact Or.inr h
  | cons x chunks ih =>
      intro dict fp e h
      rcases ih h with ⟨y, hy, hfp⟩ | h
      · exact Or.inl ⟨y, List.mem_cons_of_mem _ hy, hfp⟩
      · rw [lookup_put] at h
        split at h
        · rename_i hfp
          cases h
          exact Or.inl ⟨x, List.mem_cons_self, hfp.symm, rfl⟩
        · exact Or.inr h

theorem mem_foldl_put {chunks : List WrappedChunk} :
    ∀ {dict : Dictionary} {fp : Fp}, fp ∈ (chunks.foldl Dictionary.put dict).entries ↔
      fp ∈ chunks.map (·.info.fp) ∨ fp ∈ dict.entries := by
  induction chunks with
  | nil => intro dict fp; simp
  | cons x chunks ih =>
      intro dict fp
      rw [List.foldl_cons, ih, List.map_cons, List.mem_cons, Dictionary.put, Finmap.mem_insert]
      tauto

/-- Chunks of different fingerprints all have their entries. -/
theorem lookup_ofChunks {chunks : List WrappedChunk} (hnd : (chunks.map (·.info.fp)).Nodup)
    {x : WrappedChunk} (hx : x ∈ chunks) :
    ∃ base, (ofChunks chunks).entries.lookup x.info.fp = some ⟨x.data, base⟩ := by
  obtain ⟨e, he⟩ := Index.lookup_isSome_of_mem
    (mem_foldl_put.mpr (Or.inl (List.mem_map_of_mem hx)) : x.info.fp ∈ (ofChunks chunks).entries)
  rcases lookup_foldl_put he with ⟨y, hy, hfp, hdata⟩ | h
  · obtain rfl : y = x := List.inj_on_of_nodup_map hnd hy hx hfp
    exact ⟨e.base, he.trans (by rw [hdata])⟩
  · simp [empty] at h

end Dictionary

/-! ## The server holds the dictionary -/

/-- The record of an entry: the form by the status, the bytes as they were
compressed, and the base of a delta one held whole. -/
inductive Held (cfg : Components) (util : CompressUtil) (log : Content) (dict : Dictionary)
    (data : Bytes) : Option Fp → KeyForChunkHashDB → Prop
  | whole {addr}
      (hs : addr.stat = if (util.compressOneChunk data).1 then .compBaseChunk else .uncompBaseChunk)
      (hr : addr.extent.read log = (util.compressOneChunk data).2) :
      Held cfg util log dict data none addr
  | delta {addr x delta} (hx : dict.entries.lookup addr.baseFp = some ⟨x, none⟩)
      (hd : cfg.deltaEncode (util.regained x) data = some delta)
      (hs : addr.stat =
        if (util.compressOneChunk delta).1 then .compDeltaChunk else .uncompDeltaChunk)
      (hr : addr.extent.read log = (util.compressOneChunk delta).2) :
      Held cfg util log dict data (some addr.baseFp) addr

/-- The record can be read into the buffers on its way. -/
structure Sound (log : Content) (R : ContainerId → Prop) (addr : KeyForChunkHashDB) : Prop where
  within : addr.extent.Within log
  readable : R addr.containerId
  solid : addr.extent.read log ≠ []
  fits : addr.len ≤ encMaxChunkSize

/-- The server holds the dictionary in the segments `log`; what is read must lie in
containers that satisfy `R`. -/
structure Refines (cfg : Components) (util : CompressUtil) (log : Content) (dict : Dictionary)
    (srv : Server) (R : ContainerId → Prop) : Prop where
  features : srv.feature2FpDb = dict.features
  records : ∀ {fp e}, dict.entries.lookup fp = some e → ∃ addr,
    srv.fp2AddrDb.lookup fp = some addr ∧ Sound log R addr ∧ Held cfg util log dict e.data e.base addr

/-- What the store relies on. -/
structure StoreLaws (cfg : Components) (util : CompressUtil) : Prop where
  freshIds : cfg.FreshIds
  deltaRoundTrip : cfg.DeltaRoundTrip
  deltaNonempty : cfg.DeltaNonempty
  deltaFits : cfg.DeltaFits
  fitsCapacity : util.lib.FitsCapacity
  roundTrip : util.lib.RoundTrip
  nonempty : util.lib.Nonempty

variable {cfg : Components} {util : CompressUtil} {log log' : Content} {dict : Dictionary}
  {srv srv' : Server} {cur : ClientStore} {R R' : ContainerId → Prop}

/-- A record stays what it is while the log and the dictionary grow. -/
theorem Held.mono {data : Bytes} {base : Option Fp} {addr : KeyForChunkHashDB} {dict' : Dictionary}
    (h : Held cfg util log dict data base addr) (hgrow : Grows log log')
    (hw : addr.extent.Within log)
    (hkeep : ∀ {fp e}, dict.entries.lookup fp = some e → dict'.entries.lookup fp = some e) :
    Held cfg util log' dict' data base addr := by
  have hread := Extent.read_of_grows hgrow hw
  cases h with
  | whole hs hr => exact .whole hs (hread.trans hr)
  | delta hx hd hs hr => exact .delta (hkeep hx) hd hs (hread.trans hr)

theorem Sound.mono {addr : KeyForChunkHashDB} (h : Sound log R addr) (hgrow : Grows log log')
    (hR : ∀ {id}, R id → R' id) : Sound log' R' addr where
  within := Extent.within_of_grows hgrow h.within
  readable := hR h.readable
  solid := by rw [Extent.read_of_grows hgrow h.within]; exact h.solid
  fits := h.fits

/-- One more entry, with its record. -/
theorem Refines.put (h : Refines cfg util log dict srv R) {chunk : WrappedChunk}
    (hnew : chunk.info.fp ∉ dict.entries) (hgrow : Grows log log') (hR : ∀ {id}, R id → R' id)
    {addr : KeyForChunkHashDB} (hf : srv'.feature2FpDb = (dict.put chunk).features)
    (hdb : srv'.fp2AddrDb = srv.fp2AddrDb.insert chunk.info.fp addr) (hsound : Sound log' R' addr)
    (hheld : Held cfg util log' (dict.put chunk) chunk.data
      (Dictionary.baseOf dict.features chunk.info) addr) :
    Refines cfg util log' (dict.put chunk) srv' R' where
  features := hf
  records := by
    intro fp e hl
    rw [Dictionary.lookup_put] at hl
    rw [hdb, Index.lookup_insert_ite]
    split at hl
    · rename_i hfp
      cases hl
      exact ⟨addr, if_pos hfp, hsound, hheld⟩
    · rename_i hfp
      obtain ⟨a, ha, hs, hh⟩ := h.records hl
      exact ⟨a, by rw [if_neg hfp, ha], hs.mono hgrow hR,
        hh.mono hgrow hs.within (Dictionary.lookup_put_of_lookup hnew)⟩

/-! ## One turn of the writer -/

/-- A read that `R` promises, for the session or for a reader. -/
theorem readChunk_spec (hst : LogOk cfg log srv.storageCore)
    (hc : CacheOk srv.storageCore cur.containerCache) {addr : KeyForChunkHashDB}
    (hr : Found cfg log srv.storageCore cur addr) (hw : addr.extent.Within log) :
    ∃ cache, readChunk srv.storageCore addr cur =
        .ok (addr.extent.read log, { cur with containerCache := cache }) ∧
      CacheOk srv.storageCore cache := by
  rcases hr with hs | ⟨ho, hid⟩
  · obtain ⟨data, cache, heq, hcache, hdata⟩ := readChunk_saved hst hc hs
    refine ⟨cache, ?_, hcache⟩
    rw [readChunk, heq, hdata hw]
  · refine ⟨cur.containerCache, ?_, hc⟩
    rw [readChunk, readChunk_open hc ho hid]

/-- A fetched base is what comes back of the chunk that was stored. -/
theorem fetchBaseChunk_whole (h : Refines cfg util log dict srv R)
    (hst : LogOk cfg log srv.storageCore) (hc : CacheOk srv.storageCore cur.containerCache)
    (hR : ∀ {addr : KeyForChunkHashDB}, R addr.containerId → Found cfg log srv.storageCore cur addr)
    {base : Fp} {x : Bytes} (hx : dict.entries.lookup base = some ⟨x, none⟩) :
    ∃ cache, DataWriterThd.fetchBaseChunk util srv base cur =
        .ok (util.regained x, { cur with containerCache := cache }) ∧
      CacheOk srv.storageCore cache := by
  obtain ⟨addr, haddr, hs, hh⟩ := h.records hx
  have hh : Held cfg util log dict x none addr := hh
  obtain ⟨cache, hread, hcache⟩ := readChunk_spec hst hc (hR hs.readable) hs.within
  refine ⟨cache, ?_, hcache⟩
  cases hh with
  | whole hstat hr =>
      unfold DataWriterThd.fetchBaseChunk CompressUtil.regained
      rw [haddr, orExit_some, ok_bind, hread, ok_bind, hstat, hr]
      generalize util.compressOneChunk x = c
      obtain ⟨flag, out⟩ := c
      cases flag <;> rfl

/-- What both `Proc` functions leave behind. -/
theorem writeCompressed_spec (law : StoreLaws cfg util) (hst : LogOk cfg log srv.storageCore)
    (ho : OpenOk cfg log srv.storageCore cur.curContainer)
    (hc : CacheOk srv.storageCore cur.containerCache) (comp uncomp : ChunkStatus)
    (chunk : WrappedChunk) {data : Bytes} (hne : data ≠ []) (hlen : data.length ≤ encMaxChunkSize) :
    let r := DataWriterThd.writeCompressed cfg util comp uncomp srv.storageCore chunk data cur
    ∃ log', Evolves cfg log log' srv.storageCore r.2.1 cur r.2.2 ∧
      Sound log' (Readable r.2.1 r.2.2) r.1.info.addr ∧
      r.1.info.addr.extent.read log' = (util.compressOneChunk data).2 := by
  obtain ⟨log', hw⟩ :=
    writeChunk_wrote law.freshIds hst ho chunk.info.addr (util.compressOneChunk data).2
  refine ⟨log', Evolves.ofWrote hc hw, ⟨hw.within, hw.readable_new, ?_, ?_⟩, hw.reads⟩
  · intro hnil
    exact CompressUtil.compressOneChunk_ne_nil law.nonempty hne (hw.reads.symm.trans hnil)
  · exact (CompressUtil.length_compressOneChunk law.fitsCapacity data).trans hlen

/-- The verdict of `FindBaseChunk` on a chunk with a base. -/
def WrappedChunk.similar (chunk : WrappedChunk) (base : Fp) : WrappedChunk :=
  { chunk with info :=
    { chunk.info with addr := { chunk.info.addr with baseFp := base }, stat := .similarChunk } }

theorem runChunk_similar {chunk : WrappedChunk} {base : Fp} {x delta : Bytes} {cur' : ClientStore}
    (hfind : SimilarPolicy.findBaseChunkDb srv.feature2FpDb chunk.info = (chunk.similar base).info)
    (hfetch : DataWriterThd.fetchBaseChunk util srv base cur = .ok (x, cur'))
    (hd : cfg.deltaEncode x chunk.data = some delta) :
    DataWriterThd.runChunk cfg util srv chunk cur =
      let r := DataWriterThd.writeCompressed cfg util .compDeltaChunk .uncompDeltaChunk
        srv.storageCore (chunk.similar base) delta cur'
      .ok (DataWriterThd.updateFpIndex { srv with storageCore := r.2.1 }
        { r.1 with data := (util.compressOneChunk delta).2 }, r.2.2) := by
  simp only [DataWriterThd.runChunk, hfind, WrappedChunk.similar, DataWriterThd.procSimilarChunk,
    hfetch, ok_bind, hd, orExit_some]

/-- One turn adds one entry to the dictionary, unless xdelta fails on the chunk. -/
theorem runChunk_refines (law : StoreLaws cfg util) {chunk : WrappedChunk}
    (h : Refines cfg util log dict srv (Readable srv.storageCore cur)) (hflat : dict.Flat)
    (hst : LogOk cfg log srv.storageCore) (ho : OpenOk cfg log srv.storageCore cur.curContainer)
    (hc : CacheOk srv.storageCore cur.containerCache) (hnew : chunk.info.fp ∉ dict.entries)
    (hpos : 1 ≤ chunk.data.length) (hmax : chunk.data.length ≤ maxChunkSize + 4) :
    (DataWriterThd.runChunk cfg util srv chunk cur = .error .deltaEncode ∧
      ∃ base, cfg.deltaEncode base chunk.data = none) ∨
    ∃ log' srv' cur', DataWriterThd.runChunk cfg util srv chunk cur = .ok (srv', cur') ∧
      Evolves cfg log log' srv.storageCore srv'.storageCore cur cur' ∧
      Refines cfg util log' (dict.put chunk) srv' (Readable srv'.storageCore cur') := by
  have hne : chunk.data ≠ [] := List.ne_nil_of_length_pos hpos
  have hlen : chunk.data.length ≤ encMaxChunkSize := hmax.trans (by decide)
  cases hb : Dictionary.baseOf dict.features chunk.info with
  | none =>
      -- stored whole, and the features are its own
      have hfind := Dictionary.baseOf_none hb
      rw [← h.features] at hfind
      obtain ⟨log', hev, hsound, hread⟩ := writeCompressed_spec law hst ho hc .compBaseChunk
        .uncompBaseChunk { chunk with info := { chunk.info with stat := .nonSimilarChunk } } hne hlen
      refine Or.inr ⟨log', _, _, by rw [DataWriterThd.runChunk, hfind], hev, ?_⟩
      refine h.put hnew hev.grows hev.readable ?_ rfl hsound ?_
      · have hput : (dict.put chunk).features =
            dict.features.insertAll chunk.info.features.toList chunk.info.fp := by
          simp only [Dictionary.put, hb]
        rw [hput, ← h.features]
        rfl
      · rw [hb]
        exact .whole rfl hread
  | some base =>
      obtain ⟨hfind, f, hf⟩ := Dictionary.baseOf_some hb
      rw [← h.features] at hfind
      obtain ⟨x, hx⟩ := hflat.features hf
      obtain ⟨cache, hfetch, hcache⟩ := fetchBaseChunk_whole h hst hc (Found.ofReadable ho) hx
      cases hd : cfg.deltaEncode (util.regained x) chunk.data with
      | none =>
          refine Or.inl ⟨?_, _, hd⟩
          simp only [DataWriterThd.runChunk, hfind, DataWriterThd.procSimilarChunk, hfetch, ok_bind,
            hd, orExit_none, error_bind]
      | some delta =>
          have ho' : OpenOk cfg log srv.storageCore
              ({ cur with containerCache := cache } : ClientStore).curContainer := ho
          obtain ⟨log', hev, hsound, hread⟩ := writeCompressed_spec law hst ho' hcache
            .compDeltaChunk .uncompDeltaChunk (chunk.similar base) (law.deltaNonempty _ _ _ hd)
            (law.deltaFits _ _ _ hd)
          refine Or.inr ⟨log', _, _, runChunk_similar hfind hfetch hd, hev.of_cache, ?_⟩
          refine h.put hnew hev.grows hev.readable ?_ rfl hsound ?_
          · have hput : (dict.put chunk).features = dict.features := by
              simp only [Dictionary.put, hb]
            rw [hput, ← h.features]
            rfl
          · rw [hb]
            exact .delta (Dictionary.lookup_put_of_lookup hnew hx) hd rfl hread

/-! ## The upload -/

/-- A writing session whose server holds the dictionary. -/
structure Holding (cfg : Components) (util : CompressUtil) (log : Content) (dict : Dictionary)
    (srv : Server) (cur : ClientStore) : Prop where
  logOk : LogOk cfg log srv.storageCore
  openOk : OpenOk cfg log srv.storageCore cur.curContainer
  cacheOk : CacheOk srv.storageCore cur.containerCache
  refines : Refines cfg util log dict srv (Readable srv.storageCore cur)
  flat : dict.Flat

/-- Whatever the chunks, the writer ends the process on none of its own checks. -/
theorem runLoop_holding (law : StoreLaws cfg util) {chunks : List WrappedChunk} :
    ∀ {log : Content} {dict : Dictionary} {srv : Server} {cur : ClientStore},
      Holding cfg util log dict srv cur → (chunks.map (·.info.fp)).Nodup →
      (∀ x ∈ chunks, x.info.fp ∉ dict.entries) →
      (∀ x ∈ chunks, 1 ≤ x.data.length ∧ x.data.length ≤ maxChunkSize + 4) →
      (DataWriterThd.runLoop cfg util srv cur chunks = .error .deltaEncode ∧
        ∃ x ∈ chunks, ∃ base, cfg.deltaEncode base x.data = none) ∨
      ∃ log' srv' cur', DataWriterThd.runLoop cfg util srv cur chunks = .ok (srv', cur') ∧
        Holding cfg util log' (chunks.foldl Dictionary.put dict) srv' cur' := by
  induction chunks with
  | nil => intro log dict srv cur h _ _ _; exact Or.inr ⟨log, srv, cur, rfl, h⟩
  | cons x chunks ih =>
      intro log dict srv cur h hnd hnew hlen
      rw [List.map_cons, List.nodup_cons] at hnd
      have hx := hnew x List.mem_cons_self
      obtain ⟨hpos, hmax⟩ := hlen x List.mem_cons_self
      rw [DataWriterThd.runLoop, List.foldlM_cons]
      rcases runChunk_refines law h.refines h.flat h.logOk h.openOk h.cacheOk hx hpos hmax with
        ⟨hstop, base, hd⟩ | ⟨log', srv', cur', hok, hev, href⟩
      · exact Or.inl ⟨by rw [hstop]; rfl, x, List.mem_cons_self, base, hd⟩
      · have hnext : Holding cfg util log' (dict.put x) srv' cur' :=
          ⟨hev.logOk, hev.openOk, hev.cacheOk, href, h.flat.put hx⟩
        have hfresh : ∀ y ∈ chunks, y.info.fp ∉ (dict.put x).entries := by
          intro y hy hmem
          rcases Finmap.mem_insert.mp hmem with heq | hmem
          · exact hnd.1 (heq ▸ List.mem_map_of_mem hy)
          · exact hnew y (List.mem_cons_of_mem _ hy) hmem
        rcases ih hnext hnd.2 hfresh (fun y hy => hlen y (List.mem_cons_of_mem _ hy)) with
          ⟨hstop, y, hy, hd⟩ | ⟨log'', srv'', cur'', hend, hhold⟩
        · exact Or.inl ⟨by rw [hok]; exact hstop, y, List.mem_cons_of_mem _ hy, hd⟩
        · exact Or.inr ⟨log'', srv'', cur'', by rw [hok]; exact hend, hhold⟩

/-- Once the tail is saved, every record lies in a file. -/
theorem Holding.runEnd (h : Holding cfg util log dict srv cur) :
    LogOk cfg log (DataWriterThd.runEnd srv cur).storageCore ∧
      Refines cfg util log dict (DataWriterThd.runEnd srv cur)
        (· ∈ (DataWriterThd.runEnd srv cur).storageCore.containers) := by
  obtain ⟨hlog, hkeep, -, htail, -⟩ := saveTail_spec h.logOk h.openOk
  refine ⟨hlog, h.refines.features, ?_⟩
  intro fp e hl
  obtain ⟨addr, haddr, hs, hh⟩ := h.refines.records hl
  refine ⟨addr, haddr, ⟨hs.within, ?_, hs.solid, hs.fits⟩, hh⟩
  rcases hs.readable with hfile | hopen
  · exact hkeep.mem hfile
  · rcases htail with hfile | hempty
    · exact hopen ▸ hfile
    · -- an open container that got no file is empty, and no record is
      refine absurd ?_ hs.solid
      rw [Extent.read, KeyForChunkHashDB.extent, ← hopen, hempty, slice, List.drop_nil, List.take_nil]

/-! ## The restore -/

/-- The decoder undoes by the status what the writer did. -/
theorem decodeChunk_whole (x : Bytes) :
    DataDecoderThd.decodeChunk cfg util
        ⟨if (util.compressOneChunk x).1 then .compBaseChunk else .uncompBaseChunk,
          (util.compressOneChunk x).2, none⟩ =
      .ok ⟨.data .normalChunk, util.regained x⟩ := by
  unfold CompressUtil.regained
  generalize util.compressOneChunk x = c
  obtain ⟨flag, out⟩ := c
  cases flag <;> rfl

theorem decodeChunk_delta (x delta : Bytes) :
    DataDecoderThd.decodeChunk cfg util
        ⟨if (util.compressOneChunk delta).1 then .compDeltaChunk else .uncompDeltaChunk,
          (util.compressOneChunk delta).2,
          some (if (util.compressOneChunk x).1 then .compBaseChunk else .uncompBaseChunk,
            (util.compressOneChunk x).2)⟩ = (do
      let out ← orExit .deltaDecode (cfg.deltaDecode (util.regained x) (util.regained delta))
      .ok ⟨.data .normalChunk, out⟩) := by
  unfold CompressUtil.regained
  generalize util.compressOneChunk x = c
  generalize util.compressOneChunk delta = d
  obtain ⟨flag, out⟩ := c
  obtain ⟨flag', out'⟩ := d
  cases flag <;> cases flag' <;> rfl

/-- An entry held whole restores to what comes back of it. -/
theorem restoreChunk_whole (h : Refines cfg util log dict srv (· ∈ srv.storageCore.containers))
    (hst : LogOk cfg log srv.storageCore) (hc : CacheOk srv.storageCore cur.containerCache)
    {fp : Fp} {x : Bytes} (hl : dict.entries.lookup fp = some ⟨x, none⟩) :
    ∃ cache, DataDecoderThd.restoreChunk cfg util srv fp cur =
        .ok (⟨.data .normalChunk, util.regained x⟩, { cur with containerCache := cache }) ∧
      CacheOk srv.storageCore cache := by
  obtain ⟨addr, haddr, hs, hh⟩ := h.records hl
  have hh : Held cfg util log dict x none addr := hh
  obtain ⟨cache, hread, hcache⟩ := readChunk_spec hst hc (Or.inl hs.readable) hs.within
  refine ⟨cache, ?_, hcache⟩
  cases hh with
  | whole hstat hr =>
      have hbase : ¬ (addr.stat = .uncompDeltaChunk ∨ addr.stat = .compDeltaChunk) := by
        rw [hstat]
        cases (util.compressOneChunk x).1 <;> decide
      have hfetch : DataReaderThd.fetchChunk srv fp cur =
          .ok (⟨addr.stat, addr.extent.read log, none⟩, { cur with containerCache := cache }) := by
        simp only [DataReaderThd.fetchChunk, haddr, orExit_some, ok_bind, hread, if_neg hbase]
      rw [DataDecoderThd.restoreChunk, hfetch, ok_bind, hstat, hr, decodeChunk_whole]
      rfl

/-- A delta is decoded against what it was encoded against. -/
theorem restoreChunk_delta (h : Refines cfg util log dict srv (· ∈ srv.storageCore.containers))
    (hst : LogOk cfg log srv.storageCore) (hc : CacheOk srv.storageCore cur.containerCache)
    {fp base : Fp} {data : Bytes} (hl : dict.entries.lookup fp = some ⟨data, some base⟩) :
    ∃ x delta cache, dict.entries.lookup base = some ⟨x, none⟩ ∧
      cfg.deltaEncode (util.regained x) data = some delta ∧ CacheOk srv.storageCore cache ∧
      DataDecoderThd.restoreChunk cfg util srv fp cur = (do
        let out ← orExit .deltaDecode (cfg.deltaDecode (util.regained x) (util.regained delta))
        .ok (⟨.data .normalChunk, out⟩, { cur with containerCache := cache })) := by
  obtain ⟨addr, haddr, hs, hh⟩ := h.records hl
  have hh : Held cfg util log dict data (some base) addr := hh
  obtain ⟨cache, hread, hcache⟩ := readChunk_spec hst hc (Or.inl hs.readable) hs.within
  cases hh with
  | @delta addr x delta hx hd hstat hr =>
      obtain ⟨baseAddr, hbase, hsb, hhb⟩ := h.records hx
      have hhb : Held cfg util log dict x none baseAddr := hhb
      have hcur : CacheOk srv.storageCore
          ({ cur with containerCache := cache } : ClientStore).containerCache := hcache
      obtain ⟨cache', hread', hcache'⟩ := readChunk_spec hst hcur (Or.inl hsb.readable) hsb.within
      refine ⟨x, delta, cache', hx, hd, hcache', ?_⟩
      cases hhb with
      | whole hstat' hr' =>
          have hdelta : addr.stat = .uncompDeltaChunk ∨ addr.stat = .compDeltaChunk := by
            rw [hstat]
            cases (util.compressOneChunk delta).1 <;> decide
          have hfetch : DataReaderThd.fetchChunk srv fp cur =
              .ok (⟨addr.stat, addr.extent.read log, some (baseAddr.stat, baseAddr.extent.read log)⟩,
                { cur with containerCache := cache' }) := by
            simp only [DataReaderThd.fetchChunk, haddr, orExit_some, ok_bind, hread,
              if_pos hdelta, hbase, hread']
          rw [DataDecoderThd.restoreChunk, hfetch, ok_bind, hstat, hr, hstat', hr',
            decodeChunk_delta]
          cases cfg.deltaDecode (util.regained x) (util.regained delta) <;> rfl

/-! ## Every run of the writer -/

/-- A server that has stored nothing and the client that uploads to it.  `placed` is
what `DetectDuplicate` enters for chunks that are still in the queue. -/
def start (cfg : Components) (placed : Index Fp KeyForChunkHashDB) : Server × ClientStore :=
  let r := StorageCore.empty.openClient cfg
  ({ fp2AddrDb := placed, feature2FpDb := ∅, storageCore := r.1 }, r.2)

/-- The chunks are stored in records that fit the buffers they are read into, and a
reader restores them, in any order and any number of times.  The process ends only
where xdelta fails on a chunk. -/
def Lossless (cfg : Components) (util : CompressUtil) (chunks : List WrappedChunk) : Prop :=
  ∀ placed,
    match DataWriterThd.runLoop cfg util (start cfg placed).1 (start cfg placed).2 chunks with
    | .error e => e = .deltaEncode ∧ ∃ x ∈ chunks, ∃ base, cfg.deltaEncode base x.data = none
    | .ok (srv, cur) =>
        (∀ x ∈ chunks, ∃ addr,
          srv.fp2AddrDb.lookup x.info.fp = some addr ∧ addr.len ≤ encMaxChunkSize) ∧
        ∀ garbage (order : List WrappedChunk), (∀ x ∈ order, x ∈ chunks) →
          ∃ cur', DataDecoderThd.restoreAll cfg util (DataWriterThd.runEnd srv cur)
              (order.map (·.info.fp)) (StorageCore.openReader cfg garbage) =
            .ok (order.map fun x => ⟨.data .normalChunk, x.data⟩, cur')

/-- Neither the writer nor a reader ends the process on a check of its own: xdelta may
fail, nothing else. -/
def OnlyXdeltaExits (cfg : Components) (util : CompressUtil) (chunks : List WrappedChunk) : Prop :=
  ∀ placed,
    match DataWriterThd.runLoop cfg util (start cfg placed).1 (start cfg placed).2 chunks with
    | .error e => e = .deltaEncode
    | .ok (srv, cur) =>
        ∀ garbage (order : List WrappedChunk), (∀ x ∈ order, x ∈ chunks) →
          ∀ e, DataDecoderThd.restoreAll cfg util (DataWriterThd.runEnd srv cur)
              (order.map (·.info.fp)) (StorageCore.openReader cfg garbage) = .error e →
            e = .deltaDecode

/-- No chunk that is stored whole, and no delta, is longer than `MAX_CHUNK_SIZE` and
compressed for all that. -/
def AllFit (cfg : Components) (util : CompressUtil) (chunks : List WrappedChunk) : Prop :=
  ∀ x ∈ chunks, ∀ p ∈ (Dictionary.ofChunks chunks).payload cfg x.info.fp, util.Fits p

instance (cfg : Components) (util : CompressUtil) (chunks : List WrappedChunk) :
    Decidable (AllFit cfg util chunks) :=
  inferInstanceAs (Decidable (∀ x ∈ chunks, ∀ p ∈ _, util.Fits p))

theorem holding_start (hid : cfg.FreshIds) (placed : Index Fp KeyForChunkHashDB) :
    ∃ log, Holding cfg util log Dictionary.empty (start cfg placed).1 (start cfg placed).2 := by
  have hst : LogOk cfg (fun _ => []) StorageCore.empty :=
    { saved := fun h => by simp [StorageCore.empty] at h
      undrawn := fun _ _ => rfl
      unsaved := fun _ _ => Finmap.notMem_empty }
  obtain ⟨hlog, hopen, hcache, -, -, -⟩ := openClient_spec hid hst
  refine ⟨fun _ => [], hlog, hopen, hcache, ⟨rfl, ?_⟩, Dictionary.flat_empty⟩
  intro fp e h
  simp [Dictionary.empty] at h

/-- The upload of chunks of different fingerprints, at its end. -/
theorem runLoop_start (law : StoreLaws cfg util) {chunks : List WrappedChunk}
    (hnd : (chunks.map (·.info.fp)).Nodup)
    (hlen : ∀ x ∈ chunks, 1 ≤ x.data.length ∧ x.data.length ≤ maxChunkSize + 4)
    (placed : Index Fp KeyForChunkHashDB) :
    (DataWriterThd.runLoop cfg util (start cfg placed).1 (start cfg placed).2 chunks =
        .error .deltaEncode ∧ ∃ x ∈ chunks, ∃ base, cfg.deltaEncode base x.data = none) ∨
      ∃ log srv cur,
        DataWriterThd.runLoop cfg util (start cfg placed).1 (start cfg placed).2 chunks =
          .ok (srv, cur) ∧ Holding cfg util log (Dictionary.ofChunks chunks) srv cur := by
  obtain ⟨log, hstart⟩ := @holding_start cfg util law.freshIds placed
  exact runLoop_holding law hstart hnd (fun _ _ => Finmap.notMem_empty) hlen

section Restore

variable {chunks : List WrappedChunk}

/-- The base of a delta is one of the chunks. -/
theorem base_mem {base : Fp} {x : Bytes}
    (h : (Dictionary.ofChunks chunks).entries.lookup base = some ⟨x, none⟩) :
    ∃ z ∈ chunks, z.info.fp = base ∧ z.data = x := by
  rcases Dictionary.lookup_foldl_put h with ⟨z, hz, hfp, hdata⟩ | h
  · exact ⟨z, hz, hfp, hdata⟩
  · simp [Dictionary.empty] at h

theorem payload_whole {fp : Fp} {x : Bytes}
    (h : dict.entries.lookup fp = some ⟨x, none⟩) : dict.payload cfg fp = some x := by
  rw [Dictionary.payload, h]
  rfl

theorem payload_delta {fp base : Fp} {x data : Bytes}
    (h : dict.entries.lookup fp = some ⟨data, some base⟩)
    (hx : dict.entries.lookup base = some ⟨x, none⟩) :
    dict.payload cfg fp = cfg.deltaEncode x data := by
  simp only [Dictionary.payload, h, hx, Option.bind_eq_bind, Option.bind_some]

theorem AllFit.whole (hfit : AllFit cfg util chunks) {fp : Fp} {x : Bytes}
    (h : (Dictionary.ofChunks chunks).entries.lookup fp = some ⟨x, none⟩) : util.Fits x := by
  obtain ⟨z, hz, rfl, -⟩ := base_mem h
  exact hfit z hz x (payload_whole h)

/-- Where everything fits, every chunk is restored. -/
theorem restoreChunk_fits (law : StoreLaws cfg util) (hfit : AllFit cfg util chunks)
    (hnd : (chunks.map (·.info.fp)).Nodup) (hpos : ∀ x ∈ chunks, 1 ≤ x.data.length)
    (h : Refines cfg util log (Dictionary.ofChunks chunks) srv (· ∈ srv.storageCore.containers))
    (hst : LogOk cfg log srv.storageCore) (hc : CacheOk srv.storageCore cur.containerCache)
    {x : WrappedChunk} (hx : x ∈ chunks) :
    ∃ cache, DataDecoderThd.restoreChunk cfg util srv x.info.fp cur =
        .ok (⟨.data .normalChunk, x.data⟩, { cur with containerCache := cache }) ∧
      CacheOk srv.storageCore cache := by
  have hwhole : ∀ {fp data}, (Dictionary.ofChunks chunks).entries.lookup fp = some ⟨data, none⟩ →
      util.regained data = data := by
    intro fp data hl
    obtain ⟨z, hz, -, rfl⟩ := base_mem hl
    exact CompressUtil.regained_of_fits law.roundTrip (List.ne_nil_of_length_pos (hpos z hz))
      (hfit.whole hl)
  obtain ⟨base, hl⟩ := Dictionary.lookup_ofChunks hnd hx
  cases base with
  | none =>
      obtain ⟨cache, hr, hcache⟩ := restoreChunk_whole h hst hc hl
      exact ⟨cache, by rw [hr, hwhole hl], hcache⟩
  | some base =>
      obtain ⟨y, delta, cache, hy, hd, hcache, hr⟩ := restoreChunk_delta h hst hc hl
      refine ⟨cache, ?_, hcache⟩
      rw [hwhole hy] at hd hr
      have hp : util.Fits delta := hfit x hx delta ((payload_delta hl hy).trans hd)
      rw [hr, CompressUtil.regained_of_fits law.roundTrip (law.deltaNonempty _ _ _ hd) hp,
        law.deltaRoundTrip _ _ _ hd]
      rfl

theorem restoreAll_fits (law : StoreLaws cfg util) (hfit : AllFit cfg util chunks)
    (hnd : (chunks.map (·.info.fp)).Nodup) (hpos : ∀ x ∈ chunks, 1 ≤ x.data.length)
    (h : Refines cfg util log (Dictionary.ofChunks chunks) srv (· ∈ srv.storageCore.containers))
    (hst : LogOk cfg log srv.storageCore) {order : List WrappedChunk} :
    ∀ {cur : ClientStore}, CacheOk srv.storageCore cur.containerCache →
      (∀ x ∈ order, x ∈ chunks) →
      ∃ cur', DataDecoderThd.restoreAll cfg util srv (order.map (·.info.fp)) cur =
        .ok (order.map fun x => ⟨.data .normalChunk, x.data⟩, cur') := by
  induction order with
  | nil => intro cur _ _; exact ⟨cur, rfl⟩
  | cons x order ih =>
      intro cur hc hmem
      obtain ⟨cache, hx, hcache⟩ :=
        restoreChunk_fits law hfit hnd hpos h hst hc (hmem x List.mem_cons_self)
      obtain ⟨cur', hrest⟩ := @ih { cur with containerCache := cache } hcache
        (fun y hy => hmem y (List.mem_cons_of_mem _ hy))
      refine ⟨cur', ?_⟩
      rw [List.map_cons, DataDecoderThd.restoreAll, hx, ok_bind, hrest]
      rfl

/-- A restore ends the process where xdelta cannot decode, or not at all. -/
theorem restoreChunk_exits (hnd : (chunks.map (·.info.fp)).Nodup)
    (h : Refines cfg util log (Dictionary.ofChunks chunks) srv (· ∈ srv.storageCore.containers))
    (hst : LogOk cfg log srv.storageCore) (hc : CacheOk srv.storageCore cur.containerCache)
    {x : WrappedChunk} (hx : x ∈ chunks) :
    DataDecoderThd.restoreChunk cfg util srv x.info.fp cur = .error .deltaDecode ∨
      ∃ out cache, DataDecoderThd.restoreChunk cfg util srv x.info.fp cur =
        .ok (out, { cur with containerCache := cache }) ∧ CacheOk srv.storageCore cache := by
  obtain ⟨base, hl⟩ := Dictionary.lookup_ofChunks hnd hx
  cases base with
  | none =>
      obtain ⟨cache, hr, hcache⟩ := restoreChunk_whole h hst hc hl
      exact Or.inr ⟨_, cache, hr, hcache⟩
  | some base =>
      obtain ⟨y, delta, cache, -, -, hcache, hr⟩ := restoreChunk_delta h hst hc hl
      rw [hr]
      cases cfg.deltaDecode (util.regained y) (util.regained delta) with
      | none => exact Or.inl rfl
      | some out => exact Or.inr ⟨_, cache, rfl, hcache⟩

theorem restoreAll_exits (hnd : (chunks.map (·.info.fp)).Nodup)
    (h : Refines cfg util log (Dictionary.ofChunks chunks) srv (· ∈ srv.storageCore.containers))
    (hst : LogOk cfg log srv.storageCore) {order : List WrappedChunk} :
    ∀ {cur : ClientStore}, CacheOk srv.storageCore cur.containerCache →
      (∀ x ∈ order, x ∈ chunks) →
      ∀ e, DataDecoderThd.restoreAll cfg util srv (order.map (·.info.fp)) cur = .error e →
        e = .deltaDecode := by
  induction order with
  | nil => intro cur _ _ e h; exact nomatch h
  | cons x order ih =>
      intro cur hc hmem e he
      rw [List.map_cons, DataDecoderThd.restoreAll] at he
      rcases restoreChunk_exits hnd h hst hc (hmem x List.mem_cons_self) with
        hx | ⟨out, cache, hx, hcache⟩
      · rw [hx] at he
        cases he
        rfl
      · rw [hx, ok_bind] at he
        rcases bind_error he with he | ⟨rs, -, he⟩
        · exact @ih { cur with containerCache := cache } hcache
            (fun y hy => hmem y (List.mem_cons_of_mem _ hy)) e he
        · exact nomatch he

end Restore

theorem onlyXdeltaExits (law : StoreLaws cfg util) {chunks : List WrappedChunk}
    (hnd : (chunks.map (·.info.fp)).Nodup)
    (hlen : ∀ x ∈ chunks, 1 ≤ x.data.length ∧ x.data.length ≤ maxChunkSize + 4) :
    OnlyXdeltaExits cfg util chunks := by
  intro placed
  rcases runLoop_start law hnd hlen placed with ⟨hstop, -⟩ | ⟨log, srv, cur, hok, hhold⟩
  · rw [hstop]
  · rw [hok]
    obtain ⟨hlog, href⟩ := hhold.runEnd
    intro garbage order hmem
    exact restoreAll_exits hnd href hlog (cacheOk_new cfg _) hmem

/-- What fits comes back, from every run. -/
theorem lossless_of_fits (law : StoreLaws cfg util) {chunks : List WrappedChunk}
    (hnd : (chunks.map (·.info.fp)).Nodup)
    (hlen : ∀ x ∈ chunks, 1 ≤ x.data.length ∧ x.data.length ≤ maxChunkSize + 4)
    (hfit : AllFit cfg util chunks) : Lossless cfg util chunks := by
  intro placed
  rcases runLoop_start law hnd hlen placed with ⟨hstop, hx⟩ | ⟨log, srv, cur, hok, hhold⟩
  · rw [hstop]
    exact ⟨rfl, hx⟩
  · rw [hok]
    obtain ⟨hlog, href⟩ := hhold.runEnd
    refine ⟨?_, ?_⟩
    · intro x hx
      obtain ⟨base, hl⟩ := Dictionary.lookup_ofChunks hnd hx
      obtain ⟨addr, haddr, hs, -⟩ := hhold.refines.records hl
      exact ⟨addr, haddr, hs.fits⟩
    · intro garbage order hmem
      exact restoreAll_fits law hfit hnd (fun x hx => (hlen x hx).1) href hlog (cacheOk_new cfg _) hmem

/-! ## What does not fit is lost -/

/-- What the libraries do with what they cannot handle, and xdelta with every chunk. -/
structure StrictLaws (cfg : Components) (util : CompressUtil) : Prop where
  /-- The compressor fails or shrinks. -/
  shrinks : ∀ t data out, util.lib.compress t data data.length = some out →
    out.length < data.length
  /-- The decompressor fails where its buffer is too small. -/
  rejects : ∀ t data capacity out, util.lib.compress t data capacity = some out →
    ∀ capacity', capacity' < data.length → util.lib.decompress t out capacity' = none
  /-- A compressed delta is not a delta: it has another header. -/
  notDelta : ∀ base base' input delta t capacity out, cfg.deltaEncode base input = some delta →
    util.lib.compress t delta capacity = some out → cfg.deltaDecode base' out = none
  /-- A delta of a chunk fits xdelta's buffer. -/
  encodes : ∀ base input, input.length ≤ maxChunkSize + 4 → cfg.deltaEncode base input ≠ none

/-- What does not fit comes back as it was compressed. -/
theorem regained_of_not_fits (strict : StrictLaws cfg util) {data : Bytes}
    (h : ¬ util.Fits data) : ∃ out, util.lib.compress util.compressType data data.length = some out ∧
      util.regained data = out := by
  obtain ⟨hlong, hcomp⟩ := not_or.mp h
  obtain ⟨out, hc⟩ := Option.ne_none_iff_exists'.mp hcomp
  have hlib := CompressType.of_accept hc
  refine ⟨out, hlib, ?_⟩
  have hd : util.decompressed out = none := by
    rw [CompressUtil.decompressed, strict.rejects _ _ _ _ hlib _ (not_le.mp hlong)]
    exact CompressType.accept_none _
  rw [CompressUtil.regained, CompressUtil.compressOneChunk_some hc]
  exact CompressUtil.decompressOneChunk_none hd

theorem fits_of_regained (strict : StrictLaws cfg util) {data : Bytes}
    (h : util.regained data = data) : util.Fits data := by
  by_contra hfit
  obtain ⟨out, hc, hr⟩ := regained_of_not_fits strict hfit
  have hlt := strict.shrinks _ _ _ hc
  rw [← hr, h] at hlt
  exact Nat.lt_irrefl _ hlt

/-- A run that loses nothing stores nothing that does not fit. -/
theorem fits_of_lossless (law : StoreLaws cfg util) (strict : StrictLaws cfg util)
    {chunks : List WrappedChunk} (hnd : (chunks.map (·.info.fp)).Nodup)
    (hlen : ∀ x ∈ chunks, 1 ≤ x.data.length ∧ x.data.length ≤ maxChunkSize + 4)
    (h : Lossless cfg util chunks) : AllFit cfg util chunks := by
  rcases runLoop_start law hnd hlen ∅ with ⟨-, x, hx, base, hd⟩ | ⟨log, srv, cur, hok, hhold⟩
  · exact absurd hd (strict.encodes _ _ (hlen x hx).2)
  · have hres := h ∅
    rw [hok] at hres
    obtain ⟨hlog, href⟩ := hhold.runEnd
    have hc : CacheOk (DataWriterThd.runEnd srv cur).storageCore
        (StorageCore.openReader cfg ⟨[], []⟩).containerCache := cacheOk_new cfg _
    have hback : ∀ x ∈ chunks, ∃ cur', DataDecoderThd.restoreChunk cfg util
        (DataWriterThd.runEnd srv cur) x.info.fp (StorageCore.openReader cfg ⟨[], []⟩) =
          .ok (⟨.data .normalChunk, x.data⟩, cur') := by
      intro x hx
      obtain ⟨cur', hall⟩ := hres.2 ⟨[], []⟩ [x] (fun y hy => List.mem_singleton.mp hy ▸ hx)
      rw [List.map_cons, List.map_nil, DataDecoderThd.restoreAll] at hall
      obtain ⟨⟨r, cur''⟩, hr, hall⟩ := bind_ok hall
      rw [DataDecoderThd.restoreAll, ok_bind] at hall
      cases hall
      exact ⟨_, hr⟩
    have hwhole : ∀ {fp data},
        (Dictionary.ofChunks chunks).entries.lookup fp = some ⟨data, none⟩ →
          util.regained data = data := by
      intro fp data hl
      obtain ⟨z, hz, rfl, rfl⟩ := base_mem hl
      obtain ⟨cur', hz'⟩ := hback z hz
      obtain ⟨cache, hr, -⟩ := restoreChunk_whole href hlog hc hl
      have heq := Except.ok.inj (hr.symm.trans hz')
      exact congrArg (fun r : RestoreChunk × ClientStore => r.1.data) heq
    intro x hx p hp
    obtain ⟨base, hl⟩ := Dictionary.lookup_ofChunks hnd hx
    cases base with
    | none =>
        obtain rfl : x.data = p := Option.some.inj ((payload_whole hl).symm.trans hp)
        exact fits_of_regained strict (hwhole hl)
    | some base =>
        obtain ⟨cur', hx'⟩ := hback x hx
        obtain ⟨y, delta, cache, hy, hd, -, hr⟩ := restoreChunk_delta href hlog hc hl
        rw [hwhole hy] at hd hr
        obtain rfl : delta = p := Option.some.inj (hd.symm.trans ((payload_delta hl hy).symm.trans hp))
        by_contra hfit
        obtain ⟨out, hc, hout⟩ := regained_of_not_fits strict hfit
        rw [hout, strict.notDelta _ _ _ _ _ _ _ hd hc] at hr
        exact nomatch hr.symm.trans hx'

/-- The store gives back every chunk of every run in which all that is compressed fits
the decompressor's buffer, and of no other; a base of the wrong form it meets in none. -/
theorem lossless_of_allFit (law : StoreLaws cfg util) {chunks : List WrappedChunk}
    (hnd : (chunks.map (·.info.fp)).Nodup)
    (hlen : ∀ x ∈ chunks, 1 ≤ x.data.length ∧ x.data.length ≤ maxChunkSize + 4) :
    OnlyXdeltaExits cfg util chunks ∧ (AllFit cfg util chunks → Lossless cfg util chunks) ∧
      (StrictLaws cfg util → Lossless cfg util chunks → AllFit cfg util chunks) :=
  ⟨onlyXdeltaExits law hnd hlen, lossless_of_fits law hnd hlen,
    fun strict => fits_of_lossless law strict hnd hlen⟩

/-! ## A chunk of four bytes too many

The frames of `CompressLib.frames` with a content size of two bytes, counted from
256 on: enough for a chunk of `MAX_CHUNK_SIZE + 4` bytes that are all the same. -/

end Baseline

namespace CompressLib

/-- The magic number, and the descriptor of a single segment with two size bytes. -/
def wideMagic : Bytes := [0x28, 0xB5, 0x2F, 0xFD, 0x60]

/-- A frame whose one block repeats `b`. -/
def wideFrame (n : Nat) (b : UInt8) : Bytes :=
  wideMagic ++ (toLe 2 (n - 256) ++ (toLe 3 (3 + 8 * n) ++ [b]))

def readWide (data : Bytes) (capacity : Nat) : Option Bytes :=
  if data.take 5 = wideMagic then
    let n := ofLe (slice data 5 2) + 256
    if n ≤ capacity then readBlock n (ofLe (slice data 7 3)) (data.drop 10) else none
  else none

def writeWide (data : Bytes) (capacity : Nat) : Option Bytes :=
  match data with
  | [] => none
  | b :: rest =>
      if 255 ≤ rest.length ∧ rest.length < 65791 ∧ rest.all (· == b) ∧ 11 ≤ capacity then
        some (wideFrame (rest.length + 1) b)
      else none

/-- The wider frames, whatever the compression type. -/
def wideFrames : CompressLib where
  compress := fun _ => writeWide
  decompress := fun _ => readWide

theorem length_wideFrame (n : Nat) (b : UInt8) : (wideFrame n b).length = 11 := by
  simp [wideFrame, wideMagic, length_toLe]

theorem readWide_wideFrame {n : Nat} (hmin : 256 ≤ n) (hmax : n < 65792) (b : UInt8)
    (capacity : Nat) : readWide (wideFrame n b) capacity =
      if n ≤ capacity then some (List.replicate n b) else none := by
  have hsize : slice (wideFrame n b) 5 2 = toLe 2 (n - 256) := List.take_left' (length_toLe _ _)
  have hrest : (wideFrame n b).drop 7 = toLe 3 (3 + 8 * n) ++ [b] := by
    show (toLe 2 (n - 256) ++ (toLe 3 (3 + 8 * n) ++ [b])).drop 2 = _
    exact List.drop_left' (length_toLe _ _)
  have hheader : slice (wideFrame n b) 7 3 = toLe 3 (3 + 8 * n) := by
    rw [slice, hrest]
    exact List.take_left' (length_toLe _ _)
  have hdata : (wideFrame n b).drop 10 = [b] := by
    rw [show (10 : Nat) = 7 + 3 from rfl, ← List.drop_drop, hrest]
    exact List.drop_left' (length_toLe _ _)
  have hn : ofLe (toLe 2 (n - 256)) + 256 = n := by
    rw [ofLe_toLe_of_lt (by omega)]
    omega
  have hh : ofLe (toLe 3 (3 + 8 * n)) = 3 + 8 * n := ofLe_toLe_of_lt (by omega)
  have hblock : readBlock n (3 + 8 * n) [b] = some (List.replicate n b) := by
    unfold readBlock
    rw [if_pos ⟨by omega, by omega⟩, show (3 + 8 * n) / 2 % 4 = 1 by omega]
    rfl
  show (if wideMagic = wideMagic then
    if ofLe (slice (wideFrame n b) 5 2) + 256 ≤ capacity then
      readBlock (ofLe (slice (wideFrame n b) 5 2) + 256) (ofLe (slice (wideFrame n b) 7 3))
        ((wideFrame n b).drop 10) else none else none) = _
  rw [if_pos rfl, hsize, hheader, hdata, hn, hh, hblock]

theorem writeWide_some {data out : Bytes} {capacity : Nat}
    (h : writeWide data capacity = some out) :
    ∃ n b, 256 ≤ n ∧ n < 65792 ∧ data = List.replicate n b ∧ out = wideFrame n b ∧
      11 ≤ capacity := by
  cases data with
  | nil => cases h
  | cons b rest =>
      rw [writeWide] at h
      split at h
      · rename_i hw
        obtain ⟨hmin, hmax, hall, hcap⟩ := hw
        refine ⟨rest.length + 1, b, by omega, by omega, ?_, (Option.some.inj h).symm, hcap⟩
        have hrest : ∀ b' ∈ rest, b' = b := fun b' hb' => eq_of_beq (List.all_eq_true.mp hall b' hb')
        rw [List.replicate_succ, ← List.eq_replicate_iff.mpr ⟨rfl, hrest⟩]
      · cases h

theorem writeWide_replicate {n : Nat} (hmin : 256 ≤ n) (hmax : n < 65792) (b : UInt8)
    {capacity : Nat} (hcap : 11 ≤ capacity) :
    writeWide (List.replicate n b) capacity = some (wideFrame n b) := by
  obtain ⟨k, rfl⟩ := Nat.exists_eq_add_of_le' (show 1 ≤ n by omega)
  have hall : (List.replicate k b).all (· == b) = true :=
    List.all_eq_true.mpr fun b' hb' => beq_iff_eq.mpr (List.eq_of_mem_replicate hb')
  rw [List.replicate_succ, writeWide, List.length_replicate]
  exact if_pos ⟨by omega, by omega, hall, hcap⟩

end CompressLib

namespace Baseline

/-- The plain components with xdelta's buffer. -/
def sample : Components :=
  { Components.plain with
    deltaEncode := fun base input =>
      if input.length + 2 ≤ encMaxChunkSize then Components.plain.deltaEncode base input else none }

/-- What the server is built with, over the wider frames. -/
def sampleUtil : CompressUtil := { lib := .wideFrames, compressType := .zstd }

theorem sampleUtil_compressed {n : Nat} (hmin : 256 ≤ n) (hmax : n < 65792) (b : UInt8) :
    sampleUtil.compressed (List.replicate n b) = some (CompressLib.wideFrame n b) := by
  have hcap : 11 ≤ (List.replicate n b).length := by
    rw [List.length_replicate]
    omega
  exact congrArg CompressType.zstd.accept (CompressLib.writeWide_replicate hmin hmax b hcap)

theorem sample_deltaEncode {base input delta : Bytes}
    (h : sample.deltaEncode base input = some delta) :
    input.length + 2 ≤ encMaxChunkSize ∧ Components.plain.deltaEncode base input = some delta := by
  simp only [sample] at h
  split at h
  · rename_i hlen
    exact ⟨hlen, h⟩
  · cases h

theorem sample_storeLaws : StoreLaws sample sampleUtil where
  freshIds := Components.plain_freshIds
  deltaRoundTrip := fun base input delta h =>
    Components.plain_deltaRoundTrip base input delta (sample_deltaEncode h).2
  deltaNonempty := fun base input delta h =>
    Components.plain_deltaNonempty base input delta (sample_deltaEncode h).2
  deltaFits := by
    intro base input delta h
    obtain ⟨hlen, h⟩ := sample_deltaEncode h
    cases h
    exact hlen
  fitsCapacity := by
    intro t data capacity out h
    obtain ⟨n, b, -, -, -, rfl, hcap⟩ := CompressLib.writeWide_some h
    rwa [CompressLib.length_wideFrame]
  roundTrip := by
    intro t data capacity out h capacity' hlen
    obtain ⟨n, b, hmin, hmax, rfl, rfl, -⟩ := CompressLib.writeWide_some h
    rw [List.length_replicate] at hlen
    exact (CompressLib.readWide_wideFrame hmin hmax b capacity').trans (if_pos hlen)
  nonempty := by
    intro t data capacity out h
    obtain ⟨n, b, -, -, -, rfl, -⟩ := CompressLib.writeWide_some h
    exact List.cons_ne_nil _ _

theorem sample_strictLaws : StrictLaws sample sampleUtil where
  shrinks := by
    intro t data out h
    obtain ⟨n, b, hmin, -, rfl, rfl, -⟩ := CompressLib.writeWide_some h
    rw [CompressLib.length_wideFrame, List.length_replicate]
    omega
  rejects := by
    intro t data capacity out h capacity' hlen
    obtain ⟨n, b, hmin, hmax, rfl, rfl, -⟩ := CompressLib.writeWide_some h
    rw [List.length_replicate] at hlen
    exact (CompressLib.readWide_wideFrame hmin hmax b capacity').trans (if_neg (not_le.mpr hlen))
  notDelta := by
    intro base base' input delta t capacity out _ h
    obtain ⟨n, b, -, -, -, rfl, -⟩ := CompressLib.writeWide_some h
    have hpre : ¬ [3, UInt8.ofNat base'.length] <+: CompressLib.wideFrame n b := by
      intro hpre
      exact absurd (List.cons_prefix_cons.mp hpre).1 (by decide)
    simp only [sample, Components.plain, if_neg hpre]
  encodes := by
    intro base input hlen h
    have hfit : input.length + 2 ≤ encMaxChunkSize := (Nat.add_le_add_right hlen 2).trans (by decide)
    simp only [sample, if_pos hfit] at h
    cases h

/-- A chunk as the receiver pushes it. -/
def received (fp : Fp) (features : Features) (data : Bytes) : WrappedChunk where
  info :=
    { fp := fp
      features := features
      addr :=
        { stat := .uniqueChunk, containerId := [], offset := 0, len := data.length, baseFp := [] }
      stat := .uniqueChunk }
  data := data

/-- A chunk that is compressed, one that is a delta against it, and one alone. -/
def sampleChunks : List WrappedChunk :=
  [received [1] ⟨1, 2, 3⟩ (List.replicate 300 7), received [2] ⟨4, 2, 5⟩ [7, 7, 8],
    received [3] ⟨6, 7, 8⟩ [9]]

theorem lossless_of_allFit_sample :
    OnlyXdeltaExits sample sampleUtil sampleChunks ∧
      (AllFit sample sampleUtil sampleChunks → Lossless sample sampleUtil sampleChunks) ∧
      (StrictLaws sample sampleUtil → Lossless sample sampleUtil sampleChunks →
        AllFit sample sampleUtil sampleChunks) :=
  lossless_of_allFit sample_storeLaws (by decide) (by decide +kernel)

-- the second is a delta, and all three fit
example : (Dictionary.ofChunks sampleChunks).entries.lookup [2] = some ⟨[7, 7, 8], some [1]⟩ ∧
    AllFit sample sampleUtil sampleChunks := by
  decide +kernel

/-- One chunk of `MAX_CHUNK_SIZE + 4` bytes, all the same. -/
def longChunk : WrappedChunk :=
  received [1] ⟨1, 2, 3⟩ (List.replicate (maxChunkSize + 4) 7)

theorem long_chunk_lost :
    (StoreLaws sample sampleUtil ∧ StrictLaws sample sampleUtil) ∧
      ([longChunk].map (·.info.fp)).Nodup ∧
      (1 ≤ longChunk.data.length ∧ longChunk.data.length ≤ maxChunkSize + 4) ∧
      ¬ Lossless sample sampleUtil [longChunk] := by
  have hlen : longChunk.data.length = maxChunkSize + 4 := List.length_replicate
  have hnd : ([longChunk].map (·.info.fp)).Nodup := List.nodup_singleton _
  have hle : 1 ≤ longChunk.data.length ∧ longChunk.data.length ≤ maxChunkSize + 4 := by
    rw [hlen]
    decide
  refine ⟨⟨sample_storeLaws, sample_strictLaws⟩, hnd, hle, ?_⟩
  intro h
  have hfit := fits_of_lossless sample_storeLaws sample_strictLaws hnd
    (fun x hx => List.mem_singleton.mp hx ▸ hle) h
  have hwhole : (Dictionary.ofChunks [longChunk]).entries.lookup longChunk.info.fp =
      some ⟨longChunk.data, none⟩ := by
    have hbase : Dictionary.baseOf Dictionary.empty.features longChunk.info = none := by
      decide +kernel
    rw [Dictionary.ofChunks, List.foldl_cons, List.foldl_nil, Dictionary.lookup_put, if_pos rfl, hbase]
  rcases hfit.whole hwhole with hmax | hcomp
  · rw [hlen] at hmax
    exact absurd hmax (by decide)
  · have hdata : longChunk.data = List.replicate (maxChunkSize + 4) 7 := rfl
    rw [hdata, sampleUtil_compressed (by decide) (by decide)] at hcomp
    exact nomatch hcomp

end Baseline
end EDRStore
