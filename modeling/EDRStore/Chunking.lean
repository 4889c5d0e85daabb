/-
# `EDRStore.Chunking` — a file cut into chunks, whatever cuts it

`FastCDC` and `FixChunker` load the file and walk through a load in the same way;
they differ in how long they make the next chunk.  `ChunkerFPThd::Run` calls
them through `AbsChunker`.  Sizes are `uint64_t` in the members and `uint32_t` in
what the methods take and return, so a load has to be shorter than 2^32 bytes.

A chunker that always cuts off something, and no more than is left, partitions
the file (`run_partitions`): its loops end by themselves, the chunks of each load
are the load, and the loads are the file.  A read buffer of no bytes loads
nothing, and a file is then taken for an empty one.
-/
import EDRStore.Chunker

namespace EDRStore

/-! ## The chunkers -/

/-- The `Chunker` section of the configuration, with `read_size_` in bytes. -/
structure ChunkerConfig where
  minChunkSize : Nat
  avgChunkSize : Nat
  maxChunkSize : Nat
  readSize : Nat

/-- Sizes in order, no chunk larger than the buffers, loads that `uint32_t` counts. -/
structure ChunkerConfig.Valid (conf : ChunkerConfig) : Prop where
  min_pos : 0 < conf.minChunkSize
  min_le : conf.minChunkSize ≤ conf.maxChunkSize
  max_le : conf.maxChunkSize ≤ EDRStore.maxChunkSize
  avg_pos : 0 < conf.avgChunkSize
  avg_le : conf.avgChunkSize ≤ EDRStore.maxChunkSize
  readSize_lt : conf.readSize < 2 ^ 32

/-- `AbsChunker`: how much is loaded at once, and how many bytes of the load a
subclass copies out as the next chunk. -/
structure AbsChunker where
  readSize : Nat
  chunkSize : ChunkerState → Nat

namespace AbsChunker

variable (ch : AbsChunker)

/-- `LoadDataFromFile`, the same in both subclasses: the size returned, and what is
left of the file. -/
def loadDataFromFile (s : ChunkerState) (file : Bytes) : Nat × ChunkerState × Bytes :=
  let got := file.take ch.readSize
  (u32 got.length,
    { s with
      readDataBuf := memcpy s.readDataBuf 0 got
      pendingChunkingSize := got.length
      remainChunkingSize := got.length
      curOffset := 0 },
    file.drop ch.readSize)

/-- `GenerateOneChunk` around the size the subclass computes: the size returned, and
the buffer with the chunk copied to its start. -/
def generateOneChunk (s : ChunkerState) (data : Bytes) : Nat × Bytes × ChunkerState :=
  if s.pendingChunkingSize = 0 ∨ s.remainChunkingSize = 0 then (0, data, s)
  else
    let copied := ch.chunkSize s
    let size := u32 copied
    (size, memcpy data 0 (slice s.readDataBuf s.curOffset copied),
      { s with
        curOffset := s.curOffset + size
        remainChunkingSize := s.remainChunkingSize - size
        totalChunkNum := s.totalChunkNum + 1
        totalFileSize := s.totalFileSize + size })

/-- The inner loop of `ChunkerFPThd::Run`; `none` when `k` turns are not enough. -/
def chunkLoop (cfg : Components) :
    Nat → ChunkerState → Bytes → Option (ChunkerState × Bytes × List RawPlainChunk)
  | 0, _, _ => none
  | k + 1, s, data =>
      let r := ch.generateOneChunk s data
      if r.1 = 0 then some (r.2.2, r.2.1, [])
      else do
        let x : RawPlainChunk := ⟨r.1, r.2.1, cfg.generateHash (r.2.1.take r.1)⟩
        let rest ← chunkLoop cfg k r.2.2 r.2.1
        some (rest.1, rest.2.1, x :: rest.2.2)

/-- The outer loop of `ChunkerFPThd::Run`; `none` when `k` turns are not enough. -/
def fileLoop (cfg : Components) :
    Nat → ChunkerState → Bytes → Bytes → Option (ChunkerState × List RawPlainChunk)
  | 0, _, _, _ => none
  | k + 1, s, data, file =>
      let l := ch.loadDataFromFile s file
      if l.1 = 0 then some (l.2.1, [])
      else do
        let r ← ch.chunkLoop cfg (k + 1) l.2.1 data
        let rest ← fileLoop cfg k r.1 r.2.1 l.2.2
        some (rest.1, r.2.2 ++ rest.2)

/-- `ChunkerFPThd::Run` over the chunker, with what the two buffers hold at first:
the chunks pushed, and the head of the recipe pushed after them. -/
def run (cfg : Components) (k : Nat) (readBuf data file : Bytes) :
    Option (List RawPlainChunk × FileRecipeHead) := do
  let r ← ch.fileLoop cfg k ⟨readBuf, 0, 0, 0, 0, 0⟩ data file
  some (r.2, ⟨r.1.totalFileSize, r.1.totalChunkNum⟩)

end AbsChunker

namespace FixChunker

/-- The size that `FixChunker::GenerateOneChunk` chooses. -/
def chunkSize (avgChunkSize : Nat) (s : ChunkerState) : Nat :=
  if avgChunkSize ≤ s.remainChunkingSize then avgChunkSize else s.remainChunkingSize

def chunker (conf : ChunkerConfig) : AbsChunker :=
  ⟨conf.readSize, chunkSize conf.avgChunkSize⟩

end FixChunker

namespace FastCDC

/-- `tool::DivCeil`. -/
def divCeil (a b : Nat) : Nat := if a % b = 0 then a / b else a / b + 1

/-- `tool::CompareLimit`. -/
def compareLimit (input lower upper : Nat) : Nat :=
  if input ≤ lower then lower else if upper ≤ input then upper else input

/-- `FastCDC::CalNormalSize`. -/
def calNormalSize (min avg max : Nat) : Nat :=
  let off := u32 (min + divCeil min 2)
  let off := if avg < off then avg else off
  let diff := avg - off
  if max < diff then max else diff

/-- `round(log2(avg))`, as the integer part of half of `log2(avg²) + 1`. -/
def roundLog2 (avg : Nat) : Nat := (Nat.log2 (avg * avg) + 1) / 2

/-- `FastCDC::GenerateFastCDCMask`. -/
def generateFastCDCMask (bits : Nat) : UInt32 :=
  (1 <<< UInt32.ofNat (compareLimit bits 1 31)) - 1

/-- The constructor of `FastCDC`; the table is the one in its header. -/
def ofConfig (conf : ChunkerConfig) (gear : UInt8 → UInt32) (hmax : 0 < conf.maxChunkSize)
    (hread : 0 < conf.readSize) : FastCDC where
  minChunkSize := conf.minChunkSize
  normalChunkSize := calNormalSize conf.minChunkSize conf.avgChunkSize conf.maxChunkSize
  maxChunkSize := conf.maxChunkSize
  maskS := generateFastCDCMask (u32 (roundLog2 conf.avgChunkSize + 1))
  maskL := generateFastCDCMask (u32 (roundLog2 conf.avgChunkSize + 2 ^ 32 - 1))
  gear := gear
  readSize := conf.readSize
  maxChunkSize_pos := hmax
  readSize_pos := hread

variable (c : FastCDC)

/-- The size that `FastCDC::GenerateOneChunk` chooses; `CutPoint` takes the length of
what is left as a `uint32_t`. -/
def nextSize (s : ChunkerState) : Nat :=
  if s.remainChunkingSize ≤ c.minChunkSize then s.remainChunkingSize
  else c.cutPoint (s.readDataBuf.drop s.curOffset) (u32 (s.pendingChunkingSize - s.curOffset))

def chunker : AbsChunker := ⟨c.readSize, c.nextSize⟩

end FastCDC

/-! ## A partition -/

/-- Each chunk is cut off what is left of its load: something, and as `Q` allows. -/
def CutBy (Q : Nat → Nat → Prop) : List Bytes → Prop
  | [] => True
  | chunk :: rest => chunk ≠ [] ∧ Q (chunk :: rest).flatten.length chunk.length ∧ CutBy Q rest

/-- The loads are the file, `readSize` bytes of it each, and none is empty. -/
def Loads (readSize : Nat) : List (List Bytes) → Bytes → Prop
  | [], file => file = []
  | load :: rest, file =>
      load.flatten ≠ [] ∧ load.flatten = file.take readSize ∧ Loads readSize rest (file.drop readSize)

/-- What the thread pushes for a file, load by load. -/
structure Partitions (readSize : Nat) (file : Bytes) (loads : List (List Bytes))
    (r : List RawPlainChunk × FileRecipeHead) : Prop where
  chunks : r.1.map RawPlainChunk.content = loads.flatten
  sizes : ∀ x ∈ r.1, x.size = x.content.length
  reads : Loads readSize loads file
  concat : loads.flatten.flatten = file
  nonempty : ∀ chunk ∈ loads.flatten, chunk ≠ []
  head : r.2 = ⟨loads.flatten.flatten.length, loads.flatten.length⟩

section Cuts

variable {Q Q' : Nat → Nat → Prop} {cs : List Bytes}

theorem CutBy.nonempty (h : CutBy Q cs) : ∀ chunk ∈ cs, chunk ≠ [] := by
  induction cs with
  | nil => exact fun chunk hm => absurd hm List.not_mem_nil
  | cons chunk rest ih =>
      intro x hx
      rcases List.mem_cons.mp hx with rfl | hx
      · exact h.1
      · exact ih h.2.2 x hx

theorem CutBy.mem (h : CutBy Q cs) {chunk : Bytes} (hc : chunk ∈ cs) :
    ∃ remain, Q remain chunk.length := by
  induction cs with
  | nil => exact absurd hc List.not_mem_nil
  | cons x rest ih =>
      rcases List.mem_cons.mp hc with rfl | hc
      · exact ⟨_, h.2.1⟩
      · exact ih h.2.2 hc

/-- A chunk that is not the last of its load leaves something behind it. -/
theorem CutBy.mem_dropLast (h : CutBy Q cs) {chunk : Bytes} (hc : chunk ∈ cs.dropLast) :
    ∃ remain, chunk.length < remain ∧ Q remain chunk.length := by
  induction cs with
  | nil => exact absurd hc List.not_mem_nil
  | cons x rest ih =>
      cases rest with
      | nil => exact absurd hc List.not_mem_nil
      | cons y rest =>
          rw [List.dropLast_cons_cons] at hc
          rcases List.mem_cons.mp hc with rfl | hc
          · refine ⟨_, ?_, h.2.1⟩
            have hy := List.length_pos_iff.mpr h.2.2.1
            rw [List.flatten_cons, List.flatten_cons, List.length_append, List.length_append]
            omega
          · exact ih h.2.2 hc

theorem Loads.concat {readSize : Nat} {loads : List (List Bytes)} :
    ∀ {file : Bytes}, Loads readSize loads file → loads.flatten.flatten = file := by
  induction loads with
  | nil => exact fun h => h.symm
  | cons load rest ih =>
      intro file h
      obtain ⟨-, htake, hrest⟩ := h
      rw [List.flatten_cons, List.flatten_append, htake, ih hrest, List.take_append_drop]

end Cuts

/-! ## The loops -/

namespace AbsChunker

open ChunkerFPThd (Loaded unread length_unread)

/-- The subclass cuts off something, no more than is left, and as `Q` allows. -/
structure Cuts (ch : AbsChunker) (Q : Nat → Nat → Prop) : Prop where
  readSize_pos : 0 < ch.readSize
  readSize_lt : ch.readSize < 2 ^ 32
  size : ∀ {s : ChunkerState}, Loaded s → s.pendingChunkingSize < 2 ^ 32 →
    s.remainChunkingSize ≠ 0 →
      0 < ch.chunkSize s ∧ ch.chunkSize s ≤ s.remainChunkingSize ∧
        Q s.remainChunkingSize (ch.chunkSize s)

variable {ch : AbsChunker} {Q : Nat → Nat → Prop} {cfg : Components}

/-- A turn that finds something unread copies out the next chunk of it. -/
theorem generateOneChunk_spec (hcuts : ch.Cuts Q) {s : ChunkerState} (h : Loaded s)
    (hlt : s.pendingChunkingSize < 2 ^ 32) (hr : s.remainChunkingSize ≠ 0) (data : Bytes) :
    ∃ chunk s', ch.generateOneChunk s data = (chunk.length, memcpy data 0 chunk, s') ∧
      chunk ≠ [] ∧ Q s.remainChunkingSize chunk.length ∧ Loaded s' ∧
      s'.pendingChunkingSize = s.pendingChunkingSize ∧ unread s = chunk ++ unread s' ∧
      s'.totalChunkNum = s.totalChunkNum + 1 ∧
      s'.totalFileSize = s.totalFileSize + chunk.length := by
  obtain ⟨hpos, hle, hq⟩ := hcuts.size h hlt hr
  have ho := h.offset
  have hb := h.buf
  have hu : u32 (ch.chunkSize s) = ch.chunkSize s := u32_of_lt (by omega)
  have hlen : (slice s.readDataBuf s.curOffset (ch.chunkSize s)).length = ch.chunkSize s :=
    length_slice (by omega)
  refine ⟨slice s.readDataBuf s.curOffset (ch.chunkSize s),
    { s with
      curOffset := s.curOffset + ch.chunkSize s
      remainChunkingSize := s.remainChunkingSize - ch.chunkSize s
      totalChunkNum := s.totalChunkNum + 1
      totalFileSize := s.totalFileSize + ch.chunkSize s }, ?_, ?_, ?_, ?_, rfl, ?_, rfl, ?_⟩
  · unfold generateOneChunk
    rw [if_neg (by omega)]
    simp only [hu, hlen]
  · exact List.ne_nil_of_length_pos (by rw [hlen]; exact hpos)
  · rw [hlen]
    exact hq
  · refine ⟨?_, hb⟩
    show s.curOffset + ch.chunkSize s + (s.remainChunkingSize - ch.chunkSize s) =
      s.pendingChunkingSize
    omega
  · show slice s.readDataBuf s.curOffset s.remainChunkingSize =
      slice s.readDataBuf s.curOffset (ch.chunkSize s) ++
        slice s.readDataBuf (s.curOffset + ch.chunkSize s) (s.remainChunkingSize - ch.chunkSize s)
    unfold slice
    rw [← List.drop_drop, ← List.take_add, Nat.add_sub_cancel' hle]
  · show s.totalFileSize + ch.chunkSize s = _
    rw [hlen]

/-- Nothing is left: the inner loop ends. -/
theorem generateOneChunk_done {s : ChunkerState} (hr : s.remainChunkingSize = 0) (data : Bytes) :
    ch.generateOneChunk s data = (0, data, s) := by
  unfold generateOneChunk
  rw [if_pos (Or.inr hr)]

/-- The inner loop ends, and has pushed all of the load. -/
theorem chunkLoop_spec (hcuts : ch.Cuts Q) (cfg : Components) {k : Nat} :
    ∀ {s : ChunkerState} (data : Bytes), Loaded s → s.pendingChunkingSize < 2 ^ 32 →
      s.remainChunkingSize < k →
      ∃ cs s', ch.chunkLoop cfg k s data = some (s', filled data cs, emitted cfg data cs) ∧
        CutBy Q cs ∧ cs.flatten = unread s ∧
        s'.totalChunkNum = s.totalChunkNum + cs.length ∧
        s'.totalFileSize = s.totalFileSize + cs.flatten.length := by
  induction k with
  | zero => intro s _ _ _ hk; exact absurd hk (Nat.not_lt_zero _)
  | succ k ih =>
      intro s data h hlt hk
      by_cases hr : s.remainChunkingSize = 0
      · refine ⟨[], s, ?_, trivial, ?_, rfl, rfl⟩
        · rw [chunkLoop, generateOneChunk_done hr]
          rfl
        · exact (List.length_eq_zero_iff.mp ((length_unread h).trans hr)).symm
      · obtain ⟨chunk, s₁, hgen, hne, hq, h₁, hpend, hun, hnum, hsz⟩ :=
          generateOneChunk_spec hcuts h hlt hr data
        have hlen : chunk.length ≠ 0 := fun h0 => hne (List.length_eq_zero_iff.mp h0)
        have hleft : chunk.length + s₁.remainChunkingSize = s.remainChunkingSize := by
          rw [← length_unread h, hun, List.length_append, length_unread h₁]
        obtain ⟨cs, s', hrun, hcs, hflat, hnum', hsz'⟩ :=
          ih (memcpy data 0 chunk) h₁ (by rw [hpend]; exact hlt) (by omega)
        have hcont : (memcpy data 0 chunk).take chunk.length = chunk := content_memcpy data chunk []
        have hall : (chunk :: cs).flatten = unread s := by rw [List.flatten_cons, hflat, hun]
        refine ⟨chunk :: cs, s', ?_, ⟨hne, ?_, hcs⟩, hall, ?_, ?_⟩
        · simp only [chunkLoop, hgen, hlen, if_false, hrun, hcont, Option.bind_eq_bind,
            Option.bind_some]
          rfl
        · rw [hall, length_unread h]
          exact hq
        · rw [hnum', hnum, List.length_cons]
          omega
        · rw [hsz', hsz, List.flatten_cons, List.length_append]
          omega

/-- The outer loop ends, and has pushed all of the file. -/
theorem fileLoop_spec (hcuts : ch.Cuts Q) (cfg : Components) {k : Nat} :
    ∀ (s : ChunkerState) (data file : Bytes), file.length < k →
      ∃ loads s', ch.fileLoop cfg k s data file = some (s', emitted cfg data loads.flatten) ∧
        Loads ch.readSize loads file ∧ (∀ load ∈ loads, CutBy Q load) ∧
        s'.totalChunkNum = s.totalChunkNum + loads.flatten.length ∧
        s'.totalFileSize = s.totalFileSize + file.length := by
  induction k with
  | zero => intro s data file hk; exact absurd hk (Nat.not_lt_zero _)
  | succ k ih =>
      intro s data file hk
      have hread := hcuts.readSize_pos
      let s₀ := (ch.loadDataFromFile s file).2.1
      have hlen : (file.take ch.readSize).length ≤ ch.readSize := List.length_take_le _ _
      have hlt : s₀.pendingChunkingSize < 2 ^ 32 := Nat.lt_of_le_of_lt hlen hcuts.readSize_lt
      have hret : (ch.loadDataFromFile s file).1 = (file.take ch.readSize).length := u32_of_lt hlt
      have hpre := prefix_memcpy_zero s.readDataBuf (file.take ch.readSize)
      have h₀ : Loaded s₀ := ⟨Nat.zero_add _, hpre.length_le⟩
      have hun : unread s₀ = file.take ch.readSize := by
        obtain ⟨rest, hrest⟩ := hpre
        show slice (memcpy _ _ _) 0 (file.take ch.readSize).length = _
        rw [slice, List.drop_zero, ← hrest, List.take_left]
      by_cases hp : (file.take ch.readSize).length = 0
      · have hfile : file = [] := by
          rw [List.length_take] at hp
          exact List.length_eq_zero_iff.mp (by omega)
        subst hfile
        refine ⟨[], s₀, ?_, rfl, fun _ hm => absurd hm List.not_mem_nil, rfl, rfl⟩
        rw [fileLoop]
        simp only [hret.trans hp, if_true]
        rfl
      · have hk₀ : s₀.remainChunkingSize < k + 1 := by
          show (file.take ch.readSize).length < k + 1
          rw [List.length_take]
          omega
        obtain ⟨cs, s₁, hrun, hcs, hflat, hnum, hsz⟩ := chunkLoop_spec hcuts cfg data h₀ hlt hk₀
        obtain ⟨loads, s', hrun', hloads, hcuts', hnum', hsz'⟩ :=
          ih s₁ (filled data cs) (file.drop ch.readSize)
            (by rw [List.length_drop]; rw [List.length_take] at hp; omega)
        refine ⟨cs :: loads, s', ?_, ⟨?_, hflat.trans hun, hloads⟩, ?_, ?_, ?_⟩
        · have hrun₀ : ch.chunkLoop cfg (k + 1) (ch.loadDataFromFile s file).2.1 data =
            some (s₁, filled data cs, emitted cfg data cs) := hrun
          have hrun₁ : ch.fileLoop cfg k s₁ (filled data cs) (ch.loadDataFromFile s file).2.2 =
            some (s', emitted cfg (filled data cs) loads.flatten) := hrun'
          rw [fileLoop]
          simp only [hret, hp, if_false, hrun₀, hrun₁, Option.bind_eq_bind, Option.bind_some]
          rw [List.flatten_cons, emitted_append]
        · rw [hflat, hun]
          exact fun h0 => hp (List.length_eq_zero_iff.mpr h0)
        · intro load hl
          rcases List.mem_cons.mp hl with rfl | hl
          · exact hcs
          · exact hcuts' load hl
        · rw [hnum', hnum, List.flatten_cons, List.length_append]
          show s.totalChunkNum + _ + _ = _
          omega
        · rw [hsz', hsz, hflat, hun]
          show s.totalFileSize + _ + _ = _
          rw [List.length_drop, List.length_take]
          omega

theorem size_of_mem_emitted {buf : Bytes} {cs : List Bytes} {x : RawPlainChunk}
    (h : x ∈ emitted cfg buf cs) : x.size = x.content.length := by
  obtain ⟨i, hi⟩ := List.mem_iff_getElem?.mp h
  exact (getElem?_emitted hi).2.1

/-- More turns than needed change nothing. -/
theorem chunkLoop_mono {k : Nat} : ∀ {k' : Nat} {s : ChunkerState} {data : Bytes}
    {r : ChunkerState × Bytes × List RawPlainChunk}, k ≤ k' →
    ch.chunkLoop cfg k s data = some r → ch.chunkLoop cfg k' s data = some r := by
  induction k with
  | zero => intro k' s data r _ h; exact nomatch h
  | succ k ih =>
      intro k' s data r hk h
      obtain ⟨k', rfl⟩ := Nat.exists_eq_add_of_le' hk
      rw [chunkLoop] at h
      rw [Nat.add_succ, chunkLoop]
      simp only at h ⊢
      split at h
      · rename_i h0
        rw [if_pos h0]
        exact h
      · rename_i h0
        rw [if_neg h0]
        obtain ⟨rest, hrest, hr⟩ := Option.bind_eq_some_iff.mp h
        exact Option.bind_eq_some_iff.mpr ⟨rest, ih (Nat.le_add_left k k') hrest, hr⟩

theorem fileLoop_mono {k : Nat} : ∀ {k' : Nat} {s : ChunkerState} {data file : Bytes}
    {r : ChunkerState × List RawPlainChunk}, k ≤ k' →
    ch.fileLoop cfg k s data file = some r → ch.fileLoop cfg k' s data file = some r := by
  induction k with
  | zero => intro k' s data file r _ h; exact nomatch h
  | succ k ih =>
      intro k' s data file r hk h
      obtain ⟨k', rfl⟩ := Nat.exists_eq_add_of_le' hk
      rw [fileLoop] at h
      rw [Nat.add_succ, fileLoop]
      split at h
      · rename_i h0
        rw [if_pos h0]
        exact h
      · rename_i h0
        rw [if_neg h0]
        obtain ⟨l, hl, h⟩ := Option.bind_eq_some_iff.mp h
        obtain ⟨rest, hrest, hr⟩ := Option.bind_eq_some_iff.mp h
        refine Option.bind_eq_some_iff.mpr ⟨l, chunkLoop_mono (by omega) hl, ?_⟩
        exact Option.bind_eq_some_iff.mpr ⟨rest, ih (Nat.le_add_left k k') hrest, hr⟩

/-- As soon as it may take more turns than the file has bytes, the thread ends, and
what it has pushed is a partition of the file. -/
theorem run_partitions (hcuts : ch.Cuts Q) (cfg : Components) (readBuf data file : Bytes) :
    ∃ loads r, (∀ k, file.length < k → ch.run cfg k readBuf data file = some r) ∧
      Partitions ch.readSize file loads r ∧ ∀ load ∈ loads, CutBy Q load := by
  obtain ⟨loads, s', hrun, hloads, hcs, hnum, hsz⟩ :=
    fileLoop_spec hcuts cfg ⟨readBuf, 0, 0, 0, 0, 0⟩ data file (Nat.lt_succ_self file.length)
  have hcat := hloads.concat
  refine ⟨loads, (emitted cfg data loads.flatten, ⟨s'.totalFileSize, s'.totalChunkNum⟩), ?_,
    ⟨map_content_emitted, fun x hx => size_of_mem_emitted hx, hloads, hcat, ?_, ?_⟩, hcs⟩
  · intro k hk
    rw [run, fileLoop_mono hk hrun]
    rfl
  · intro chunk hchunk
    obtain ⟨load, hload, hmem⟩ := List.mem_flatten.mp hchunk
    exact (hcs load hload).nonempty chunk hmem
  · rw [hnum, hsz, hcat, Nat.zero_add, Nat.zero_add]

end AbsChunker

/-! ## Both chunkers cut -/

namespace FixChunker

theorem cuts {conf : ChunkerConfig} (h : conf.Valid) (hread : 0 < conf.readSize) :
    (chunker conf).Cuts fun remain size => size = min conf.avgChunkSize remain where
  readSize_pos := hread
  readSize_lt := h.readSize_lt
  size := by
    intro s hl _ hr
    have havg := h.avg_pos
    show 0 < chunkSize _ s ∧ chunkSize _ s ≤ _ ∧ chunkSize _ s = _
    unfold chunkSize
    split
    · exact ⟨havg, by omega, by omega⟩
    · exact ⟨by omega, by omega, by omega⟩

end FixChunker

namespace FastCDC

variable {c : FastCDC}

/-- A cut takes what is left, lies behind the minimum, or is forced at the maximum. -/
theorem cutPoint_cases (hmin : c.minChunkSize ≤ c.maxChunkSize)
    (hnorm : c.normalChunkSize ≤ c.maxChunkSize) (src : Bytes) {len : Nat}
    (hlen : c.minChunkSize < len) :
    c.cutPoint src len ≤ c.maxChunkSize ∧
      (c.cutPoint src len = len ∨ c.minChunkSize < c.cutPoint src len ∨
        c.cutPoint src len = c.maxChunkSize) := by
  unfold cutPoint
  simp only
  split
  · rename_i h
    have hle := scan_le h
    omega
  · split
    · rename_i h
      have hle := scan_le h
      omega
    · omega

theorem calNormalSize_le (min avg max : Nat) : calNormalSize min avg max ≤ max := by
  rw [calNormalSize]
  generalize (if avg < u32 (min + divCeil min 2) then avg else u32 (min + divCeil min 2)) = off
  split
  · exact Nat.le_refl _
  · rename_i h
    exact Nat.not_lt.mp h

/-- What `FastCDC` promises of a chunk of `size` bytes, cut off `remain` bytes. -/
def Cut (conf : ChunkerConfig) (remain size : Nat) : Prop :=
  size ≤ conf.maxChunkSize ∧
    (size = remain ∨ conf.minChunkSize < size ∨ size = conf.maxChunkSize)

theorem cuts {conf : ChunkerConfig} (h : conf.Valid) (gear : UInt8 → UInt32)
    (hmax : 0 < conf.maxChunkSize) (hread : 0 < conf.readSize) :
    (ofConfig conf gear hmax hread).chunker.Cuts (Cut conf) where
  readSize_pos := hread
  readSize_lt := h.readSize_lt
  size := by
    intro s hl hlt hr
    have ho := hl.offset
    have hmin := h.min_le
    show 0 < nextSize _ s ∧ nextSize _ s ≤ _ ∧ Cut conf _ (nextSize _ s)
    unfold nextSize
    split
    · rename_i hle
      have hle' : s.remainChunkingSize ≤ conf.minChunkSize := hle
      exact ⟨Nat.pos_of_ne_zero hr, Nat.le_refl _, hle'.trans hmin, Or.inl rfl⟩
    · rename_i hgt
      have hremain : u32 (s.pendingChunkingSize - s.curOffset) = s.remainChunkingSize := by
        rw [show s.pendingChunkingSize - s.curOffset = s.remainChunkingSize by omega]
        exact u32_of_lt (by omega)
      rw [hremain]
      exact ⟨cutPoint_pos _ (Nat.pos_of_ne_zero hr), cutPoint_le _ _,
        cutPoint_cases hmin (calNormalSize_le _ _ _) _ (Nat.not_le.mp hgt)⟩

/-- Whatever its settings, it cuts off something, no more than is left and no more than
the settings allow. -/
theorem cuts_longest (hread : c.readSize < 2 ^ 32) :
    c.chunker.Cuts fun _ size => size ≤ c.longest where
  readSize_pos := c.readSize_pos
  readSize_lt := hread
  size := by
    intro s hl hlt hr
    have ho := hl.offset
    show 0 < c.nextSize s ∧ c.nextSize s ≤ _ ∧ c.nextSize s ≤ c.longest
    unfold nextSize
    split
    · rename_i hle
      exact ⟨Nat.pos_of_ne_zero hr, Nat.le_refl _, hle.trans (Nat.le_max_left _ _)⟩
    · have hremain : u32 (s.pendingChunkingSize - s.curOffset) = s.remainChunkingSize := by
        rw [show s.pendingChunkingSize - s.curOffset = s.remainChunkingSize by omega]
        exact u32_of_lt (by omega)
      rw [hremain]
      exact ⟨cutPoint_pos _ (Nat.pos_of_ne_zero hr), cutPoint_le _ _, cutPoint_le_longest _ _⟩

end FastCDC

namespace ChunkerFPThd

/-- `ChunkerFPThd::Run` over `FastCDC`, with as many turns as a file can take. -/
def run (cfg : Components) (c : FastCDC) (readBuf data file : Bytes) :
    List RawPlainChunk × FileRecipeHead :=
  (c.chunker.run cfg (file.length + 1) readBuf data file).getD ([], ⟨0, 0⟩)

/-- Everything pushed for a file: its chunks are the file, in order, and the head of
the recipe counts them. -/
theorem run_spec (cfg : Components) {c : FastCDC} (hread : c.readSize < 2 ^ 32)
    (readBuf data file : Bytes) :
    ∃ cs, run cfg c readBuf data file = (emitted cfg data cs, ⟨file.length, cs.length⟩) ∧
      (∀ chunk ∈ cs, chunk ≠ [] ∧ chunk.length ≤ c.longest) ∧ cs.flatten = file := by
  obtain ⟨loads, s', hrun, hloads, hcuts, hnum, hsz⟩ := AbsChunker.fileLoop_spec
    (FastCDC.cuts_longest hread) cfg ⟨readBuf, 0, 0, 0, 0, 0⟩ data file
    (Nat.lt_succ_self file.length)
  refine ⟨loads.flatten, ?_, fun chunk hc => ?_, hloads.concat⟩
  · rw [run, AbsChunker.run, hrun]
    simp only [Option.bind_eq_bind, Option.bind_some, Option.getD_some, hnum, hsz, Nat.zero_add]
  · obtain ⟨load, hload, hmem⟩ := List.mem_flatten.mp hc
    obtain ⟨-, hlong⟩ := (hcuts load hload).mem hmem
    exact ⟨(hcuts load hload).nonempty chunk hmem, hlong⟩

/-- Both chunkers partition every file, for every valid configuration with a read
buffer. -/
theorem chunking_partitions (cfg : Components) {conf : ChunkerConfig} (h : conf.Valid)
    (hread : 0 < conf.readSize) (gear : UInt8 → UInt32) (readBuf data file : Bytes) :
    (∃ loads r, (∀ k, file.length < k →
        (FastCDC.ofConfig conf gear (h.min_pos.trans_le h.min_le) hread).chunker.run cfg k readBuf
          data file = some r) ∧
      Partitions conf.readSize file loads r ∧
      ∀ load ∈ loads, (∀ chunk ∈ load, chunk.length ≤ conf.maxChunkSize) ∧
        ∀ chunk ∈ load.dropLast,
          conf.minChunkSize < chunk.length ∨ chunk.length = conf.maxChunkSize) ∧
    (∃ loads r, (∀ k, file.length < k →
        (FixChunker.chunker conf).run cfg k readBuf data file = some r) ∧
      Partitions conf.readSize file loads r) := by
  refine ⟨?_, ?_⟩
  · obtain ⟨loads, r, hrun, hpart, hcuts⟩ := AbsChunker.run_partitions
      (FastCDC.cuts h gear (h.min_pos.trans_le h.min_le) hread) cfg readBuf data file
    refine ⟨loads, r, hrun, hpart, fun load hload => ⟨fun chunk hc => ?_, fun chunk hc => ?_⟩⟩
    · obtain ⟨-, hmax, -⟩ := (hcuts load hload).mem hc
      exact hmax
    · obtain ⟨remain, hlt, -, hcase⟩ := (hcuts load hload).mem_dropLast hc
      exact hcase.resolve_left (Nat.ne_of_lt hlt)
  · obtain ⟨loads, r, hrun, hpart, -⟩ :=
      AbsChunker.run_partitions (FixChunker.cuts h hread) cfg readBuf data file
    exact ⟨loads, r, hrun, hpart⟩

/-- Chunks of two to four bytes, eight bytes at a time. -/
def smallConfig : ChunkerConfig :=
  { minChunkSize := 2, avgChunkSize := 3, maxChunkSize := 4, readSize := 8 }

theorem smallConfig_valid : smallConfig.Valid where
  min_pos := by decide
  min_le := by decide
  max_le := by decide
  avg_pos := by decide
  avg_le := by decide
  readSize_lt := by decide

theorem chunking_partitions_sample :
    (∃ loads r, (∀ k, 20 < k →
        (FastCDC.ofConfig smallConfig UInt8.toUInt32 (by decide) (by decide)).chunker.run .plain k
          [] [] (List.replicate 20 7) = some r) ∧
      Partitions 8 (List.replicate 20 7) loads r ∧
      ∀ load ∈ loads, (∀ chunk ∈ load, chunk.length ≤ 4) ∧
        ∀ chunk ∈ load.dropLast, 2 < chunk.length ∨ chunk.length = 4) ∧
    (∃ loads r, (∀ k, 20 < k →
        (FixChunker.chunker smallConfig).run .plain k [] [] (List.replicate 20 7) = some r) ∧
      Partitions 8 (List.replicate 20 7) loads r) :=
  chunking_partitions .plain smallConfig_valid (by decide) UInt8.toUInt32 [] []
    (List.replicate 20 7)

-- the loads of 8, 8 and 4 bytes end with a chunk of what was left of them
example : ((FixChunker.chunker smallConfig).run .plain 21 [] [] (List.replicate 20 7)).map
    (fun r => (r.1.map RawPlainChunk.size, r.2)) =
      some ([3, 3, 2, 3, 3, 2, 3, 1], ⟨20, 8⟩) := by decide +kernel

/-- A configuration whose read buffer has no bytes. -/
def noBuffer : ChunkerConfig := { smallConfig with readSize := 0 }

/-- Nothing is loaded of a file then, and nothing is pushed but an empty head. -/
theorem no_buffer_loses_file : noBuffer.Valid ∧
    ¬ ∃ loads r, (∀ k, 1 < k → (FixChunker.chunker noBuffer).run .plain k [] [] [7] = some r) ∧
      Partitions noBuffer.readSize [7] loads r := by
  refine ⟨{ smallConfig_valid with readSize_lt := by decide }, ?_⟩
  rintro ⟨loads, r, hrun, hpart⟩
  have hr := hrun 2 (by decide)
  have hempty : (FixChunker.chunker noBuffer).run .plain 2 [] [] [7] = some ([], ⟨0, 0⟩) := rfl
  obtain rfl := Option.some.inj (hempty.symm.trans hr)
  have hhead := hpart.head
  rw [hpart.concat] at hhead
  exact absurd (congrArg FileRecipeHead.size hhead) Nat.zero_ne_one

end ChunkerFPThd

end EDRStore
