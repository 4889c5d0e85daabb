/-
# `EDRStore.Recipe` — the file recipe and the key recipe

The server records the fingerprint of each logical chunk and the client its key,
both through a buffer of `send_recipe_batch_size_` records; on the way back each
reads its own file by as many records.  The client multiplies in 64 bits, the
server's writer in 32: a buffer of 2^27 fingerprints is written out as nothing.
-/
import EDRStore.Chunking
import EDRStore.Decoder
import EDRStore.UploadMessages
import EDRStore.Lib.Blocks
import Mathlib.Algebra.BigOperators.Ring.List
import Mathlib.Algebra.Order.BigOperators.Group.List
import Mathlib.Algebra.Order.Group.Nat

namespace EDRStore

/-! ## The head -/

namespace FileRecipeHead

def encode (h : FileRecipeHead) : Bytes := toLe 8 h.size ++ toLe 8 h.chunkNum

def decode (b : Bytes) : FileRecipeHead := ⟨ofLe (slice b 0 8), ofLe (slice b 8 8)⟩

@[simp] theorem length_encode (h : FileRecipeHead) : h.encode.length = fileRecipeHeadSize := by
  simp only [encode, List.length_append, length_toLe]
  rfl

theorem decode_encode (h : FileRecipeHead) :
    decode h.encode = ⟨h.size % 2 ^ 64, h.chunkNum % 2 ^ 64⟩ := by
  have h0 : slice h.encode 0 8 = toLe 8 h.size :=
    SendChunkHeader.slice_field (show ([] : Bytes).length = 0 from rfl) (length_toLe _ _)
  have h1 : slice h.encode 8 8 = toLe 8 h.chunkNum :=
    SendChunkHeader.slice_last (length_toLe _ _) (length_toLe _ _)
  rw [decode, h0, h1, ofLe_toLe, ofLe_toLe]
  rfl

end FileRecipeHead

/-! ## The writers -/

namespace DataRecvThd

/-- `cnt * CHUNK_HASH_SIZE`, a `uint32_t`. -/
def recipeBytes (cnt : Nat) : Nat := u32 (cnt * chunkHashSize)

/-- `DataRecvThd::ProcessRecipe`. -/
def processRecipe (batchSize : Nat) (w : RecipeWriter) (fp : Fp) : RecipeWriter :=
  w.add recipeBytes batchSize fp

/-- `DataRecvThd::ProcessRecipeEnd`: the tail, then the head over the placeholder;
the count is left as it is. -/
def processRecipeEnd (w : RecipeWriter) (head : Bytes) : RecipeWriter :=
  { w with hdl := memcpy (w.finish recipeBytes).hdl 0 head }

/-- All that is recorded for one upload, from `ClientVar::InitUploadBuffer` on; that
writes a head nobody has set. -/
def fileRecipe (batchSize : Nat) (unsetHead buf : Bytes) (fps : List Fp) (head : FileRecipeHead) :
    RecipeWriter :=
  processRecipeEnd (fps.foldl (processRecipe batchSize) ⟨⟨buf, 0⟩, unsetHead⟩) head.encode

end DataRecvThd

namespace SenderThd

/-- The product is a `size_t` here. -/
def recipeBytes (cnt : Nat) : Nat := cnt * chunkHashSize

/-- `SenderThd::StoreKeyRecipe` for each key, and the tail at the end. -/
def keyRecipe (batchSize : Nat) (buf : Bytes) (keys : List Key) : RecipeWriter :=
  (keys.foldl (RecipeWriter.add recipeBytes batchSize) ⟨⟨buf, 0⟩, []⟩).finish recipeBytes

end SenderThd

/-! ## The reader of the file recipe -/

namespace DataReaderThd

/-- The loop of `DataReaderThd::Run`: `n` bytes are asked for each time, the records
that came are taken, and the loop ends when none came or fewer bytes than asked
for.  Each turn but the last takes 32 bytes, so that `k` turns are enough for
`k` bytes. -/
def readRecipe (n : Nat) : Nat → Bytes → List Fp
  | 0, _ => []
  | k + 1, hdl =>
      let got := hdl.take n
      let readItemNum := got.length / chunkHashSize
      if readItemNum = 0 then []
      else
        blocks chunkHashSize readItemNum got ++
          if got.length < n then [] else readRecipe n k (hdl.drop n)

/-- What is read of a whole file: `ServerOptThd::Run` has read the head. -/
def fingerprints (batchSize : Nat) (file : Bytes) : List Fp :=
  readRecipe (recipeBatchBytes batchSize) file.length (file.drop fileRecipeHeadSize)

/-- Nothing is read twice. -/
theorem length_readRecipe (n : Nat) {k : Nat} : ∀ hdl : Bytes,
    (readRecipe n k hdl).length * chunkHashSize ≤ hdl.length := by
  induction k with
  | zero => intro hdl; exact Nat.zero_le _
  | succ k ih =>
      intro hdl
      have hdiv := Nat.div_mul_le_self (hdl.take n).length chunkHashSize
      have hlen : (hdl.take n).length + (hdl.drop n).length = hdl.length := by
        rw [← List.length_append, List.take_append_drop]
      rw [readRecipe]
      split
      · exact Nat.zero_le _
      · rw [List.length_append, length_blocks, Nat.add_mul]
        split
        · rw [List.length_nil, Nat.zero_mul]
          omega
        · have hrest := ih (hdl.drop n)
          omega

/-- Whole records, asked for by whole records. -/
theorem readRecipe_flatten {m : Nat} (hm : 0 < m) {k : Nat} : ∀ {rs : List Bytes},
    (∀ r ∈ rs, r.length = chunkHashSize) → rs.length ≤ k →
      readRecipe (m * chunkHashSize) k rs.flatten = rs := by
  induction k with
  | zero =>
      intro rs _ hk
      rw [List.length_eq_zero_iff.mp (Nat.le_zero.mp hk)]
      rfl
  | succ k ih =>
      intro rs h hk
      have hsize : 0 < chunkHashSize := by decide
      have htake : ∀ r ∈ rs.take m, r.length = chunkHashSize :=
        fun r hr => h r (List.mem_of_mem_take hr)
      obtain ⟨hgot, hrest⟩ := take_flatten h m
      have hlen := length_flatten_blocks htake
      have hblocks := blocks_flatten htake List.prefix_rfl
      rw [readRecipe]
      simp only [hgot, hrest, hlen, Nat.mul_div_cancel _ hsize, hblocks]
      rcases Nat.lt_or_ge rs.length m with hlt | hge
      · -- the last records: fewer than asked for
        rw [List.take_of_length_le (Nat.le_of_lt hlt)]
        split
        · rename_i h0
          exact (List.length_eq_zero_iff.mp h0).symm
        · rw [if_pos (Nat.mul_lt_mul_of_pos_right hlt hsize), List.append_nil]
      · have hmin : (rs.take m).length = m := by rw [List.length_take, Nat.min_eq_left hge]
        rw [hmin, if_neg (Nat.pos_iff_ne_zero.mp hm), if_neg (Nat.lt_irrefl _),
          ih (fun r hr => h r (List.mem_of_mem_drop hr)) (by rw [List.length_drop]; omega),
          List.take_append_drop]

end DataReaderThd

/-! ## What the writers write -/

/-- The most records a buffer holds at once. -/
def mostGathered (batchSize num : Nat) : Nat := min num batchSize

/-- The writer's state is that of the plain batching of records. -/
structure RecipeWriter.Gathered (start : Bytes) (w : RecipeWriter) (b : Batch Bytes) : Prop where
  cnt : w.batch.cnt = b.pending.length
  buf : b.pending.flatten <+: w.batch.buf
  hdl : w.hdl = start ++ b.out.flatten.flatten

namespace RecipeWriter

variable {size : Nat → Nat} {batchSize : Nat} {start : Bytes} {w : RecipeWriter} {b : Batch Bytes}

variable (batchSize) in
/-- One record, whose place and size are right. -/
theorem add_gathered (h : w.Gathered start b) {r : Bytes}
    (hb : ∀ x ∈ b.pending, x.length = chunkHashSize) (hr : r.length = chunkHashSize)
    (hlt : b.pending.length + 1 < 2 ^ 32)
    (hs : ∀ k ≤ b.pending.length + 1, size k = k * chunkHashSize) :
    (w.add size batchSize r).Gathered start (b.push batchSize r) := by
  have hlen := length_flatten_blocks hb
  have hall : ∀ x ∈ b.pending ++ [r], x.length = chunkHashSize := by
    intro x hx
    rcases List.mem_append.mp hx with hx | hx
    · exact hb x hx
    · rwa [List.mem_singleton.mp hx]
  have hlen' := length_flatten_blocks hall
  have hbuf : (b.pending ++ [r]).flatten <+: memcpy w.batch.buf (size w.batch.cnt) r := by
    rw [h.cnt, hs _ (Nat.le_succ _), ← hlen, List.flatten_append, List.flatten_singleton]
    exact memcpy_prefix h.buf r
  have hcnt : u32 (w.batch.cnt + 1) = (b.pending ++ [r]).length := by
    rw [h.cnt, u32_of_lt hlt, List.length_append, List.length_singleton]
  unfold add Batch.push
  simp only [hcnt]
  split
  · refine ⟨rfl, List.nil_prefix, ?_⟩
    obtain ⟨rest, hrest⟩ := hbuf
    show w.hdl ++ List.take _ _ = _
    rw [hs _ (by rw [List.length_append, List.length_singleton]), ← hlen', ← hrest, List.take_left,
      h.hdl]
    simp only [List.flatten_append, List.flatten_singleton, List.append_assoc]
  · exact ⟨rfl, hbuf, h.hdl⟩

theorem buf_add (r : Bytes) :
    (w.add size batchSize r).batch.buf = memcpy w.batch.buf (size w.batch.cnt) r := by
  unfold add
  simp only
  split
  · rfl
  · rfl

/-- Any number of records, when the sizes are right for as many as are gathered at
once: the buffer is not outgrown if it has room for these. -/
theorem run_gathered {rs : List Bytes} (hr : ∀ r ∈ rs, r.length = chunkHashSize) {most : Nat}
    (hlt : most < 2 ^ 32) (hs : ∀ k ≤ most, size k = k * chunkHashSize) :
    ∀ {w : RecipeWriter} {b : Batch Bytes}, w.Gathered start b → b.Sized batchSize →
      (∀ x ∈ b.pending, x.length = chunkHashSize) →
      min (b.pending.length + rs.length) batchSize ≤ most →
      (rs.foldl (RecipeWriter.add size batchSize) w).Gathered start (b.run batchSize rs) ∧
        (most * chunkHashSize ≤ w.batch.buf.length →
          (rs.foldl (RecipeWriter.add size batchSize) w).batch.buf.length =
            w.batch.buf.length) := by
  induction rs with
  | nil => intro w b h _ _ _; exact ⟨h, fun _ => rfl⟩
  | cons r rs ih =>
      intro w b h hsz hb hmost
      have hp := hsz.pending
      have hr₀ := hr r List.mem_cons_self
      rw [List.length_cons] at hmost
      have hstep := add_gathered batchSize h hb hr₀ (by omega)
        (fun k hk => hs k (by omega))
      have hlen : (b.push batchSize r).pending.length ≤ b.pending.length + 1 := by
        unfold Batch.push
        split
        · exact Nat.zero_le _
        · rw [List.length_append, List.length_singleton]
      have hb' : ∀ x ∈ (b.push batchSize r).pending, x.length = chunkHashSize := by
        intro x hx
        rcases Batch.mem_push_pending hx with hx | rfl
        · exact hb x hx
        · exact hr₀
      obtain ⟨hrun, hkept⟩ := ih (fun x hx => hr x (List.mem_cons_of_mem _ hx)) hstep (hsz.push r)
        hb' (by omega)
      refine ⟨hrun, fun hroom => ?_⟩
      have hadd : (w.add size batchSize r).batch.buf.length = w.batch.buf.length := by
        rw [buf_add]
        refine length_memcpy ?_
        rw [h.cnt, hs _ (by omega), hr₀, ← Nat.succ_mul]
        exact Nat.le_trans (Nat.mul_le_mul_right _ (by omega)) hroom
      rw [List.foldl_cons, hkept (by rw [hadd]; exact hroom), hadd]

theorem new_gathered (start buf : Bytes) :
    (RecipeWriter.mk ⟨buf, 0⟩ start).Gathered start Batch.empty :=
  ⟨rfl, List.nil_prefix, (List.append_nil start).symm⟩

/-- What is left at the end goes behind the rest. -/
theorem finish_gathered (h : w.Gathered start b) (hb : ∀ x ∈ b.pending, x.length = chunkHashSize)
    (hs : size b.pending.length = b.pending.length * chunkHashSize) :
    (w.finish size).hdl = start ++ (b.out.flatten ++ b.pending).flatten := by
  have hlen := length_flatten_blocks hb
  obtain ⟨rest, hrest⟩ := h.buf
  unfold finish
  split
  · show w.hdl ++ List.take _ _ = _
    rw [h.cnt, hs, ← hlen, ← hrest, List.take_left, h.hdl, List.flatten_append, List.append_assoc]
  · rename_i hz
    rw [h.cnt, not_not] at hz
    rw [List.length_eq_zero_iff.mp hz, List.append_nil, h.hdl]

variable (size start) in
/-- A recipe of any length, written through a buffer where the sizes are right. -/
theorem finish_run {rs : List Bytes} (hr : ∀ r ∈ rs, r.length = chunkHashSize) (hn : 0 < batchSize)
    (hlt : mostGathered batchSize rs.length < 2 ^ 32)
    (hs : ∀ k ≤ mostGathered batchSize rs.length, size k = k * chunkHashSize) (buf : Bytes) :
    ((rs.foldl (RecipeWriter.add size batchSize) ⟨⟨buf, 0⟩, start⟩).finish size).hdl =
        start ++ rs.flatten ∧
      (mostGathered batchSize rs.length * chunkHashSize ≤ buf.length →
        (rs.foldl (RecipeWriter.add size batchSize) ⟨⟨buf, 0⟩, start⟩).batch.buf.length =
          buf.length) := by
  have h0 : (Batch.empty : Batch Bytes).pending.length = 0 := rfl
  obtain ⟨h, hkept⟩ := run_gathered hr hlt hs (new_gathered start buf) (Batch.sized_empty hn)
    (fun x hx => absurd hx List.not_mem_nil) (by rw [h0, Nat.zero_add]; exact Nat.le_refl _)
  refine ⟨?_, hkept⟩
  have hcont := Batch.run_contents (n := batchSize) rs Batch.empty
  have hrs : ((Batch.empty : Batch Bytes).out.flatten ++ Batch.empty.pending ++ rs) = rs := rfl
  rw [hrs] at hcont
  have hpend : ∀ x ∈ (Batch.run batchSize Batch.empty rs).pending, x ∈ rs := by
    intro x hx
    have hmem := List.mem_append_right (Batch.run batchSize Batch.empty rs).out.flatten hx
    rwa [hcont] at hmem
  have hle : (Batch.run batchSize Batch.empty rs).pending.length ≤
      mostGathered batchSize rs.length := by
    have hsz := ((Batch.sized_empty (α := Bytes) hn).run rs).pending
    have hl := congrArg List.length hcont
    rw [List.length_append] at hl
    unfold mostGathered
    omega
  rw [finish_gathered h (fun x hx => hr x (hpend x hx)) (hs _ hle), hcont]

/-! ### A buffer that is outgrown -/

theorem length_memcpy_ge (buf src : Bytes) (off : Nat) :
    buf.length ≤ (memcpy buf off src).length ∧
      (off ≤ buf.length → off + src.length ≤ (memcpy buf off src).length) := by
  unfold memcpy
  rw [List.length_append, List.length_append, List.length_take, List.length_drop]
  omega

theorem length_buf_run (rs : List Bytes) : ∀ {w : RecipeWriter},
    w.batch.buf.length ≤ (rs.foldl (RecipeWriter.add size batchSize) w).batch.buf.length := by
  induction rs with
  | nil => intro w; exact Nat.le_refl _
  | cons r rs ih =>
      intro w
      rw [List.foldl_cons]
      refine Nat.le_trans ?_ ih
      rw [buf_add]
      exact (length_memcpy_ge _ _ _).1

variable (size start) in
/-- As many records as are gathered at once were in the buffer. -/
theorem mostGathered_le_length_buf {rs : List Bytes} (hr : ∀ r ∈ rs, r.length = chunkHashSize)
    (hn : 0 < batchSize) (hlt : mostGathered batchSize rs.length < 2 ^ 32)
    (hs : ∀ k ≤ mostGathered batchSize rs.length, size k = k * chunkHashSize) (buf : Bytes) :
    mostGathered batchSize rs.length * chunkHashSize ≤
      (rs.foldl (RecipeWriter.add size batchSize) ⟨⟨buf, 0⟩, start⟩).batch.buf.length := by
  rcases Nat.eq_zero_or_pos (mostGathered batchSize rs.length) with h0 | hpos
  · rw [h0, Nat.zero_mul]
    exact Nat.zero_le _
  · unfold mostGathered at hpos hlt hs ⊢
    obtain ⟨k, hk⟩ : ∃ k, min rs.length batchSize = k + 1 := ⟨_, (Nat.succ_pred_eq_of_pos hpos).symm⟩
    rw [hk] at hlt hs ⊢
    -- the records up to the one that fills the buffer
    have hsplit : rs = rs.take k ++ rs[k] :: rs.drop (k + 1) := by
      rw [List.getElem_cons_drop, List.take_append_drop]
    have htake : (rs.take k).length = k := by rw [List.length_take]; omega
    have h0 : (Batch.empty : Batch Bytes).pending.length = 0 := rfl
    have hr' : ∀ r ∈ rs.take k, r.length = chunkHashSize :=
      fun r hm => hr r (List.mem_of_mem_take hm)
    obtain ⟨h, -⟩ := run_gathered hr' hlt hs (new_gathered start buf) (Batch.sized_empty hn)
      (fun x hx => absurd hx List.not_mem_nil) (by rw [h0, htake]; omega)
    rw [Batch.run_short _ _ (by rw [h0, htake]; omega)] at h
    have hcnt := h.cnt
    have hpre := h.buf.length_le
    simp only [Batch.empty, List.nil_append] at hcnt hpre
    rw [htake] at hcnt
    rw [length_flatten_blocks hr', htake] at hpre
    have hfull := (length_memcpy_ge ((rs.take k).foldl (RecipeWriter.add size batchSize)
      ⟨⟨buf, 0⟩, start⟩).batch.buf rs[k] (k * chunkHashSize)).2 hpre
    rw [hr _ (List.getElem_mem _), ← Nat.succ_mul] at hfull
    rw [hsplit, List.foldl_append, List.foldl_cons]
    refine hfull.trans (Nat.le_trans ?_ (length_buf_run _))
    rw [buf_add, hcnt, hs k (Nat.le_succ k)]

/-! ### Records that are lost -/

/-- The writer has written no more than the sizes of the pieces it counted, in
32 bits. -/
structure Counted (size : Nat → Nat) (start : Bytes) (w : RecipeWriter) (b : Batch Bytes) :
    Prop where
  cnt : w.batch.cnt = b.pending.length
  hdl : w.hdl.length ≤ start.length + (b.out.map fun g => size (u32 g.length)).sum

theorem add_counted (h : Counted size start w b) (hsz : b.Sized (min batchSize (2 ^ 32)))
    (r : Bytes) :
    Counted size start (w.add size batchSize r) (b.push (min batchSize (2 ^ 32)) r) := by
  have hp := hsz.pending
  have hlen : (b.pending ++ [r]).length = b.pending.length + 1 := by
    rw [List.length_append, List.length_singleton]
  have hcnt : u32 (w.batch.cnt + 1) = u32 (b.pending ++ [r]).length := by rw [h.cnt, hlen]
  have hflush : u32 (b.pending ++ [r]).length % batchSize = 0 ↔
      (b.pending ++ [r]).length % min batchSize (2 ^ 32) = 0 := by
    rw [hlen]
    exact u32_mod_eq_zero_iff hp
  unfold add Batch.push
  simp only [hcnt, hflush]
  split
  · refine ⟨rfl, ?_⟩
    have hle := List.length_take_le (size (u32 (b.pending ++ [r]).length))
      (memcpy w.batch.buf (size w.batch.cnt) r)
    have hh := h.hdl
    show (w.hdl ++ List.take _ _).length ≤ _
    rw [List.length_append, List.map_append, List.sum_append, List.map_singleton,
      List.sum_singleton]
    omega
  · rename_i hmod
    refine ⟨?_, h.hdl⟩
    show u32 _ = _
    refine u32_of_lt ?_
    rw [hlen] at hmod ⊢
    rw [Batch.mod_eq_zero_iff hp] at hmod
    omega

variable (size batchSize) in
theorem run_counted (rs : List Bytes) : ∀ {w : RecipeWriter} {b : Batch Bytes},
    Counted size start w b → b.Sized (min batchSize (2 ^ 32)) →
      Counted size start (rs.foldl (RecipeWriter.add size batchSize) w)
        (b.run (min batchSize (2 ^ 32)) rs) := by
  induction rs with
  | nil => intro w b h _; exact h
  | cons r rs ih => intro w b h hsz; exact ih (add_counted h hsz r) (hsz.push r)

/-- The length of a finished recipe. -/
theorem length_finish_run_le (rs : List Bytes) (hn : 0 < batchSize) (buf : Bytes) :
    ((rs.foldl (RecipeWriter.add size batchSize) ⟨⟨buf, 0⟩, start⟩).finish size).hdl.length ≤
      start.length +
        ((Batch.batches (min batchSize (2 ^ 32)) rs).map fun g => size (u32 g.length)).sum := by
  have hmin : 0 < min batchSize (2 ^ 32) := Nat.lt_min.mpr ⟨hn, by decide⟩
  have hsz := (Batch.sized_empty (α := Bytes) hmin).run rs
  have h := run_counted size batchSize rs
    (show Counted size start ⟨⟨buf, 0⟩, start⟩ Batch.empty from ⟨rfl, Nat.le_refl _⟩)
    (Batch.sized_empty hmin)
  have hh := h.hdl
  unfold finish Batch.batches Batch.close
  rw [h.cnt]
  by_cases hp : (Batch.run (min batchSize (2 ^ 32)) Batch.empty rs).pending = []
  · rw [if_pos hp, hp, List.length_nil, if_neg (not_not.mpr rfl)]
    exact hh
  · rw [if_neg hp, if_pos fun h0 => hp (List.length_eq_zero_iff.mp h0)]
    have hlt := hsz.pending
    show (_ ++ List.take _ _).length ≤ _
    rw [List.length_append, List.map_append, List.sum_append, List.map_singleton,
      List.sum_singleton, u32_of_lt (by omega)]
    have hle := List.length_take_le (size (Batch.run (min batchSize (2 ^ 32)) Batch.empty
      rs).pending.length) (rs.foldl (RecipeWriter.add size batchSize) ⟨⟨buf, 0⟩, start⟩).batch.buf
    omega

end RecipeWriter

open DataRecvThd in
/-- Once 2^27 fingerprints are gathered some are lost. -/
theorem DataRecvThd.length_finish_lt {batchSize : Nat} {fps : List Fp}
    (hmost : 2 ^ 27 ≤ mostGathered batchSize fps.length) (start buf : Bytes) :
    ((fps.foldl (RecipeWriter.add recipeBytes batchSize) ⟨⟨buf, 0⟩, start⟩).finish
      recipeBytes).hdl.length < start.length + fps.length * chunkHashSize := by
  unfold mostGathered at hmost
  refine Nat.lt_of_le_of_lt (RecipeWriter.length_finish_run_le fps (by omega) buf) ?_
  refine Nat.add_lt_add_left ?_ _
  have hall : (((Batch.batches (min batchSize (2 ^ 32)) fps).map fun g =>
      g.length * chunkHashSize).sum) = fps.length * chunkHashSize := by
    rw [List.sum_map_mul_right, ← List.length_flatten, Batch.flatten_batches]
  rw [← hall]
  have hbound : ∀ l : Nat, recipeBytes (u32 l) ≤ l * chunkHashSize := fun l =>
    (Nat.mod_le _ _).trans (Nat.mul_le_mul_right _ (Nat.mod_le _ _))
  refine List.sum_lt_sum _ _ (fun g _ => hbound g.length) ?_
  obtain ⟨g, hg, hlong⟩ := Batch.exists_long (k := 2 ^ 27) (by decide)
    (show 2 ^ 27 ≤ min batchSize (2 ^ 32) by omega) (show 2 ^ 27 ≤ fps.length by omega)
  refine ⟨g, hg, Nat.lt_of_lt_of_le (u32_lt _) ?_⟩
  exact Nat.mul_le_mul_right chunkHashSize hlong

/-! ## When the recipes are whole -/

/-- As many records as are gathered at once fit the buffers, and their bytes can be
counted in 32 bits. -/
structure RecipesFit (batchSize num : Nat) : Prop where
  count : mostGathered batchSize num < 2 ^ 27
  room : mostGathered batchSize num * chunkHashSize ≤ recipeBatchBytes batchSize

theorem DataRecvThd.recipeBytes_of_lt {k : Nat} (hk : k < 2 ^ 27) :
    recipeBytes k = k * chunkHashSize := by
  have hlt : k * chunkHashSize < 2 ^ 27 * chunkHashSize :=
    Nat.mul_lt_mul_of_pos_right hk (by decide)
  exact u32_of_lt (Nat.lt_of_lt_of_le hlt (by decide))

/-- Whole records are asked for. -/
theorem recipeBatchBytes_eq (batchSize : Nat) :
    ∃ m, recipeBatchBytes batchSize = m * chunkHashSize := by
  have hmod : batchSize * chunkHashSize % 2 ^ 64 = batchSize % 2 ^ 59 * chunkHashSize := by
    rw [show 2 ^ 64 = 2 ^ 59 * chunkHashSize by decide, Nat.mul_mod_mul_right]
  unfold recipeBatchBytes
  rw [hmod]
  split
  · exact ⟨_, rfl⟩
  · exact ⟨0, (Nat.zero_mul _).symm⟩

theorem memcpy_zero_append {α : Type} {a src : List α} (h : a.length = src.length)
    (post : List α) : memcpy (a ++ post) 0 src = src ++ post := by
  rw [memcpy, List.take_zero, List.nil_append, Nat.zero_add, ← h, List.drop_left]

section Whole

variable {batchSize : Nat} {fps : List Fp} {unsetHead buf : Bytes}

open DataRecvThd DataReaderThd

theorem fileRecipe_eq (batchSize : Nat) (unsetHead buf : Bytes) (fps : List Fp)
    (head : FileRecipeHead) : fileRecipe batchSize unsetHead buf fps head =
      { fps.foldl (RecipeWriter.add recipeBytes batchSize) ⟨⟨buf, 0⟩, unsetHead⟩ with
        hdl := memcpy ((fps.foldl (RecipeWriter.add recipeBytes batchSize)
          ⟨⟨buf, 0⟩, unsetHead⟩).finish recipeBytes).hdl 0 head.encode } := rfl

/-- The file is the head and the fingerprints. -/
theorem fileRecipe_spec (hn : 0 < batchSize) (hfp : ∀ fp ∈ fps, fp.length = chunkHashSize)
    (hhead : unsetHead.length = fileRecipeHeadSize) (hbuf : buf.length = recipeBatchBytes batchSize)
    (hfit : RecipesFit batchSize fps.length) (head : FileRecipeHead) :
    (fileRecipe batchSize unsetHead buf fps head).hdl = head.encode ++ fps.flatten ∧
      (fileRecipe batchSize unsetHead buf fps head).batch.buf.length = buf.length := by
  have hlt : mostGathered batchSize fps.length < 2 ^ 32 :=
    Nat.lt_trans hfit.count (by decide)
  obtain ⟨hhdl, hlen⟩ := RecipeWriter.finish_run recipeBytes unsetHead hfp hn
    hlt (fun k hk => recipeBytes_of_lt (Nat.lt_of_le_of_lt hk hfit.count)) buf
  rw [fileRecipe_eq]
  refine ⟨?_, hlen (by rw [hbuf]; exact hfit.room)⟩
  rw [hhdl]
  exact memcpy_zero_append (by rw [hhead, FileRecipeHead.length_encode]) _

/-- What is read back of such a file. -/
theorem fingerprints_spec (hn : 0 < batchSize) (hfp : ∀ fp ∈ fps, fp.length = chunkHashSize)
    (hfit : RecipesFit batchSize fps.length) (head : FileRecipeHead) :
    fingerprints batchSize (head.encode ++ fps.flatten) = fps := by
  have hsize : 0 < chunkHashSize := by decide
  have hdrop : (head.encode ++ fps.flatten).drop fileRecipeHeadSize = fps.flatten := by
    rw [← FileRecipeHead.length_encode head, List.drop_left]
  unfold fingerprints
  rw [hdrop]
  obtain ⟨m, hm⟩ := recipeBatchBytes_eq batchSize
  rw [hm]
  rcases Nat.eq_zero_or_pos fps.length with h0 | hpos
  · rw [List.length_eq_zero_iff.mp h0]
    exact List.length_eq_zero_iff.mp (Nat.le_zero.mp (Nat.le_of_mul_le_mul_right
      ((length_readRecipe _ []).trans (Nat.zero_le (0 * chunkHashSize))) hsize))
  · have hroom := hfit.room
    rw [hm] at hroom
    have hle := Nat.le_of_mul_le_mul_right hroom hsize
    have hmpos : 0 < m := by
      unfold mostGathered at hle
      omega
    refine readRecipe_flatten hmpos hfp ?_
    rw [List.length_append, length_flatten_blocks hfp]
    exact (Nat.le_mul_of_pos_right _ hsize).trans (Nat.le_add_left _ _)

/-- If all fingerprints come back and the buffer was not outgrown, they fit. -/
theorem recipesFit_of_fingerprints (hn : 0 < batchSize)
    (hfp : ∀ fp ∈ fps, fp.length = chunkHashSize) (hhead : unsetHead.length = fileRecipeHeadSize)
    (hbuf : buf.length = recipeBatchBytes batchSize) {head : FileRecipeHead}
    (hread : fingerprints batchSize (fileRecipe batchSize unsetHead buf fps head).hdl = fps)
    (hkept : (fileRecipe batchSize unsetHead buf fps head).batch.buf.length = buf.length) :
    RecipesFit batchSize fps.length := by
  have hcount : mostGathered batchSize fps.length < 2 ^ 27 := by
    refine Nat.lt_of_not_le fun hlong => ?_
    have hlost := length_finish_lt hlong unsetHead buf
    have hle := length_readRecipe (recipeBatchBytes batchSize)
      (k := (fileRecipe batchSize unsetHead buf fps head).hdl.length)
      ((fileRecipe batchSize unsetHead buf fps head).hdl.drop fileRecipeHeadSize)
    rw [show readRecipe _ _ _ = fps from hread, List.length_drop, fileRecipe_eq] at hle
    simp only [memcpy, List.length_append, List.length_take, List.length_drop,
      FileRecipeHead.length_encode] at hle
    rw [hhead] at hlost
    have hpos : 0 < fps.length * chunkHashSize := by
      unfold mostGathered at hlong
      exact Nat.mul_pos (by omega) (by decide)
    omega
  refine ⟨hcount, ?_⟩
  have hgrown := RecipeWriter.mostGathered_le_length_buf recipeBytes unsetHead hfp hn
    (Nat.lt_trans hcount (by decide))
    (fun k hk => recipeBytes_of_lt (Nat.lt_of_le_of_lt hk hcount)) buf
  rw [fileRecipe_eq] at hkept
  rw [← hbuf, ← hkept]
  exact hgrown

end Whole

/-- The key recipe is the keys. -/
theorem SenderThd.keyRecipe_spec {batchSize : Nat} {keys : List Key} {buf : Bytes}
    (hn : 0 < batchSize) (hk : ∀ key ∈ keys, key.length = chunkHashSize)
    (hbuf : buf.length = recipeBatchBytes batchSize) (hfit : RecipesFit batchSize keys.length) :
    (SenderThd.keyRecipe batchSize buf keys).hdl = keys.flatten ∧
      (SenderThd.keyRecipe batchSize buf keys).batch.buf.length = buf.length := by
  obtain ⟨hhdl, hlen⟩ := RecipeWriter.finish_run SenderThd.recipeBytes [] hk hn
    (Nat.lt_trans hfit.count (by decide)) (fun _ _ => rfl) buf
  refine ⟨hhdl, ?_⟩
  have hfin : ∀ w : RecipeWriter, (w.finish SenderThd.recipeBytes).batch.buf = w.batch.buf := by
    intro w
    unfold RecipeWriter.finish
    split
    · rfl
    · rfl
  rw [SenderThd.keyRecipe, hfin]
  exact hlen (by rw [hbuf]; exact hfit.room)

end EDRStore
