/-
# `EDRStore.Chunker` — chunks in the array they are pushed in

`FastCDC::CutPoint`, and what `ChunkerFPThd` pushes.  The thread has one element
that it fills again for every chunk and pushes as a whole: what is pushed is the
chunk and, behind it, what earlier chunks left there (`leftover`).
-/
import EDRStore.Components
import EDRStore.Lib.Bytes

namespace EDRStore

/-! ## FastCDC -/

/-- The members of `FastCDC` that the constructor sets, and the table `GEAR`. -/
structure FastCDC where
  minChunkSize : Nat
  normalChunkSize : Nat
  maxChunkSize : Nat
  maskS : UInt32
  maskL : UInt32
  gear : UInt8 → UInt32
  readSize : Nat
  maxChunkSize_pos : 0 < maxChunkSize
  readSize_pos : 0 < readSize

/-- The members that change. -/
structure ChunkerState where
  readDataBuf : Bytes
  pendingChunkingSize : Nat
  remainChunkingSize : Nat
  curOffset : Nat
  totalChunkNum : Nat
  totalFileSize : Nat

namespace FastCDC

variable (c : FastCDC)

/-- A loop of `CutPoint`, `k` bytes long, and the position behind the byte at which
it returned. -/
def scan (mask : UInt32) (src : Bytes) : Nat → Nat → UInt32 → Option Nat × UInt32
  | 0, _, fp => (none, fp)
  | k + 1, i, fp =>
      let fp := (fp >>> 1) + c.gear (src.getD i 0)
      if fp &&& mask = 0 then (some (i + 1), fp) else scan mask src k (i + 1) fp

/-- `FastCDC::CutPoint`. -/
def cutPoint (src : Bytes) (len : Nat) : Nat :=
  let i := min len c.minChunkSize
  let n := min c.normalChunkSize len
  match c.scan c.maskS src (n - i) i 0 with
  | (some cut, _) => cut
  | (none, fp) =>
      let i := max i n
      let n := min c.maxChunkSize len
      match c.scan c.maskL src (n - i) i fp with
      | (some cut, _) => cut
      | (none, _) => max i n

variable {c}

theorem scan_le {mask : UInt32} {src : Bytes} {k : Nat} :
    ∀ {i : Nat} {fp fp' : UInt32} {cut : Nat}, c.scan mask src k i fp = (some cut, fp') →
      i < cut ∧ cut ≤ i + k := by
  induction k with
  | zero => intro i fp fp' cut h; exact nomatch h
  | succ k ih =>
      intro i fp fp' cut h
      unfold scan at h
      simp only at h
      split at h
      · cases h
        exact ⟨Nat.lt_succ_self i, by omega⟩
      · obtain ⟨hlo, hhi⟩ := ih h
        exact ⟨by omega, by omega⟩

theorem cutPoint_le (src : Bytes) (len : Nat) : c.cutPoint src len ≤ len := by
  unfold cutPoint
  simp only
  split
  · rename_i h
    have hle := (scan_le h).2
    omega
  · split
    · rename_i h
      have hle := (scan_le h).2
      omega
    · omega

theorem cutPoint_pos (src : Bytes) {len : Nat} (hl : 0 < len) : 0 < c.cutPoint src len := by
  have hmax := c.maxChunkSize_pos
  unfold cutPoint
  simp only
  split
  · rename_i h
    have hlt := (scan_le h).1
    omega
  · split
    · rename_i h
      have hlt := (scan_le h).1
      omega
    · omega

variable (c) in
/-- The longest chunk the settings allow. -/
def longest : Nat := max c.minChunkSize (max c.normalChunkSize c.maxChunkSize)

theorem cutPoint_le_longest (src : Bytes) (len : Nat) : c.cutPoint src len ≤ c.longest := by
  unfold cutPoint longest
  simp only
  split
  · rename_i h
    have hle := scan_le h
    omega
  · split
    · rename_i h
      have hle := scan_le h
      omega
    · omega

end FastCDC

/-! ## The thread -/

/-- `RawChunk_t`; `data` is the whole array, `size` bytes of it are the chunk. -/
structure RawPlainChunk where
  size : Nat
  data : Bytes
  fp : Fp

/-- The chunk itself. -/
def RawPlainChunk.content (x : RawPlainChunk) : Bytes := x.data.take x.size

/-- `FileRecipeHead_t`. -/
structure FileRecipeHead where
  size : Nat
  chunkNum : Nat
deriving DecidableEq, Repr

/-! ## What is pushed -/

/-- The elements pushed for the chunks `cs`, when the array holds `buf` at first. -/
def emitted (cfg : Components) : Bytes → List Bytes → List RawPlainChunk
  | _, [] => []
  | buf, c :: cs =>
      ⟨c.length, memcpy buf 0 c, cfg.generateHash c⟩ :: emitted cfg (memcpy buf 0 c) cs

/-- The array after the chunks `cs`. -/
def filled (buf : Bytes) (cs : List Bytes) : Bytes := cs.foldl (fun b c => memcpy b 0 c) buf

/-- What the array holds at `p` after some chunks, the latest first: the byte of the
latest one that reaches so far. -/
def leftover (buf : Bytes) : List Bytes → Nat → Option UInt8
  | [], p => buf[p]?
  | chunk :: older, p => if p < chunk.length then chunk[p]? else leftover buf older p

section Emitted

variable {cfg : Components} {buf : Bytes} {cs : List Bytes}

theorem emitted_append (cs' : List Bytes) :
    emitted cfg buf (cs ++ cs') = emitted cfg buf cs ++ emitted cfg (filled buf cs) cs' := by
  induction cs generalizing buf with
  | nil => rfl
  | cons c cs ih =>
      rw [List.cons_append, emitted, emitted, ih, List.cons_append]
      rfl

theorem getElem?_memcpy_zero (buf src : Bytes) (p : Nat) :
    (memcpy buf 0 src)[p]? = if p < src.length then src[p]? else buf[p]? := by
  unfold memcpy
  rw [List.take_zero, List.nil_append, Nat.zero_add]
  split
  · rename_i h
    exact List.getElem?_append_left h
  · rename_i h
    rw [List.getElem?_append_right (by omega), List.getElem?_drop]
    congr 1
    omega

theorem leftover_concat (cs : List Bytes) (c : Bytes) (p : Nat) :
    leftover buf (cs ++ [c]) p = leftover (memcpy buf 0 c) cs p := by
  induction cs with
  | nil =>
      rw [List.nil_append, leftover, leftover, leftover, getElem?_memcpy_zero]
  | cons c' cs ih => rw [List.cons_append, leftover, leftover, ih]

/-- Byte by byte, the array holds what the latest long enough chunk left there. -/
theorem getElem?_filled (p : Nat) : (filled buf cs)[p]? = leftover buf cs.reverse p := by
  induction cs generalizing buf with
  | nil => rfl
  | cons c cs ih =>
      rw [List.reverse_cons, leftover_concat, ← ih]
      rfl

theorem length_emitted : (emitted cfg buf cs).length = cs.length := by
  induction cs generalizing buf with
  | nil => rfl
  | cons c cs ih => rw [emitted, List.length_cons, List.length_cons, ih]

theorem content_memcpy (buf c : Bytes) (fp : Fp) :
    (RawPlainChunk.mk c.length (memcpy buf 0 c) fp).content = c := by
  obtain ⟨rest, hrest⟩ := prefix_memcpy_zero buf c
  rw [RawPlainChunk.content, ← hrest, List.take_left]

theorem map_content_emitted : (emitted cfg buf cs).map RawPlainChunk.content = cs := by
  induction cs generalizing buf with
  | nil => rfl
  | cons c cs ih => rw [emitted, List.map_cons, content_memcpy, ih]

/-- The element pushed at `i`. -/
theorem getElem?_emitted {i : Nat} {x : RawPlainChunk} (h : (emitted cfg buf cs)[i]? = some x) :
    cs[i]? = some x.content ∧ x.size = x.content.length ∧
      x.fp = cfg.generateHash x.content ∧ x.data = filled buf (cs.take (i + 1)) := by
  induction cs generalizing buf i with
  | nil => exact nomatch h
  | cons c cs ih =>
      rw [emitted] at h
      cases i with
      | zero =>
          rw [List.getElem?_cons_zero, Option.some.injEq] at h
          subst h
          rw [content_memcpy]
          exact ⟨rfl, rfl, rfl, rfl⟩
      | succ i =>
          rw [List.getElem?_cons_succ] at h
          obtain ⟨hc, hs, hf, hd⟩ := ih h
          exact ⟨hc, hs, hf, hd⟩

end Emitted

/-! ## The load -/

namespace ChunkerFPThd

variable {s : ChunkerState}

/-- The unread part of the buffer is where the state says. -/
structure Loaded (s : ChunkerState) : Prop where
  offset : s.curOffset + s.remainChunkingSize = s.pendingChunkingSize
  buf : s.pendingChunkingSize ≤ s.readDataBuf.length

/-- What is left of the load. -/
def unread (s : ChunkerState) : Bytes := slice s.readDataBuf s.curOffset s.remainChunkingSize

theorem length_unread (h : Loaded s) : (unread s).length = s.remainChunkingSize :=
  length_slice (by rw [h.offset]; exact h.buf)

end ChunkerFPThd

end EDRStore
