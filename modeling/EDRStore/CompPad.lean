/-
# `EDRStore.CompPad` — compression with a padding drawn from the seed

`CompPad` writes into whatever buffer its caller has at hand: the compressed
chunk, blocks of four random bytes, and the compressed size.  The generator is
local and starts from the seed, so what is written depends on the chunk and the
seed alone, whichever buffer it is written into (`compressWithPad_spec`).
-/
import EDRStore.Components
import EDRStore.Lib.Bytes

namespace EDRStore

/-- `max_padding_size_`. -/
def maxPaddingSize : Nat := 255

/-- What `CompPad` calls: the compression library, which hands back the chunk
itself where it cannot compress it, and the numbers that `default_random_engine`
gives for a seed. -/
structure CompPad where
  compressOneChunk : Bytes → Bytes
  randomRange : Nat → Nat → Nat

namespace CompPad

variable (pad : CompPad)

/-- A compressed chunk is not longer than the chunk. -/
def Shrinks : Prop := ∀ data, (pad.compressOneChunk data).length ≤ data.length

/-- `padding_blk_num`; the difference of the sizes is a `uint32_t`. -/
def paddingBlkNum (seed originalSize compressedSize : Nat) : Nat :=
  let limit := min (u32 (originalSize + 2 ^ 32 - compressedSize)) maxPaddingSize
  if limit < 4 then 0
  else if seed % limit / 4 = 0 then 1 else seed % limit / 4

/-- The loop of `CompPad::PaddingWithSeed` over `i` blocks. -/
def writePadding (seed compressedSize : Nat) (buf : Bytes) : Nat → Bytes
  | 0 => buf
  | i + 1 =>
      memcpy (writePadding seed compressedSize buf i) (compressedSize + 4 * i)
        (toLe 4 (pad.randomRange seed i))

/-- `CompPad::PaddingWithSeed`: the buffer, and the size after padding. -/
def paddingWithSeed (seed originalSize compressedSize : Nat) (buf : Bytes) : Bytes × Nat :=
  let n := paddingBlkNum seed originalSize compressedSize
  let buf := pad.writePadding seed compressedSize buf n
  (memcpy buf (compressedSize + 4 * n) (toLe 4 compressedSize), compressedSize + n * 4 + 4)

/-- `CompPad::CompressWithPad` into the buffer `outputData`. -/
def compressWithPad (data : Bytes) (seed : Nat) (outputData : Bytes) : Bytes × Nat :=
  let compressed := pad.compressOneChunk data
  pad.paddingWithSeed seed data.length compressed.length (memcpy outputData 0 compressed)

/-! ## What is written -/

/-- The first `n` blocks of padding. -/
def padding (seed : Nat) : Nat → Bytes
  | 0 => []
  | i + 1 => padding seed i ++ toLe 4 (pad.randomRange seed i)

/-- The chunk compressed and padded. -/
def padded (data : Bytes) (seed : Nat) : Bytes :=
  let compressed := pad.compressOneChunk data
  compressed ++ pad.padding seed (paddingBlkNum seed data.length compressed.length) ++
    toLe 4 compressed.length

@[simp] theorem length_padding (seed n : Nat) : (pad.padding seed n).length = 4 * n := by
  induction n with
  | zero => rfl
  | succ n ih => rw [padding, List.length_append, ih, length_toLe]; omega

theorem writePadding_spec (seed : Nat) {compressed buf : Bytes} (h : compressed <+: buf) (n : Nat) :
    compressed ++ pad.padding seed n <+: pad.writePadding seed compressed.length buf n := by
  induction n with
  | zero => rw [padding, List.append_nil]; exact h
  | succ n ih =>
      have hlen : compressed.length + 4 * n = (compressed ++ pad.padding seed n).length := by
        rw [List.length_append, length_padding]
      rw [padding, writePadding, hlen, ← List.append_assoc]
      exact memcpy_prefix ih _

/-- What comes out does not depend on the buffer. -/
theorem compressWithPad_spec (data : Bytes) (seed : Nat) (outputData : Bytes) :
    (pad.compressWithPad data seed outputData).1.take (pad.compressWithPad data seed outputData).2 =
      pad.padded data seed := by
  let compressed := pad.compressOneChunk data
  let n := paddingBlkNum seed data.length compressed.length
  have hpad := pad.writePadding_spec seed (prefix_memcpy_zero outputData compressed) n
  have hlen : compressed.length + 4 * n = (compressed ++ pad.padding seed n).length := by
    rw [List.length_append, length_padding]
  obtain ⟨rest, hrest⟩ := memcpy_prefix hpad (toLe 4 compressed.length)
  have hsize : compressed.length + n * 4 + 4 =
      (compressed ++ pad.padding seed n ++ toLe 4 compressed.length).length := by
    rw [List.length_append, ← hlen, length_toLe]
    omega
  show (memcpy (pad.writePadding seed compressed.length (memcpy outputData 0 compressed) n)
    (compressed.length + 4 * n) (toLe 4 compressed.length)).take (compressed.length + n * 4 + 4) = _
  rw [hlen, ← hrest, hsize, List.take_left]
  rfl

theorem paddingBlkNum_le (seed : Nat) {originalSize compressedSize : Nat}
    (h : compressedSize ≤ originalSize) :
    4 * paddingBlkNum seed originalSize compressedSize ≤ originalSize - compressedSize := by
  have hsub : u32 (originalSize + 2 ^ 32 - compressedSize) ≤ originalSize - compressedSize := by
    rw [show originalSize + 2 ^ 32 - compressedSize = originalSize - compressedSize + 2 ^ 32 by omega,
      u32, Nat.add_mod_right]
    exact Nat.mod_le _ _
  have hlim := (Nat.min_le_left (u32 (originalSize + 2 ^ 32 - compressedSize))
    maxPaddingSize).trans hsub
  unfold paddingBlkNum
  simp only
  split
  · exact Nat.zero_le _
  · rename_i hge
    split
    · omega
    · have hmod := Nat.mod_lt seed (show 0 < min (u32 (originalSize + 2 ^ 32 - compressedSize))
        maxPaddingSize by omega)
      omega

theorem length_padded (hs : pad.Shrinks) (data : Bytes) (seed : Nat) :
    (pad.padded data seed).length ≤ data.length + 4 := by
  have hc := hs data
  have hn := paddingBlkNum_le seed hc
  unfold padded
  rw [List.length_append, List.length_append, length_padding, length_toLe]
  omega

end CompPad

/-! ## As a component -/

namespace Components

/-- The components with `CompPad` working in the buffer `outputData`. -/
def withCompPad (cfg : Components) (pad : CompPad) (outputData : Bytes) : Components :=
  { cfg with
    compressWithPad := fun data seed =>
      (pad.compressWithPad data seed outputData).1.take
        (pad.compressWithPad data seed outputData).2 }

variable {cfg : Components} {pad : CompPad}

theorem withCompPad_compressWithPad (outputData data : Bytes) (seed : Nat) :
    (cfg.withCompPad pad outputData).compressWithPad data seed = pad.padded data seed :=
  pad.compressWithPad_spec data seed outputData

theorem withCompPad_compSize (hs : pad.Shrinks) (outputData : Bytes) :
    (cfg.withCompPad pad outputData).CompSize := by
  intro data seed
  rw [withCompPad_compressWithPad]
  exact pad.length_padded hs data seed

end Components

end EDRStore
