/-
# `EDRStore.CompressUtil` — a chunk through the compression library, and back

`CompressOneChunk` falls back on the chunk itself where the library fails, and
returns whether it did.  `DecompressOneChunk` falls back on its input where the
library fails, and returns nothing.  `CompPad` drops the flag of the first, so
its second half has to guess: what cannot be decompressed was not compressed.

The guess is right for every chunk that the library compresses, and for every
chunk that the library does not take for a frame of its own.  It is wrong for
the rest (`emptyFrame`): a chunk that is a frame already, too short to be
compressed again, comes back as what the frame holds.
-/
import EDRStore.CompPad

namespace EDRStore

/-- `COMPRESS_TYPE_SET`. -/
inductive CompressType where
  | lz4
  | zstd
  | zlib
deriving DecidableEq, Repr

/-- LZ4, zstd and zlib at the configured level, into a buffer of the given
capacity; an error code is `none`. -/
structure CompressLib where
  compress : CompressType → Bytes → Nat → Option Bytes
  decompress : CompressType → Bytes → Nat → Option Bytes

namespace CompressLib

variable (lib : CompressLib)

/-- Nothing is written behind the capacity. -/
def FitsCapacity : Prop :=
  ∀ t data capacity out, lib.compress t data capacity = some out → out.length ≤ capacity

/-- Decompression into enough space undoes compression. -/
def RoundTrip : Prop :=
  ∀ t data capacity out, lib.compress t data capacity = some out →
    ∀ capacity', data.length ≤ capacity' → lib.decompress t out capacity' = some data

end CompressLib

/-- The test of each branch on what the library returned: for LZ4 no bytes are a
failure as well. -/
def CompressType.accept : CompressType → Option Bytes → Option Bytes
  | .lz4, some [] => none
  | _, ret => ret

@[simp] theorem CompressType.accept_none (t : CompressType) : t.accept none = none := by
  cases t <;> rfl

@[simp] theorem CompressType.accept_cons (t : CompressType) (b : UInt8) (data : Bytes) :
    t.accept (some (b :: data)) = some (b :: data) := by
  cases t <;> rfl

theorem CompressType.accept_of_ne_nil {t : CompressType} {data : Bytes} (h : data ≠ []) :
    t.accept (some data) = some data := by
  obtain ⟨b, rest, rfl⟩ := List.exists_cons_of_ne_nil h
  exact t.accept_cons b rest

theorem CompressType.of_accept {t : CompressType} {ret : Option Bytes} {out : Bytes}
    (h : t.accept ret = some out) : ret = some out := by
  unfold CompressType.accept at h
  split at h
  · exact nomatch h
  · exact h

structure CompressUtil where
  lib : CompressLib
  compressType : CompressType

namespace CompressUtil

variable (util : CompressUtil)

/-- What the library makes of a chunk, in as many bytes as the chunk has. -/
def compressed (chunkData : Bytes) : Option Bytes :=
  util.compressType.accept (util.lib.compress util.compressType chunkData chunkData.length)

/-- What the library takes out of a frame. -/
def decompressed (compressedData : Bytes) : Option Bytes :=
  util.compressType.accept (util.lib.decompress util.compressType compressedData maxChunkSize)

/-- `CompressUtil::CompressOneChunk`: the flag, and the `output_size` bytes written. -/
def compressOneChunk (chunkData : Bytes) : Bool × Bytes :=
  match util.compressed chunkData with
  | some out => (true, out)
  | none => (false, chunkData)

/-- `CompressUtil::DecompressOneChunk`: the `uncompressed_size` bytes written. -/
def decompressOneChunk (compressedData : Bytes) : Bytes :=
  match util.decompressed compressedData with
  | some out => out
  | none => compressedData

/-- The compressing half of `CompPad`, which ignores the flag. -/
def compPad (randomRange : Nat → Nat → Nat) : CompPad where
  compressOneChunk := fun chunkData => (util.compressOneChunk chunkData).2
  randomRange := randomRange

/-- `CompPad::DecompressWithPad` into the buffer `outputData`: the buffer, and the
size before padding. -/
def decompressWithPad (inputData : Bytes) (size : Nat) (outputData : Bytes) : Bytes × Nat :=
  let compressedSize := ofLe (slice inputData (size - 4) 4)
  let out := util.decompressOneChunk (inputData.take compressedSize)
  (memcpy outputData 0 out, out.length)

/-! ## One chunk -/

variable {util}

theorem compressOneChunk_some {data out : Bytes} (h : util.compressed data = some out) :
    util.compressOneChunk data = (true, out) := by
  unfold compressOneChunk
  rw [h]

theorem compressOneChunk_none {data : Bytes} (h : util.compressed data = none) :
    util.compressOneChunk data = (false, data) := by
  unfold compressOneChunk
  rw [h]

theorem decompressOneChunk_some {data out : Bytes} (h : util.decompressed data = some out) :
    util.decompressOneChunk data = out := by
  unfold decompressOneChunk
  rw [h]

theorem decompressOneChunk_none {data : Bytes} (h : util.decompressed data = none) :
    util.decompressOneChunk data = data := by
  unfold decompressOneChunk
  rw [h]

theorem length_compressOneChunk (hcap : util.lib.FitsCapacity) (data : Bytes) :
    (util.compressOneChunk data).2.length ≤ data.length := by
  cases hc : util.compressed data with
  | none => rw [compressOneChunk_none hc]
  | some out =>
      rw [compressOneChunk_some hc]
      exact hcap _ _ _ _ (CompressType.of_accept hc)

theorem compPad_shrinks (hcap : util.lib.FitsCapacity) (randomRange : Nat → Nat → Nat) :
    (util.compPad randomRange).Shrinks :=
  length_compressOneChunk hcap

/-- A chunk that was compressed comes back, where its length is no more than the
decompressor's buffer. -/
theorem decompressOneChunk_compressed (hrt : util.lib.RoundTrip) {data out : Bytes}
    (hpos : 0 < data.length) (hmax : data.length ≤ maxChunkSize)
    (h : util.compressed data = some out) : util.decompressOneChunk out = data := by
  have hd := hrt _ _ _ _ (CompressType.of_accept h) maxChunkSize hmax
  refine decompressOneChunk_some ?_
  rw [decompressed, hd]
  exact CompressType.accept_of_ne_nil (List.ne_nil_of_length_pos hpos)

/-- Either the library compresses the chunk, or it hands back the chunk alone where
it is asked to decompress it. -/
def Recognised (util : CompressUtil) (data : Bytes) : Prop :=
  (∃ out, util.compressed data = some out) ∨
    ∀ out, util.decompressed data = some out → out = data

theorem decompressOneChunk_compressOneChunk_iff (hrt : util.lib.RoundTrip) {data : Bytes}
    (hpos : 0 < data.length) (hmax : data.length ≤ maxChunkSize) :
    util.decompressOneChunk (util.compressOneChunk data).2 = data ↔ util.Recognised data := by
  cases hc : util.compressed data with
  | some out =>
      rw [compressOneChunk_some hc]
      exact iff_of_true (decompressOneChunk_compressed hrt hpos hmax hc) (Or.inl ⟨out, hc⟩)
  | none =>
      rw [compressOneChunk_none hc]
      -- the chunk is stored verbatim: what counts is what the library says of it
      have hrec : util.Recognised data ↔ ∀ out, util.decompressed data = some out → out = data := by
        refine or_iff_right ?_
        rintro ⟨out, h⟩
        exact nomatch hc.symm.trans h
      rw [hrec]
      cases hd : util.decompressed data with
      | none =>
          rw [decompressOneChunk_none hd]
          exact iff_of_true rfl fun out h => nomatch h
      | some out =>
          rw [decompressOneChunk_some hd]
          exact ⟨fun heq out' h => (Option.some.inj h).symm.trans heq, fun h => h out rfl⟩

/-! ## With the padding -/

/-- The last four bytes lead back to what `CompressOneChunk` wrote, and
`DecompressOneChunk` is given no more than that. -/
theorem decompressWithPad_compressWithPad (hcap : util.lib.FitsCapacity)
    (randomRange : Nat → Nat → Nat) {data : Bytes} (hmax : data.length ≤ maxChunkSize)
    (seed : Nat) (outputData outputData' : Bytes) :
    let padded := (util.compPad randomRange).compressWithPad data seed outputData
    util.decompressWithPad padded.1 padded.2 outputData' =
      (memcpy outputData' 0 (util.decompressOneChunk (util.compressOneChunk data).2),
        (util.decompressOneChunk (util.compressOneChunk data).2).length) := by
  intro padded
  let pad := util.compPad randomRange
  let compressed := (util.compressOneChunk data).2
  let n := CompPad.paddingBlkNum seed data.length compressed.length
  have hpre : pad.padded data seed <+: padded.1 := by
    rw [← pad.compressWithPad_spec data seed outputData]
    exact List.take_prefix _ _
  have hpadded : pad.padded data seed =
      compressed ++ pad.padding seed n ++ toLe 4 compressed.length := rfl
  have hsize : padded.2 - 4 = (compressed ++ pad.padding seed n).length := by
    rw [List.length_append, CompPad.length_padding, Nat.mul_comm]
    show compressed.length + n * 4 + 4 - 4 = _
    omega
  have hslice : slice padded.1 (padded.2 - 4) 4 = toLe 4 compressed.length := by
    rw [hpadded] at hpre
    have h := slice_mid_of_prefix hpre
    rwa [length_toLe, ← hsize] at h
  have hlt : compressed.length < 256 ^ 4 := by
    refine Nat.lt_of_le_of_lt ((length_compressOneChunk hcap data).trans hmax) ?_
    decide
  have htake : padded.1.take compressed.length = compressed := by
    refine List.prefix_iff_eq_take.mp ?_ |>.symm
    refine List.IsPrefix.trans ?_ hpre
    rw [hpadded, List.append_assoc]
    exact List.prefix_append _ _
  unfold decompressWithPad
  simp only [hslice, ofLe_toLe_of_lt hlt, htake, compressed]

/-- Compression with padding is undone for exactly the chunks that the library
compresses, or does not take for a frame of its own. -/
theorem pad_round_trip_iff (hcap : util.lib.FitsCapacity) (hrt : util.lib.RoundTrip)
    (randomRange : Nat → Nat → Nat) {data : Bytes} (hpos : 0 < data.length)
    (hmax : data.length ≤ maxChunkSize) (seed : Nat) (outputData outputData' : Bytes) :
    (let padded := (util.compPad randomRange).compressWithPad data seed outputData
      let plain := util.decompressWithPad padded.1 padded.2 outputData'
      plain.2 = data.length ∧ plain.1.take plain.2 = data) ↔
    util.Recognised data := by
  have hdec := decompressWithPad_compressWithPad hcap randomRange hmax seed outputData outputData'
  rw [← decompressOneChunk_compressOneChunk_iff hrt hpos hmax]
  simp only at hdec ⊢
  rw [hdec]
  have htake : ∀ out : Bytes, (memcpy outputData' 0 out).take out.length = out := fun out =>
    (List.prefix_iff_eq_take.mp (prefix_memcpy_zero outputData' out)).symm
  rw [htake]
  exact ⟨fun h => h.2, fun h => ⟨congrArg List.length h, h⟩⟩

end CompressUtil

/-! ## Frames

A fragment of the zstd format: one segment with a content size of one byte, and
one block, raw or of a repeated byte.  The compressor emits only the latter. -/

namespace CompressLib

/-- The magic number, and the descriptor of a single segment. -/
def frameMagic : Bytes := [0x28, 0xB5, 0x2F, 0xFD, 0x20]

/-- A frame whose one block repeats `b`. -/
def rleFrame (n b : UInt8) : Bytes := frameMagic ++ n :: (toLe 3 (3 + 8 * n.toNat) ++ [b])

/-- The content of a last block, raw (type 0) or repeated (type 1). -/
def readBlock (n : Nat) (header : Nat) (content : Bytes) : Option Bytes :=
  if header % 2 = 1 ∧ header / 8 = n then
    match header / 2 % 4, content with
    | 0, raw => if raw.length = n then some raw else none
    | 1, [b] => some (List.replicate n b)
    | _, _ => none
  else none

def readFrame (data : Bytes) (capacity : Nat) : Option Bytes :=
  if data.take 5 = frameMagic then
    match data.drop 5 with
    | n :: rest =>
        if n.toNat ≤ capacity then readBlock n.toNat (ofLe (rest.take 3)) (rest.drop 3) else none
    | [] => none
  else none

def writeFrame (data : Bytes) (capacity : Nat) : Option Bytes :=
  match data with
  | [] => none
  | b :: rest =>
      if rest.length < 255 ∧ rest.all (· == b) ∧ 10 ≤ capacity then
        some (rleFrame (UInt8.ofNat (rest.length + 1)) b)
      else none

/-- The fragment, whatever the compression type. -/
def frames : CompressLib where
  compress := fun _ => writeFrame
  decompress := fun _ => readFrame

theorem readFrame_rleFrame {n : UInt8} {capacity : Nat} (h : n.toNat ≤ capacity) (b : UInt8) :
    readFrame (rleFrame n b) capacity = some (List.replicate n.toNat b) := by
  have hn := n.toNat_lt
  have hheader : ofLe (toLe 3 (3 + 8 * n.toNat)) = 3 + 8 * n.toNat :=
    ofLe_toLe_of_lt (by omega)
  have htake : (toLe 3 (3 + 8 * n.toNat) ++ [b]).take 3 = toLe 3 (3 + 8 * n.toNat) :=
    List.take_left' (length_toLe _ _)
  have hdrop : (toLe 3 (3 + 8 * n.toNat) ++ [b]).drop 3 = [b] := List.drop_left' (length_toLe _ _)
  have hblock : readBlock n.toNat (3 + 8 * n.toNat) [b] = some (List.replicate n.toNat b) := by
    unfold readBlock
    rw [if_pos ⟨by omega, by omega⟩, show (3 + 8 * n.toNat) / 2 % 4 = 1 by omega]
    rfl
  show (if n.toNat ≤ capacity then
    readBlock n.toNat (ofLe ((toLe 3 (3 + 8 * n.toNat) ++ [b]).take 3))
      ((toLe 3 (3 + 8 * n.toNat) ++ [b]).drop 3) else none) = _
  rw [if_pos h, htake, hdrop, hheader, hblock]

theorem writeFrame_some {data out : Bytes} {capacity : Nat}
    (h : writeFrame data capacity = some out) :
    ∃ n b, data = List.replicate n.toNat b ∧ out = rleFrame n b ∧ 10 ≤ capacity := by
  cases data with
  | nil => cases h
  | cons b rest =>
      rw [writeFrame] at h
      split at h
      · rename_i hw
        obtain ⟨hlen, hall, hcap⟩ := hw
        have hn : (UInt8.ofNat (rest.length + 1)).toNat = rest.length + 1 :=
          UInt8.toNat_ofNat_of_lt' (show rest.length + 1 < 2 ^ 8 by omega)
        refine ⟨UInt8.ofNat (rest.length + 1), b, ?_, (Option.some.inj h).symm, hcap⟩
        have hrest : ∀ b' ∈ rest, b' = b := fun b' hb' => eq_of_beq (List.all_eq_true.mp hall b' hb')
        rw [hn, List.replicate_succ, ← List.eq_replicate_iff.mpr ⟨rfl, hrest⟩]
      · cases h

theorem frames_fitsCapacity : frames.FitsCapacity := by
  intro t data capacity out h
  obtain ⟨n, b, -, rfl, hcap⟩ := writeFrame_some h
  rw [rleFrame, List.length_append, List.length_cons, List.length_append, length_toLe]
  exact hcap

theorem frames_roundTrip : frames.RoundTrip := by
  intro t data capacity out h capacity' hlen
  obtain ⟨n, b, rfl, rfl, -⟩ := writeFrame_some h
  rw [List.length_replicate] at hlen
  exact readFrame_rleFrame hlen b

end CompressLib

namespace CompressUtil

/-- What the clients are built with, over the fragment. -/
def sample : CompressUtil := { lib := .frames, compressType := .zstd }

theorem pad_round_trip_iff_sample :
    (let padded := (sample.compPad fun _ i => i).compressWithPad [1, 2, 3] 77 []
      let plain := sample.decompressWithPad padded.1 padded.2 []
      plain.2 = 3 ∧ plain.1.take plain.2 = [1, 2, 3]) ↔
    sample.Recognised [1, 2, 3] :=
  pad_round_trip_iff CompressLib.frames_fitsCapacity CompressLib.frames_roundTrip _ (by decide)
    (by decide) 77 [] []

/-- The zstd frame of no bytes: nine of them, too few to be compressed. -/
def emptyFrame : Bytes := CompressLib.frameMagic ++ [0, 1, 0, 0]

/-- A chunk that is an empty frame comes back empty. -/
theorem frame_not_restored :
    (sample.lib.FitsCapacity ∧ sample.lib.RoundTrip) ∧
      0 < emptyFrame.length ∧ emptyFrame.length ≤ maxChunkSize ∧
      ¬ (let padded := (sample.compPad fun _ i => i).compressWithPad emptyFrame 77 []
        let plain := sample.decompressWithPad padded.1 padded.2 []
        plain.2 = emptyFrame.length ∧ plain.1.take plain.2 = emptyFrame) :=
  ⟨⟨CompressLib.frames_fitsCapacity, CompressLib.frames_roundTrip⟩, by decide, by decide,
    by decide +kernel⟩

-- nothing at all is left of it
example : sample.decompressOneChunk (sample.compressOneChunk emptyFrame).2 = [] := by
  decide +kernel

end CompressUtil

end EDRStore
