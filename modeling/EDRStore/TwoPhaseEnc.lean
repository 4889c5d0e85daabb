/-
# `EDRStore.TwoPhaseEnc` — a padded chunk, encrypted twice, in a buffer of fixed size

A chunk buffer has `ENC_MAX_CHUNK_SIZE` bytes: a chunk, a cipher block and four
bytes.  Padding gives back at most what compression saved and puts the size
behind it, so a padded chunk exceeds the chunk by the four bytes alone; the
counter mode keeps the length; the codebook mode fills the last block, by a
whole one where the length is a multiple of it already.  The three together just
fit (`padding_fits`): four bytes are left of the buffer.
-/
import EDRStore.CompPad

namespace EDRStore

/-! ## Encryption -/

/-- The two members of `ENCRYPT_SET` that `TwoPhaseEnc` is built with. -/
inductive CipherType where
  | aes256Ctr
  | aes256Ecb
deriving DecidableEq, Repr

/-- The cipher library: what `EVP_EncryptUpdate` and `EVP_EncryptFinal_ex` write for
the data, under a key and an iv. -/
structure Evp where
  encryptUpdate : CipherType → Key → Bytes → Bytes → Bytes
  encryptFinal : CipherType → Key → Bytes → Bytes → Bytes

namespace Evp

variable (evp : Evp)

/-- The counter mode is a stream cipher: it has nothing left to write at the end. -/
def CtrSizes : Prop :=
  ∀ key iv data, (evp.encryptUpdate .aes256Ctr key iv data).length = data.length ∧
    (evp.encryptFinal .aes256Ctr key iv data).length = 0

/-- The codebook mode writes whole blocks, and the padded rest as one more. -/
def EcbSizes : Prop :=
  ∀ key iv data,
    (evp.encryptUpdate .aes256Ecb key iv data).length =
      data.length / cryptoBlockSize * cryptoBlockSize ∧
    (evp.encryptFinal .aes256Ecb key iv data).length = cryptoBlockSize

/-- `CryptoUtil::EncryptWithKeyIV`; the codebook mode is initialised without the iv. -/
def encryptWithKeyIV (type : CipherType) (data : Bytes) (key : Key) (iv : Bytes) : Bytes :=
  let iv := match type with
    | .aes256Ctr => iv
    | .aes256Ecb => []
  evp.encryptUpdate type key iv data ++ evp.encryptFinal type key iv data

/-- `iv_`. -/
def zeroIv : Bytes := List.replicate cryptoBlockSize 0

/-- The first phase, into `tmp_cipher`. -/
def tmpCipher (plainChunk : Bytes) (key : Key) : Bytes :=
  evp.encryptWithKeyIV .aes256Ctr plainChunk key zeroIv

/-- `TwoPhaseEnc::TwoPhaseEncChunk`. -/
def twoPhaseEncChunk (plainChunk : Bytes) (key : Key) : Bytes :=
  evp.encryptWithKeyIV .aes256Ecb (evp.tmpCipher plainChunk key) key zeroIv

variable {evp}

theorem length_tmpCipher (hctr : evp.CtrSizes) (data : Bytes) (key : Key) :
    (evp.tmpCipher data key).length = data.length := by
  obtain ⟨hup, hfin⟩ := hctr key zeroIv data
  show (evp.encryptUpdate .aes256Ctr key zeroIv data ++
    evp.encryptFinal .aes256Ctr key zeroIv data).length = _
  rw [List.length_append, hup, hfin, Nat.add_zero]

/-- The next multiple of the block size, above the length itself. -/
theorem length_twoPhaseEncChunk (hctr : evp.CtrSizes) (hecb : evp.EcbSizes) (data : Bytes)
    (key : Key) :
    (evp.twoPhaseEncChunk data key).length =
      (data.length / cryptoBlockSize + 1) * cryptoBlockSize := by
  obtain ⟨hup, hfin⟩ := hecb key [] (evp.tmpCipher data key)
  show (evp.encryptUpdate .aes256Ecb key [] (evp.tmpCipher data key) ++
    evp.encryptFinal .aes256Ecb key [] (evp.tmpCipher data key)).length = _
  rw [List.length_append, hup, hfin, length_tmpCipher hctr, Nat.succ_mul]

/-- Both ciphertexts fit where the plaintext leaves room for the four bytes. -/
theorem encrypts_within (hctr : evp.CtrSizes) (hecb : evp.EcbSizes) {data : Bytes}
    (h : data.length ≤ maxChunkSize + 4) (key : Key) :
    (evp.tmpCipher data key).length ≤ encMaxChunkSize ∧
      (evp.twoPhaseEncChunk data key).length ≤ encMaxChunkSize := by
  have hblk : cryptoBlockSize = 16 := rfl
  have hmax : maxChunkSize = 16384 := rfl
  rw [length_tmpCipher hctr, length_twoPhaseEncChunk hctr hecb, encMaxChunkSize, hblk]
  omega

end Evp

/-! ## Padding, with its operations checked -/

namespace CompPad

/-- `a - b` on unsigned integers, where it does not wrap. -/
def subChecked (a b : Nat) : Option Nat := if b ≤ a then some (a - b) else none

/-- `a % b`, where it is defined. -/
def modChecked (a b : Nat) : Option Nat := if b = 0 then none else some (a % b)

/-- `padding_blk_num`, with its subtraction and its modulus checked. -/
def paddingBlkNumChecked (seed originalSize compressedSize : Nat) : Option Nat := do
  let diff ← subChecked originalSize compressedSize
  let limit := min diff maxPaddingSize
  if limit < 4 then return 0
  let rem ← modChecked seed limit
  return if rem / 4 = 0 then 1 else rem / 4

theorem u32_sub {m n : Nat} (h : n ≤ m) (hm : m < 2 ^ 32) : u32 (m + 2 ^ 32 - n) = m - n := by
  rw [Nat.sub_add_comm h, u32, Nat.add_mod_right]
  exact Nat.mod_eq_of_lt (by omega)

/-- The subtraction does not wrap for a chunk that did not grow, and the modulus is
taken by four at least. -/
theorem paddingBlkNumChecked_eq {originalSize compressedSize : Nat}
    (h : compressedSize ≤ originalSize) (hlt : originalSize < 2 ^ 32) (seed : Nat) :
    paddingBlkNumChecked seed originalSize compressedSize =
      some (paddingBlkNum seed originalSize compressedSize) := by
  unfold paddingBlkNumChecked paddingBlkNum
  rw [subChecked, if_pos h, u32_sub h hlt]
  simp only [Option.bind_eq_bind, Option.bind_some]
  split
  · rfl
  · rename_i hlim
    have hne : min (originalSize - compressedSize) maxPaddingSize ≠ 0 := fun h0 =>
      hlim (h0 ▸ by decide)
    rw [modChecked, if_neg hne]
    rfl

variable {pad : CompPad} {compressed buf : Bytes}

theorem memcpy_append (pre rest src : Bytes) :
    memcpy (pre ++ rest) pre.length src = pre ++ src ++ rest.drop src.length := by
  rw [memcpy, List.take_left, List.drop_length_add_append]

/-- The loop writes its blocks, one behind the other, and leaves the rest alone. -/
theorem writePadding_eq (seed : Nat) (compressed rest : Bytes) (n : Nat) :
    pad.writePadding seed compressed.length (compressed ++ rest) n =
      compressed ++ pad.padding seed n ++ rest.drop (4 * n) := by
  induction n with
  | zero => rw [writePadding, padding, List.append_nil, Nat.mul_zero, List.drop_zero]
  | succ n ih =>
      have hlen : compressed.length + 4 * n = (compressed ++ pad.padding seed n).length := by
        rw [List.length_append, length_padding]
      rw [writePadding, ih, hlen, memcpy_append, List.drop_drop, length_toLe, padding,
        ← List.append_assoc]
      rfl

/-- All that is written are the padding and the size, behind the compressed chunk. -/
theorem paddingWithSeed_eq (seed originalSize : Nat) (compressed rest : Bytes) :
    let n := paddingBlkNum seed originalSize compressed.length
    let written := compressed ++ pad.padding seed n ++ toLe 4 compressed.length
    pad.paddingWithSeed seed originalSize compressed.length (compressed ++ rest) =
      (written ++ (compressed ++ rest).drop written.length, written.length) := by
  intro n written
  have hlen : compressed.length + 4 * n = (compressed ++ pad.padding seed n).length := by
    rw [List.length_append, length_padding]
  have hwritten : written.length = compressed.length + (4 * n + 4) := by
    rw [List.length_append, ← hlen, length_toLe, Nat.add_assoc]
  have hbuf : memcpy (pad.writePadding seed compressed.length (compressed ++ rest) n)
      (compressed.length + 4 * n) (toLe 4 compressed.length) =
        written ++ (compressed ++ rest).drop written.length := by
    rw [writePadding_eq, hlen, memcpy_append, List.drop_drop, length_toLe, hwritten,
      List.drop_length_add_append]
  have hsize : compressed.length + n * 4 + 4 = written.length := by omega
  exact Prod.ext hbuf hsize

/-! ## The sizes -/

/-- What holds of a chunk of `n` bytes that was compressed to the front of `buf`. -/
structure FitsBuffers (pad : CompPad) (evp : Evp) (n : Nat) (compressed buf : Bytes)
    (seed : Nat) : Prop where
  /-- No operation wraps or divides by zero. -/
  evaluates : paddingBlkNumChecked seed n compressed.length =
    some (paddingBlkNum seed n compressed.length)
  size_le : (pad.paddingWithSeed seed n compressed.length buf).2 ≤ n + 4
  /-- The size is returned as a `uint32_t`. -/
  size_u32 : u32 (pad.paddingWithSeed seed n compressed.length buf).2 =
    (pad.paddingWithSeed seed n compressed.length buf).2
  /-- As many bytes are written as the size says, the compressed chunk first, and
  none behind them is touched. -/
  writes : ∃ written : Bytes,
    written.length = (pad.paddingWithSeed seed n compressed.length buf).2 ∧
      compressed <+: written ∧
      (pad.paddingWithSeed seed n compressed.length buf).1 =
        written ++ buf.drop (pad.paddingWithSeed seed n compressed.length buf).2
  /-- The last four of them are the compressed size. -/
  trailer : ofLe (slice (pad.paddingWithSeed seed n compressed.length buf).1
    ((pad.paddingWithSeed seed n compressed.length buf).2 - 4) 4) = compressed.length
  /-- Both phases stay within their buffers on the padded chunk. -/
  encrypts : ∀ key,
    let padded := (pad.paddingWithSeed seed n compressed.length buf).1.take
      (pad.paddingWithSeed seed n compressed.length buf).2
    (evp.tmpCipher padded key).length ≤ encMaxChunkSize ∧
      (evp.twoPhaseEncChunk padded key).length ≤ encMaxChunkSize
  /-- So do they on the chunk itself. -/
  encrypts_plain : ∀ (chunk : Bytes) (key : Key), chunk.length = n →
    (evp.tmpCipher chunk key).length ≤ encMaxChunkSize ∧
      (evp.twoPhaseEncChunk chunk key).length ≤ encMaxChunkSize

/-- Padding and encryption fit the chunk buffers, for every chunk size, every
compressed size and every seed. -/
theorem padding_fits {evp : Evp} (hctr : evp.CtrSizes) (hecb : evp.EcbSizes) (pad : CompPad)
    {n : Nat} (hn : n ≤ maxChunkSize) (hc : compressed.length ≤ n) (hbuf : compressed <+: buf)
    (seed : Nat) : FitsBuffers pad evp n compressed buf seed := by
  obtain ⟨rest, rfl⟩ := hbuf
  have hmax : maxChunkSize = 16384 := rfl
  have heq := @paddingWithSeed_eq pad seed n compressed rest
  have hblk := paddingBlkNum_le seed hc
  simp only at heq
  generalize hw : compressed ++ pad.padding seed (paddingBlkNum seed n compressed.length) ++
    toLe 4 compressed.length = written at heq
  have hlen : written.length =
      compressed.length + 4 * paddingBlkNum seed n compressed.length + 4 := by
    rw [← hw, List.length_append, List.length_append, length_padding, length_toLe]
  refine
    { evaluates := paddingBlkNumChecked_eq hc (by omega) seed
      size_le := ?_, size_u32 := ?_, writes := ?_, trailer := ?_, encrypts := ?_
      encrypts_plain := ?_ }
  · rw [heq]
    omega
  · rw [heq]
    exact u32_of_lt (by omega)
  · rw [heq]
    refine ⟨written, rfl, ?_, rfl⟩
    rw [← hw, List.append_assoc]
    exact List.prefix_append _ _
  · rw [heq]
    have hpos : written.length - 4 =
        (compressed ++ pad.padding seed (paddingBlkNum seed n compressed.length)).length := by
      rw [List.length_append, length_padding]
      omega
    have hslice := slice_append_mid
      (compressed ++ pad.padding seed (paddingBlkNum seed n compressed.length))
      (toLe 4 compressed.length) ((compressed ++ rest).drop written.length)
    rw [hw, ← hpos, length_toLe] at hslice
    rw [hslice]
    exact ofLe_toLe_of_lt (show compressed.length < 256 ^ 4 by omega)
  · intro key
    simp only [heq]
    rw [List.take_left]
    exact Evp.encrypts_within hctr hecb (by omega) key
  · intro chunk key hchunk
    exact Evp.encrypts_within hctr hecb (by omega) key

end CompPad

/-- Ciphers that keep the data, in the sizes of the real ones. -/
def Evp.sample : Evp where
  encryptUpdate := fun type _ _ data =>
    match type with
    | .aes256Ctr => data
    | .aes256Ecb => data.take (data.length / cryptoBlockSize * cryptoBlockSize)
  encryptFinal := fun type _ _ data =>
    match type with
    | .aes256Ctr => []
    | .aes256Ecb =>
        let tail := data.drop (data.length / cryptoBlockSize * cryptoBlockSize)
        tail ++ List.replicate (cryptoBlockSize - tail.length)
          (UInt8.ofNat (cryptoBlockSize - tail.length))

theorem Evp.sample_ctrSizes : Evp.sample.CtrSizes := fun _ _ _ => ⟨rfl, rfl⟩

theorem Evp.sample_ecbSizes : Evp.sample.EcbSizes := by
  intro key iv data
  have hle := Nat.div_mul_le_self data.length cryptoBlockSize
  have hlt := Nat.lt_div_mul_add (show 0 < cryptoBlockSize by decide) (a := data.length)
  refine ⟨?_, ?_⟩
  · show (data.take (data.length / cryptoBlockSize * cryptoBlockSize)).length = _
    rw [List.length_take]
    omega
  · show (data.drop (data.length / cryptoBlockSize * cryptoBlockSize) ++
      List.replicate _ _).length = _
    rw [List.length_append, List.length_replicate, List.length_drop]
    omega

theorem CompPad.padding_fits_sample :
    CompPad.FitsBuffers ⟨id, fun seed i => seed + i⟩ .sample 100 [1, 2, 3] [1, 2, 3, 9, 9]
      (2 ^ 64 - 1) :=
  CompPad.padding_fits Evp.sample_ctrSizes Evp.sample_ecbSizes _ (by decide) (by decide)
    (by decide) _

/-! ## As a component -/

namespace Components

/-- The components with two-phase encryption over a cipher library. -/
def withTwoPhaseEnc (cfg : Components) (evp : Evp) : Components :=
  { cfg with twoPhaseEncChunk := evp.twoPhaseEncChunk }

theorem withTwoPhaseEnc_encSize {evp : Evp} (hctr : evp.CtrSizes) (hecb : evp.EcbSizes)
    (cfg : Components) : (cfg.withTwoPhaseEnc evp).EncSize := by
  intro data key
  show (evp.twoPhaseEncChunk data key).length ≤ _
  rw [Evp.length_twoPhaseEncChunk hctr hecb, Nat.succ_mul]
  exact Nat.add_le_add_right (Nat.div_mul_le_self _ _) _

theorem withTwoPhaseEnc_encNonempty {evp : Evp} (hctr : evp.CtrSizes) (hecb : evp.EcbSizes)
    (cfg : Components) : (cfg.withTwoPhaseEnc evp).EncNonempty := by
  intro data key
  refine List.ne_nil_of_length_pos ?_
  show 0 < (evp.twoPhaseEncChunk data key).length
  rw [Evp.length_twoPhaseEncChunk hctr hecb]
  exact Nat.mul_pos (Nat.succ_pos _) (by decide)

end Components

end EDRStore
