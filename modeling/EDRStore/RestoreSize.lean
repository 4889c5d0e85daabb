/-
# `EDRStore.RestoreSize` — does a restore message fit the client's buffer?

The server allocates room for two entries for each logical chunk of a message,
the client for one.  A message fits the client's buffer exactly when the entries
of its records do, and a batch of deltas whose bases have left the cache may
take nearly twice the room.
-/
import EDRStore.Decoder
import EDRStore.Lib.Batch

namespace EDRStore

/-! ## Sizes -/

namespace SendMsgBuffer

/-- `total` bytes were appended to a buffer of `cap` bytes; the size counts them in
32 bits. -/
structure Sizes (b : SendMsgBuffer) (cap total : Nat) : Prop where
  size : b.size = u32 total
  cap : b.dataBuf.length = cap

variable {b : SendMsgBuffer} {cap total : Nat}

theorem Sizes.append (h : b.Sizes cap total) (src : Bytes) (hle : total + src.length ≤ cap) :
    (b.append src).Sizes cap (total + src.length) where
  size := by
    show u32 (b.size + src.length) = _
    rw [h.size, u32_add_u32]
  cap := by
    have hmod : u32 total ≤ total := Nat.mod_le _ _
    rw [length_append (by rw [h.size, h.cap]; omega), h.cap]

theorem Sizes.length_message (h : b.Sizes cap total) (hle : total ≤ cap) (clientId : Nat)
    (t : MsgType) : (b.message clientId t).length = u32 (total + networkHeadSize) := by
  have hmod : u32 total ≤ total := Nat.mod_le _ _
  have hlt : u32 (u32 total + networkHeadSize) ≤ u32 total + networkHeadSize := Nat.mod_le _ _
  unfold message
  rw [List.length_take, List.length_append, NetworkHead.length_encode, h.size, h.cap,
    Nat.min_eq_left (by omega), u32_add_u32]

end SendMsgBuffer

/-- The bytes a record takes in a restore message: a header and a body, and for a
delta against a base that is no longer cached another header and the base. -/
def RawChunk.restoreSize (cfg : Components) (raw : RawChunk) : Nat :=
  match raw.inputStat, raw.baseChunk with
  | .compDeltaChunk, some (_, base) =>
      sendChunkHeaderSize + ((cfg.deltaDecode base raw.inputData).getD []).length
  | .cacheDeltaChunk, some (.compBaseChunk, base) =>
      sendChunkHeaderSize + raw.inputData.length + (sendChunkHeaderSize + base.length)
  | .cacheDeltaChunk, some (.uncompBaseChunk, base) =>
      sendChunkHeaderSize + ((cfg.deltaDecode base raw.inputData).getD []).length
  | _, _ => sendChunkHeaderSize + raw.inputData.length

/-- The bytes of several records. -/
def restoreSizes (cfg : Components) (g : List Reader2Decoder) : Nat :=
  (g.map fun x => x.raw.restoreSize cfg).sum

/-- The entries of one logical chunk on its way to the client. -/
inductive RestoreItem : List RestoreChunk → Prop where
  | pair (delta base : Bytes) :
      RestoreItem [⟨.data .cacheRestoreDelta, delta⟩, ⟨.data .cacheRestoreBase, base⟩]
  | single {t : SendType} (data : Bytes)
      (ht : t = .data .compNormalChunk ∨ t = .data .uncompNormalChunk ∨
        t = .stat .multiLevelDeltaChunk) : RestoreItem [⟨t, data⟩]

/-- `x` is a value of `Reader2Decoder_t` the decoder can process: its arrays have
their sizes, and so has what it decodes to. -/
structure Reader2Decoder.Decodes (cfg : Components) (x : Reader2Decoder)
    (entries : List RestoreChunk) : Prop where
  decoded : DataDecoderThd.decodeChunk cfg x.raw = .ok entries
  data : ∀ e ∈ entries, e.data.length ≤ encMaxChunkSize
  stale : x.stale.compressedFp.length = chunkHashSize
  baseStale : x.baseStale.compressedFp.length = chunkHashSize

section Entries

variable {cfg : Components} {x : Reader2Decoder} {entries : List RestoreChunk}

theorem decodeChunk_item {raw : RawChunk} (h : DataDecoderThd.decodeChunk cfg raw = .ok entries) :
    RestoreItem entries ∧
      (entries.map fun e => sendChunkHeaderSize + e.data.length).sum = raw.restoreSize cfg := by
  obtain ⟨stat, input, base⟩ := raw
  unfold DataDecoderThd.decodeChunk at h
  simp only at h
  split at h
  · split at h
    · obtain ⟨data, hd, h⟩ := bind_ok h
      cases h
      refine ⟨.single data (Or.inl rfl), ?_⟩
      simp only [RawChunk.restoreSize, orExit_ok hd, Option.getD_some]
      rfl
    · exact nomatch h
  · split at h
    · cases h
      exact ⟨.pair _ _, rfl⟩
    · obtain ⟨data, hd, h⟩ := bind_ok h
      cases h
      refine ⟨.single data (Or.inr (Or.inl rfl)), ?_⟩
      simp only [RawChunk.restoreSize, orExit_ok hd, Option.getD_some]
      rfl
    · cases h
      exact ⟨.single input (Or.inr (Or.inr rfl)), rfl⟩
    · exact nomatch h
  · cases h
    exact ⟨.single input (Or.inl rfl), rfl⟩
  · exact nomatch h

theorem RestoreItem.size_le (h : RestoreItem entries)
    (hd : ∀ e ∈ entries, e.data.length ≤ encMaxChunkSize) :
    (entries.map fun e => sendChunkHeaderSize + e.data.length).sum ≤ 2 * sendChunkSize := by
  have hmax : sendChunkHeaderSize + encMaxChunkSize ≤ sendChunkSize := by decide
  cases h with
  | pair delta base =>
      have h1 := hd _ List.mem_cons_self
      have h2 := hd _ (List.mem_cons_of_mem _ List.mem_cons_self)
      simp only [List.map_cons, List.map_nil, List.sum_cons, List.sum_nil] at h1 h2 ⊢
      omega
  | single data _ =>
      have h1 := hd _ List.mem_cons_self
      simp only [List.map_cons, List.map_nil, List.sum_cons, List.sum_nil] at h1 ⊢
      omega

/-- A record never takes more than two full entries. -/
theorem Reader2Decoder.Decodes.restoreSize_le (h : x.Decodes cfg entries) :
    x.raw.restoreSize cfg ≤ 2 * sendChunkSize := by
  obtain ⟨hi, hs⟩ := decodeChunk_item h.decoded
  rw [← hs]
  exact hi.size_le h.data

theorem restoreSizes_append (g g' : List Reader2Decoder) :
    restoreSizes cfg (g ++ g') = restoreSizes cfg g + restoreSizes cfg g' := by
  rw [restoreSizes, List.map_append, List.sum_append]
  rfl

theorem restoreSizes_le {g : List Reader2Decoder} (h : ∀ x ∈ g, ∃ entries, x.Decodes cfg entries) :
    restoreSizes cfg g ≤ g.length * (2 * sendChunkSize) := by
  induction g with
  | nil => exact Nat.zero_le _
  | cons x g ih =>
      obtain ⟨entries, hx⟩ := h x List.mem_cons_self
      have hle := hx.restoreSize_le
      have hg := ih fun y hy => h y (List.mem_cons_of_mem _ hy)
      have hsum : restoreSizes cfg (x :: g) = x.raw.restoreSize cfg + restoreSizes cfg g := by
        rw [restoreSizes, List.map_cons, List.sum_cons]
        rfl
      rw [hsum, List.length_cons, Nat.add_mul, Nat.one_mul]
      omega

end Entries

/-! ## What the decoder has sent -/

namespace DataDecoderThd

variable {cfg : Components} {clientId batchSize cap : Nat}

open SendMsgBuffer

/-- The entries of one record. -/
theorem addEntries_sizes {es : List (RestoreChunk × SendChunkHeader)}
    (hst : ∀ e ∈ es, e.2.compressedFp.length = chunkHashSize) :
    ∀ {b : SendMsgBuffer} {total : Nat}, b.Sizes cap total →
      total + (es.map fun e => sendChunkHeaderSize + e.1.data.length).sum ≤ cap →
      (es.foldl addEntry b).Sizes cap
          (total + (es.map fun e => sendChunkHeaderSize + e.1.data.length).sum) ∧
        (es.foldl addEntry b).curItemNum = b.curItemNum := by
  induction es with
  | nil => intro b total h _; exact ⟨h, rfl⟩
  | cons e es ih =>
      intro b total h hle
      rw [List.map_cons, List.sum_cons] at hle ⊢
      have hhead : (e.1.header e.2).encode.length = sendChunkHeaderSize :=
        SendChunkHeader.length_encode (hst e List.mem_cons_self)
      have h1 := h.append (e.1.header e.2).encode (by rw [hhead]; omega)
      have h2 := h1.append e.1.data (by rw [hhead]; omega)
      rw [hhead, Nat.add_assoc] at h2
      obtain ⟨h3, h4⟩ := ih (fun e' he' => hst e' (List.mem_cons_of_mem _ he')) h2 (by omega)
      rw [Nat.add_assoc] at h3
      exact ⟨h3, h4⟩

/-- The decoder's state is that of the plain batching of records, as far as sizes
and counts go. -/
structure Tallied (cfg : Components) (cap : Nat) (s : DecoderState) (b : Batch Reader2Decoder) :
    Prop where
  sizes : s.sendChunkBuf.Sizes cap (restoreSizes cfg b.pending)
  curItemNum : s.sendChunkBuf.curItemNum = b.pending.length
  sent : s.sent.map List.length =
    b.out.map fun g => u32 (restoreSizes cfg g + networkHeadSize)

variable (clientId) in
/-- A message sent from the pending records. -/
theorem sendChunks_tallied {s : DecoderState} {out : List (List Reader2Decoder)}
    {pending : List Reader2Decoder} (hs : s.sendChunkBuf.Sizes cap (restoreSizes cfg pending))
    (hle : restoreSizes cfg pending ≤ cap)
    (hsent : s.sent.map List.length =
      out.map fun g => u32 (restoreSizes cfg g + networkHeadSize)) :
    Tallied cfg cap (sendChunks clientId s) ⟨out ++ [pending], []⟩ where
  sizes := ⟨rfl, hs.cap⟩
  curItemNum := rfl
  sent := by
    show (s.sent ++ [_]).map List.length = _
    rw [List.map_append, List.map_append, hsent, List.map_singleton, List.map_singleton,
      hs.length_message hle]

variable (clientId) in
theorem runChunk_tallied {s : DecoderState} {b : Batch Reader2Decoder}
    {x : Reader2Decoder} {entries : List RestoreChunk}
    (h : Tallied cfg (2 * batchSize * sendChunkSize) s b)
    (hsz : b.Sized (min batchSize (2 ^ 32)))
    (hb : ∀ y ∈ b.pending, ∃ entries, y.Decodes cfg entries) (hx : x.Decodes cfg entries) :
    ∃ s', runChunk cfg clientId batchSize s x = .ok s' ∧
      Tallied cfg (2 * batchSize * sendChunkSize) s' (b.push (min batchSize (2 ^ 32)) x) := by
  obtain ⟨hitem, hsum⟩ := decodeChunk_item hx.decoded
  have hall : ∀ y ∈ b.pending ++ [x], ∃ entries, y.Decodes cfg entries := by
    intro y hy
    rcases List.mem_append.mp hy with hy | hy
    · exact hb y hy
    · rw [List.mem_singleton.mp hy]
      exact ⟨entries, hx⟩
  have hcount : b.pending.length + 1 ≤ batchSize :=
    Nat.le_trans hsz.pending (Nat.min_le_left _ _)
  have hcap : restoreSizes cfg (b.pending ++ [x]) ≤ 2 * batchSize * sendChunkSize := by
    refine (restoreSizes_le hall).trans ?_
    rw [List.length_append, List.length_singleton, Nat.mul_comm 2 batchSize, Nat.mul_assoc]
    exact Nat.mul_le_mul_right _ hcount
  have hheaded : ((x.headed entries).map fun e => sendChunkHeaderSize + e.1.data.length).sum =
      x.raw.restoreSize cfg := by
    rw [← hsum]
    cases hitem <;> rfl
  have hstale : ∀ e ∈ x.headed entries, e.2.compressedFp.length = chunkHashSize := by
    intro e he
    have hmem := (List.of_mem_zip he).2
    rcases List.mem_cons.mp hmem with hst | hmem
    · rw [hst]
      exact hx.stale
    · rw [List.mem_singleton.mp hmem]
      exact hx.baseStale
  have hone : restoreSizes cfg [x] = x.raw.restoreSize cfg := Nat.add_zero _
  rw [restoreSizes_append, hone] at hcap
  obtain ⟨hs, hk⟩ := addEntries_sizes hstale h.sizes (by rw [hheaded]; exact hcap)
  rw [hheaded, ← hone, ← restoreSizes_append] at hs
  let buf := ((x.headed entries).foldl addEntry s.sendChunkBuf).countItem
  have hbuf : buf.Sizes (2 * batchSize * sendChunkSize) (restoreSizes cfg (b.pending ++ [x])) :=
    ⟨hs.size, hs.cap⟩
  have hnum : buf.curItemNum = u32 (b.pending.length + 1) := by
    show u32 (_ + 1) = _
    rw [hk, h.curItemNum]
  have hflush : buf.curItemNum % batchSize = 0 ↔
      (b.pending ++ [x]).length % min batchSize (2 ^ 32) = 0 := by
    rw [hnum, List.length_append, List.length_singleton]
    exact u32_mod_eq_zero_iff hsz.pending
  refine ⟨_, by unfold runChunk; rw [hx.decoded, ok_bind], ?_⟩
  show Tallied cfg _ (if buf.curItemNum % batchSize = 0 then _ else _) _
  unfold Batch.push
  by_cases hmod : buf.curItemNum % batchSize = 0
  · rw [if_pos hmod, if_pos (hflush.mp hmod)]
    rw [← hone, ← restoreSizes_append] at hcap
    exact sendChunks_tallied clientId hbuf hcap h.sent
  · rw [if_neg hmod, if_neg fun hp => hmod (hflush.mpr hp)]
    refine ⟨hbuf, ?_, h.sent⟩
    have hlt : b.pending.length + 1 < 2 ^ 32 := by
      have h32 := Nat.min_le_right batchSize (2 ^ 32)
      have hp := hsz.pending
      rcases Nat.lt_or_ge (b.pending.length + 1) (2 ^ 32) with hlt | hge
      · exact hlt
      · refine absurd ?_ hmod
        rw [hnum, show b.pending.length + 1 = 2 ^ 32 by omega]
        exact Nat.zero_mod batchSize
    show buf.curItemNum = _
    rw [hnum, u32_of_lt hlt, List.length_append, List.length_singleton]

variable (clientId) in
theorem runChunks_tallied {queue : List Reader2Decoder}
    (hq : ∀ x ∈ queue, ∃ entries, x.Decodes cfg entries) :
    ∀ {s : DecoderState} {b : Batch Reader2Decoder},
      Tallied cfg (2 * batchSize * sendChunkSize) s b → b.Sized (min batchSize (2 ^ 32)) →
      (∀ y ∈ b.pending, ∃ entries, y.Decodes cfg entries) →
      ∃ s', queue.foldlM (runChunk cfg clientId batchSize) s = .ok s' ∧
        Tallied cfg (2 * batchSize * sendChunkSize) s' (b.run (min batchSize (2 ^ 32)) queue) := by
  induction queue with
  | nil => intro s b h _ _; exact ⟨s, rfl, h⟩
  | cons x queue ih =>
      intro s b h hsz hb
      obtain ⟨entries, hx⟩ := hq x List.mem_cons_self
      obtain ⟨s₁, hrun, h₁⟩ := runChunk_tallied clientId h hsz hb hx
      have hb₁ : ∀ y ∈ (b.push (min batchSize (2 ^ 32)) x).pending,
          ∃ entries, y.Decodes cfg entries := by
        intro y hy
        rcases Batch.mem_push_pending hy with hy | rfl
        · exact hb y hy
        · exact ⟨entries, hx⟩
      obtain ⟨s', hrun', h'⟩ :=
        ih (fun y hy => hq y (List.mem_cons_of_mem _ hy)) h₁ (hsz.push x) hb₁
      exact ⟨s', by rw [List.foldlM_cons, hrun, ok_bind, hrun'], h'⟩

variable (clientId) in
/-- The sizes of the messages of a whole restore. -/
theorem run_lengths (hn : 0 < batchSize) {queue : List Reader2Decoder}
    (hq : ∀ x ∈ queue, ∃ entries, x.Decodes cfg entries) {dataBuf : Bytes}
    (hd : dataBuf.length = 2 * batchSize * sendChunkSize) :
    ∃ s', run cfg clientId batchSize (new dataBuf) queue = .ok s' ∧
      s'.sent.map List.length = (Batch.batches (min batchSize (2 ^ 32)) queue).map
        fun g => u32 (restoreSizes cfg g + networkHeadSize) := by
  have hmin : 0 < min batchSize (2 ^ 32) := Nat.lt_min.mpr ⟨hn, by decide⟩
  have hnew : Tallied cfg (2 * batchSize * sendChunkSize) (new dataBuf) Batch.empty :=
    ⟨⟨rfl, hd⟩, rfl, rfl⟩
  obtain ⟨s', hrun, h⟩ := runChunks_tallied clientId hq hnew
    (Batch.sized_empty hmin) (fun y hy => absurd hy List.not_mem_nil)
  have hsz := (Batch.sized_empty hmin).run queue
  refine ⟨_, by rw [run, hrun, ok_bind], ?_⟩
  rw [h.curItemNum, Batch.batches, Batch.close]
  by_cases hp : (Batch.run (min batchSize (2 ^ 32)) Batch.empty queue).pending = []
  · rw [if_pos hp, hp, if_neg (by simp)]
    exact h.sent
  · rw [if_neg hp, if_pos (fun h0 => hp (List.length_eq_zero_iff.mp h0))]
    refine (sendChunks_tallied clientId h.sizes ?_ h.sent).sent
    refine (restoreSizes_le fun y hy => hq y ?_).trans ?_
    · have hflat := Batch.run_contents (n := min batchSize (2 ^ 32)) queue Batch.empty
      have hmem := List.mem_append_right
        (Batch.run (min batchSize (2 ^ 32)) Batch.empty queue).out.flatten hy
      rw [hflat] at hmem
      exact hmem
    · have hle := Nat.le_trans (Nat.le_of_lt hsz.pending) (Nat.min_le_left batchSize (2 ^ 32))
      rw [Nat.mul_comm 2 batchSize, Nat.mul_assoc]
      exact Nat.mul_le_mul_right _ hle

end DataDecoderThd

/-! ## The client's buffer -/

/-- The bytes the constructor of `DataRetrieverThd` allocates for a message: one
entry for each logical chunk. -/
def DataRetrieverThd.recvBufSize (batchSize : Nat) : Nat :=
  (batchSize * sendChunkSize + networkHeadSize) % 2 ^ 64

/-- No message of the restore is larger than the buffer `ReceiveData` copies it to. -/
def DataDecoderThd.MessagesFit (batchSize : Nat) (s : DecoderState) : Prop :=
  ∀ message ∈ s.sent, message.length ≤ DataRetrieverThd.recvBufSize batchSize

open DataRetrieverThd in
theorem DataDecoderThd.messagesFit_iff {batchSize : Nat} {s : DecoderState} :
    MessagesFit batchSize s ↔ ∀ l ∈ s.sent.map List.length, l ≤ recvBufSize batchSize := by
  rw [List.forall_mem_map]
  rfl

open DataDecoderThd DataRetrieverThd in
/-- The messages of a restore fit the client's buffer exactly when the entries of
each group of `send_chunk_batch_size_` consecutive records do. -/
theorem DataDecoderThd.messages_fit_iff (cfg : Components) (clientId batchSize : Nat)
    (hn : 0 < batchSize) (queue : List Reader2Decoder)
    (hq : ∀ x ∈ queue, ∃ entries, x.Decodes cfg entries) (dataBuf : Bytes)
    (hd : dataBuf.length = 2 * batchSize * sendChunkSize) :
    ∃ s', run cfg clientId batchSize (new dataBuf) queue = .ok s' ∧
      (MessagesFit batchSize s' ↔ ∀ g ∈ Batch.batches (min batchSize (2 ^ 32)) queue,
        u32 (restoreSizes cfg g + networkHeadSize) ≤ recvBufSize batchSize) := by
  obtain ⟨s', hrun, hlen⟩ := run_lengths clientId hn hq hd
  exact ⟨s', hrun, by rw [messagesFit_iff, hlen, List.forall_mem_map]⟩

/-- A header nobody has set. -/
def blankHeader : SendChunkHeader :=
  ⟨0, 0, ⟨0, 0, 0⟩, List.replicate chunkHashSize 0⟩

/-- A cached delta whose base has left the cache. -/
def evictedDelta (delta base : Bytes) : Reader2Decoder :=
  ⟨⟨.cacheDeltaChunk, delta, some (.compBaseChunk, base)⟩, blankHeader, blankHeader⟩

theorem evictedDelta_decodes (cfg : Components) {delta base : Bytes}
    (hd : delta.length ≤ encMaxChunkSize) (hb : base.length ≤ encMaxChunkSize) :
    (evictedDelta delta base).Decodes cfg
      [⟨.data .cacheRestoreDelta, delta⟩, ⟨.data .cacheRestoreBase, base⟩] where
  decoded := rfl
  data := by
    intro e he
    rcases List.mem_cons.mp he with rfl | he
    · exact hd
    · rw [List.mem_singleton.mp he]
      exact hb
  stale := List.length_replicate
  baseStale := List.length_replicate

theorem DataDecoderThd.messages_fit_sample :
    ∃ s', run Components.plain 1 1 (new (List.replicate (2 * 1 * sendChunkSize) 0))
        [evictedDelta [1, 2] [3]] = .ok s' ∧
      (MessagesFit 1 s' ↔ ∀ g ∈ Batch.batches (min 1 (2 ^ 32)) [evictedDelta [1, 2] [3]],
        u32 (restoreSizes Components.plain g + networkHeadSize) ≤
          DataRetrieverThd.recvBufSize 1) :=
  messages_fit_iff Components.plain 1 1 (by decide) _
    (List.forall_mem_singleton.mpr ⟨_, evictedDelta_decodes _ (by decide) (by decide)⟩) _
    List.length_replicate

namespace DataDecoderThd

/-- One message with one logical chunk, larger than the buffer. -/
theorem evictedDelta_overflows {cfg : Components} {clientId : Nat} {delta base dataBuf : Bytes}
    (hdelta : delta.length ≤ encMaxChunkSize) (hbase : base.length ≤ encMaxChunkSize)
    (hsum : sendChunkSize < 2 * sendChunkHeaderSize + delta.length + base.length)
    (hd : dataBuf.length = 2 * 1 * sendChunkSize) :
    ¬ ∃ s', run cfg clientId 1 (new dataBuf) [evictedDelta delta base] = .ok s' ∧
      MessagesFit 1 s' := by
  rintro ⟨s', hrun, hfit⟩
  obtain ⟨s₁, hrun₁, hlen⟩ := run_lengths clientId (by decide)
    (List.forall_mem_singleton.mpr ⟨_, evictedDelta_decodes cfg hdelta hbase⟩) hd
  rw [hrun] at hrun₁
  cases hrun₁
  rw [messagesFit_iff, hlen, List.forall_mem_map, show min 1 (2 ^ 32) = 1 by decide] at hfit
  have hmem : [evictedDelta delta base] ∈ Batch.batches 1 [evictedDelta delta base] := by
    simp [Batch.batches, Batch.close, Batch.push, Batch.empty]
  have hle := hfit _ hmem
  have hsize : restoreSizes cfg [evictedDelta delta base] =
      sendChunkHeaderSize + delta.length + (sendChunkHeaderSize + base.length) := Nat.add_zero _
  have hmax : sendChunkHeaderSize + encMaxChunkSize ≤ sendChunkSize := by decide
  have hroom : DataRetrieverThd.recvBufSize 1 = sendChunkSize + networkHeadSize := by decide
  have hsmall : sendChunkSize < 2 ^ 20 := by decide
  have hhead : networkHeadSize < 2 ^ 20 := by decide
  rw [hsize, hroom, u32_of_lt (by omega)] at hle
  omega

theorem message_overflows :
    ¬ ∃ s', run Components.plain 1 1 (new (List.replicate (2 * 1 * sendChunkSize) 0))
        [evictedDelta (List.replicate 500 1) (List.replicate 16000 2)] = .ok s' ∧
      MessagesFit 1 s' :=
  evictedDelta_overflows (by rw [List.length_replicate]; decide)
    (by rw [List.length_replicate]; decide)
    (by rw [List.length_replicate, List.length_replicate]; decide) List.length_replicate

end DataDecoderThd

end EDRStore
