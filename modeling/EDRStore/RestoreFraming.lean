/-
# `EDRStore.RestoreFraming` — what the decoder frames, the retriever takes apart

The counterpart of the upload: the decoder's state is that of the plain batching
of records, and the retriever finds the entries of each record again and takes
one key for each.
-/
import EDRStore.Recipe
import EDRStore.RestoreSize

namespace EDRStore

/-! ## Records as they stand in a message -/

/-- The entries of a record that can be decoded. -/
def Reader2Decoder.entries (cfg : Components) (x : Reader2Decoder) : List RestoreChunk :=
  match DataDecoderThd.decodeChunk cfg x.raw with
  | .ok entries => entries
  | .error _ => []

/-- The bytes of a record's entries. -/
def Reader2Decoder.bytes (cfg : Components) (x : Reader2Decoder) : Bytes :=
  (x.headed (x.entries cfg)).flatMap fun e => e.1.bytes e.2

def restoreBytes (cfg : Components) (g : List Reader2Decoder) : Bytes :=
  g.flatMap (Reader2Decoder.bytes cfg)

/-- The message that carries `g`. -/
def restoreMessage (cfg : Components) (clientId : Nat) (g : List Reader2Decoder) : Bytes :=
  NetworkHead.encode
    ⟨clientId, MsgType.serverRestoreChunk.code, g.length, (restoreBytes cfg g).length⟩ ++
      restoreBytes cfg g

/-- The bytes of the message that carries `g` can be counted in 32 bits. -/
def RestoreFits (cfg : Components) (g : List Reader2Decoder) : Prop :=
  restoreSizes cfg g + networkHeadSize < 2 ^ 32

variable {cfg : Components} {x : Reader2Decoder} {entries : List RestoreChunk}

theorem Reader2Decoder.Decodes.entries_eq (h : x.Decodes cfg entries) :
    x.entries cfg = entries := by
  rw [Reader2Decoder.entries, h.decoded]

/-- A record the decoder can process, whatever its entries. -/
def Reader2Decoder.Ready (cfg : Components) (x : Reader2Decoder) : Prop :=
  x.Decodes cfg (x.entries cfg)

theorem Reader2Decoder.Decodes.ready (h : x.Decodes cfg entries) : x.Ready cfg := by
  rw [Reader2Decoder.Ready, h.entries_eq]
  exact h

theorem Reader2Decoder.Ready.item (h : x.Ready cfg) : RestoreItem (x.entries cfg) :=
  (decodeChunk_item h.decoded).1

theorem length_bytes_entry {e : RestoreChunk × SendChunkHeader}
    (h : e.2.compressedFp.length = chunkHashSize) :
    (e.1.bytes e.2).length = sendChunkHeaderSize + e.1.data.length := by
  rw [RestoreChunk.bytes, List.length_append]
  exact congrArg (· + e.1.data.length) (SendChunkHeader.length_encode h)

theorem mem_headed (h : x.Ready cfg) {e : RestoreChunk × SendChunkHeader}
    (he : e ∈ x.headed (x.entries cfg)) :
    e.2.compressedFp.length = chunkHashSize ∧ e.1.data.length ≤ encMaxChunkSize := by
  obtain ⟨hc, hst⟩ := List.of_mem_zip he
  refine ⟨?_, h.data _ hc⟩
  rcases List.mem_cons.mp hst with hst | hst
  · rw [hst]
    exact h.stale
  · rw [List.mem_singleton.mp hst]
    exact h.baseStale

/-- Each entry has its header. -/
theorem RestoreItem.map_headed {es : List RestoreChunk} (h : RestoreItem es) (x : Reader2Decoder) :
    (x.headed es).map Prod.fst = es := by
  cases h <;> rfl

theorem RestoreItem.sum_pos {es : List RestoreChunk} (h : RestoreItem es) :
    0 < (es.map fun e => sendChunkHeaderSize + e.data.length).sum := by
  have hhead : 0 < sendChunkHeaderSize := by decide
  cases h with
  | pair delta base => simp only [List.map_cons, List.sum_cons]; omega
  | single data _ => simp only [List.map_cons, List.sum_cons]; omega

theorem Reader2Decoder.Ready.length_bytes (h : x.Ready cfg) :
    (x.bytes cfg).length = x.raw.restoreSize cfg := by
  have hmap : (x.headed (x.entries cfg)).map (fun e => (e.1.bytes e.2).length) =
      (x.entries cfg).map fun c => sendChunkHeaderSize + c.data.length := by
    rw [List.map_congr_left fun e he => length_bytes_entry (mem_headed h he).1]
    conv_rhs => rw [← h.item.map_headed x, List.map_map]
    rfl
  rw [Reader2Decoder.bytes, List.length_flatMap, hmap, (decodeChunk_item h.decoded).2]

theorem length_restoreBytes {g : List Reader2Decoder} (h : ∀ x ∈ g, x.Ready cfg) :
    (restoreBytes cfg g).length = restoreSizes cfg g := by
  rw [restoreBytes, List.length_flatMap, restoreSizes,
    List.map_congr_left fun x hx => (h x hx).length_bytes]

/-- Every record takes some bytes. -/
theorem length_le_restoreSizes {g : List Reader2Decoder} (h : ∀ x ∈ g, x.Ready cfg) :
    g.length ≤ restoreSizes cfg g := by
  induction g with
  | nil => exact Nat.le_refl 0
  | cons x g ih =>
      have hx := (h x List.mem_cons_self).item.sum_pos
      rw [(decodeChunk_item (h x List.mem_cons_self).decoded).2] at hx
      have hg := ih fun y hy => h y (List.mem_cons_of_mem _ hy)
      rw [List.length_cons, restoreSizes, List.map_cons, List.sum_cons]
      exact Nat.add_comm 1 _ ▸ Nat.add_le_add hx hg

theorem restoreBytes_append (g g' : List Reader2Decoder) :
    restoreBytes cfg (g ++ g') = restoreBytes cfg g ++ restoreBytes cfg g' :=
  List.flatMap_append

theorem RestoreFits.mono {g g' : List Reader2Decoder} (h : RestoreFits cfg g')
    (hpre : g <+: g') : RestoreFits cfg g := by
  obtain ⟨rest, rfl⟩ := hpre
  unfold RestoreFits at h ⊢
  rw [restoreSizes_append] at h
  omega

/-! ## What the decoder has gathered -/

/-- The decoder's state is that of the plain batching of records. -/
structure RestoreFramed (cfg : Components) (clientId : Nat) (s : DecoderState)
    (b : Batch Reader2Decoder) : Prop where
  holds : s.sendChunkBuf.Holds (restoreBytes cfg b.pending) b.pending.length
  sent : s.sent = b.out.map (restoreMessage cfg clientId)

namespace DataDecoderThd

variable {clientId batchSize : Nat} {s : DecoderState} {b : Batch Reader2Decoder}

open SendMsgBuffer

theorem addEntries_holds {es : List (RestoreChunk × SendChunkHeader)} :
    ∀ {buf : SendMsgBuffer} {bs : Bytes} {k : Nat}, buf.Holds bs k →
      bs.length + (es.flatMap fun e => e.1.bytes e.2).length < 2 ^ 32 →
      (es.foldl addEntry buf).Holds (bs ++ es.flatMap fun e => e.1.bytes e.2) k := by
  induction es with
  | nil => intro buf bs k h _; rwa [List.flatMap_nil, List.append_nil]
  | cons e es ih =>
      intro buf bs k h hlt
      rw [List.flatMap_cons, List.length_append, RestoreChunk.bytes, List.length_append] at hlt
      have h1 := h.append (e.1.header e.2).encode (by omega)
      have h2 := h1.append e.1.data (by rw [List.length_append]; omega)
      rw [List.foldl_cons, List.flatMap_cons, ← List.append_assoc, RestoreChunk.bytes,
        ← List.append_assoc]
      refine ih h2 ?_
      rw [List.length_append, List.length_append]
      omega

/-- A message sent from the pending records. -/
theorem sendChunks_framed {pending : List Reader2Decoder} {out : List (List Reader2Decoder)}
    (h : s.sendChunkBuf.Holds (restoreBytes cfg pending) pending.length)
    (hready : ∀ x ∈ pending, x.Ready cfg) (hfit : RestoreFits cfg pending)
    (hsent : s.sent = out.map (restoreMessage cfg clientId)) :
    RestoreFramed cfg clientId (sendChunks clientId s) ⟨out ++ [pending], []⟩ where
  holds := SendMsgBuffer.holds_clear _
  sent := by
    have hmsg := h.message (by rw [length_restoreBytes hready]; exact hfit) clientId
      .serverRestoreChunk
    show s.sent ++ [_] = _
    rw [hmsg, hsent, List.map_append, List.map_singleton, restoreMessage]

variable (batchSize) in
/-- One record: the decoder takes the step of `Batch`. -/
theorem runChunk_framed (h : RestoreFramed cfg clientId s b)
    (hready : ∀ y ∈ b.pending ++ [x], y.Ready cfg) (hfit : RestoreFits cfg (b.pending ++ [x])) :
    ∃ s', runChunk cfg clientId batchSize s x = .ok s' ∧
      RestoreFramed cfg clientId s' (b.push batchSize x) := by
  have hx := hready x (List.mem_append_right _ (List.mem_singleton.mpr rfl))
  have hlt : restoreSizes cfg (b.pending ++ [x]) < 2 ^ 32 := by
    unfold RestoreFits at hfit
    omega
  have hcount := length_le_restoreSizes hready
  have hall : restoreBytes cfg (b.pending ++ [x]) = restoreBytes cfg b.pending ++ x.bytes cfg := by
    rw [restoreBytes_append, restoreBytes, restoreBytes, List.flatMap_singleton]
  rw [← length_restoreBytes hready, hall, List.length_append] at hlt
  rw [List.length_append, List.length_singleton] at hcount
  have hadd : (((x.headed (x.entries cfg)).foldl addEntry s.sendChunkBuf).countItem).Holds
      (restoreBytes cfg (b.pending ++ [x])) (b.pending ++ [x]).length := by
    rw [hall, List.length_append, List.length_singleton]
    exact (addEntries_holds h.holds hlt).countItem (by unfold RestoreFits at hfit; omega)
  refine ⟨_, by unfold runChunk; rw [hx.decoded, ok_bind], ?_⟩
  simp only [hadd.curItemNum]
  unfold Batch.push
  split
  · exact sendChunks_framed hadd hready hfit h.sent
  · exact ⟨hadd, h.sent⟩

variable (clientId) in
/-- Any number of records. -/
theorem runChunks_framed {queue : List Reader2Decoder} (hq : ∀ x ∈ queue, x.Ready cfg) :
    ∀ {s : DecoderState} {b : Batch Reader2Decoder}, RestoreFramed cfg clientId s b →
      (∀ y ∈ b.pending, y.Ready cfg) →
      (∀ g ∈ (b.run batchSize queue).close, RestoreFits cfg g) →
      ∃ s', queue.foldlM (runChunk cfg clientId batchSize) s = .ok s' ∧
        RestoreFramed cfg clientId s' (b.run batchSize queue) := by
  induction queue with
  | nil => intro s b h _ _; exact ⟨s, rfl, h⟩
  | cons x queue ih =>
      intro s b h hb hfit
      have hx := hq x List.mem_cons_self
      have hall : ∀ y ∈ b.pending ++ [x], y.Ready cfg := by
        intro y hy
        rcases List.mem_append.mp hy with hy | hy
        · exact hb y hy
        · rwa [List.mem_singleton.mp hy]
      obtain ⟨g, hg, hpre⟩ := Batch.exists_batch (n := batchSize) b x queue
      obtain ⟨s₁, hrun, h₁⟩ :=
        runChunk_framed batchSize h hall ((hfit g hg).mono hpre)
      have hb₁ : ∀ y ∈ (b.push batchSize x).pending, y.Ready cfg := by
        intro y hy
        rcases Batch.mem_push_pending hy with hy | rfl
        · exact hb y hy
        · exact hx
      obtain ⟨s', hrun', h'⟩ := ih (fun y hy => hq y (List.mem_cons_of_mem _ hy)) h₁ hb₁ hfit
      exact ⟨s', by rw [List.foldlM_cons, hrun, ok_bind, hrun'], h'⟩

variable (clientId) in
/-- The messages of a restore are the pieces of the batching. -/
theorem run_framed {queue : List Reader2Decoder} (hq : ∀ x ∈ queue, x.Ready cfg)
    (hfit : ∀ g ∈ Batch.batches batchSize queue, RestoreFits cfg g) (dataBuf : Bytes) :
    ∃ s', run cfg clientId batchSize (new dataBuf) queue = .ok s' ∧
      s'.sent = (Batch.batches batchSize queue).map (restoreMessage cfg clientId) := by
  have hnew : RestoreFramed cfg clientId (new dataBuf) Batch.empty :=
    ⟨⟨List.nil_prefix, rfl, rfl⟩, rfl⟩
  obtain ⟨s', hrun, h⟩ := runChunks_framed clientId hq hnew
    (fun y hy => absurd hy List.not_mem_nil) hfit
  refine ⟨_, by rw [run, hrun, ok_bind], ?_⟩
  rw [h.holds.curItemNum, Batch.batches, Batch.close]
  by_cases hp : (Batch.run batchSize Batch.empty queue).pending = []
  · rw [if_pos hp, hp, if_neg (not_not.mpr List.length_nil)]
    exact h.sent
  · rw [if_neg hp, if_pos fun h0 => hp (List.length_eq_zero_iff.mp h0)]
    have hmem : (Batch.run batchSize Batch.empty queue).pending ∈ Batch.batches batchSize queue := by
      rw [Batch.batches, Batch.close, if_neg hp]
      exact List.mem_append_right _ (List.mem_singleton.mpr rfl)
    refine (sendChunks_framed h.holds (fun y hy => hq y ?_) (hfit _ hmem) h.sent).sent
    have hflat := List.mem_flatten_of_mem hmem hy
    rwa [Batch.flatten_batches] at hflat

end DataDecoderThd

/-! ## Taking a message apart -/

namespace DataRetrieverThd

variable {dataBuf pre : Bytes}

theorem entryAt_spec {c : RestoreChunk} {stale : SendChunkHeader}
    (hst : stale.compressedFp.length = chunkHashSize) (hd : c.data.length ≤ encMaxChunkSize)
    (h : pre ++ c.bytes stale <+: dataBuf) :
    entryAt dataBuf pre.length =
      (c.header stale, c.data, pre.length + (c.bytes stale).length) := by
  have hall : (c.bytes stale).length = sendChunkHeaderSize + c.data.length :=
    length_bytes_entry (e := (c, stale)) hst
  obtain ⟨hhead, hdata⟩ := SendChunkHeader.read_entry (h := c.header stale)
    (Nat.lt_of_le_of_lt hd (by decide)) hst rfl h
  have hend : pre.length + sendChunkHeaderSize + (c.header stale).size =
      pre.length + (c.bytes stale).length := by
    rw [hall, ← Nat.add_assoc]
    rfl
  simp only [entryAt, hhead, hdata, hend]

/-- The entries of one record are found again. -/
theorem parseItem_spec (hx : x.Ready cfg) (h : pre ++ x.bytes cfg <+: dataBuf) :
    parseItem dataBuf pre.length = .ok (x.entries cfg, pre.length + (x.bytes cfg).length) := by
  have hitem := hx.item
  have hmem := fun e he => mem_headed hx (e := e) he
  unfold Reader2Decoder.bytes at h ⊢
  generalize x.entries cfg = es at hitem hmem h ⊢
  cases hitem with
  | pair delta base =>
      have hd := hmem (⟨.data .cacheRestoreDelta, delta⟩, x.stale) (List.mem_cons_self)
      have hb := hmem (⟨.data .cacheRestoreBase, base⟩, x.baseStale)
        (List.mem_cons_of_mem _ List.mem_cons_self)
      rw [Reader2Decoder.headed, List.zip_cons_cons, List.zip_cons_cons, List.zip_nil_left,
        List.flatMap_cons, List.flatMap_cons, List.flatMap_nil, List.append_nil] at h ⊢
      rw [← List.append_assoc] at h
      have he := entryAt_spec hd.1 hd.2 ((List.prefix_append _ _).trans h)
      have he' := entryAt_spec hb.1 hb.2 h
      rw [List.length_append] at he'
      simp only [parseItem, he, he', RestoreChunk.header, SendType.code, DataType.code, restoreType,
        UInt8.reduceToNat, List.length_append, Nat.add_assoc]
  | @single t data ht =>
      have hd := hmem (⟨t, data⟩, x.stale) List.mem_cons_self
      rw [Reader2Decoder.headed, List.zip_cons_cons, List.zip_nil_left, List.flatMap_cons,
        List.flatMap_nil, List.append_nil] at h ⊢
      have he := entryAt_spec hd.1 hd.2 h
      rcases ht with rfl | rfl | rfl <;>
        simp only [parseItem, he, RestoreChunk.header, SendType.code, DataType.code,
          ChunkStatus.code, restoreType, UInt8.reduceToNat]

/-! ## The keys -/

/-- `left` are the keys not used yet, in order: some in the buffer, the others still
in the file. -/
structure KeysAt (keyRecipe : BatchBuf) (remain : Nat) (hdl : Bytes) (left : List Key) : Prop where
  size : ∀ key ∈ left, key.length = chunkHashSize
  split : ∃ used now later, left = now ++ later ∧ hdl = later.flatten ∧ remain = now.length ∧
    keyRecipe.cnt = used.length ∧ (used ++ now).length < 2 ^ 32 ∧
    (∀ key ∈ used, key.length = chunkHashSize) ∧ (used ++ now).flatten <+: keyRecipe.buf

section Keys

variable {keyRecipe : BatchBuf} {remain m : Nat} {hdl : Bytes} {left : List Key} {key : Key}

/-- `FetchKeyRecipe`, when no key is left in the buffer. -/
theorem KeysAt.fetch (h : KeysAt keyRecipe 0 hdl left) (hm : 0 < m)
    (hlt : min left.length m < 2 ^ 32) :
    KeysAt ⟨memcpy keyRecipe.buf 0 (hdl.take (m * chunkHashSize)), 0⟩
        (u32 ((hdl.take (m * chunkHashSize)).length / chunkHashSize))
        (hdl.drop (m * chunkHashSize)) left ∧
      (left ≠ [] → 0 < u32 ((hdl.take (m * chunkHashSize)).length / chunkHashSize)) ∧
      (hdl.take (m * chunkHashSize)).length ≤ m * chunkHashSize := by
  obtain ⟨used, now, later, hl, hh, hr, -, -, -, -⟩ := h.split
  rw [List.length_eq_zero_iff.mp hr.symm, List.nil_append] at hl
  subst hl hh
  obtain ⟨htake, hdrop⟩ := take_flatten h.size m
  have hsize : ∀ key ∈ left.take m, key.length = chunkHashSize :=
    fun key hk => h.size key (List.mem_of_mem_take hk)
  have hlen : (left.take m).length < 2 ^ 32 := by rwa [List.length_take, Nat.min_comm]
  have hnum : u32 ((left.take m).flatten.length / chunkHashSize) = (left.take m).length := by
    rw [length_flatten_blocks hsize, Nat.mul_div_cancel _ (by decide), u32_of_lt hlen]
  rw [htake, hdrop, hnum]
  refine ⟨⟨h.size, [], left.take m, left.drop m, ?_, rfl, rfl, rfl, hlen, ?_, ?_⟩, ?_, ?_⟩
  · exact (List.take_append_drop m left).symm
  · exact fun key hk => absurd hk List.not_mem_nil
  · exact prefix_memcpy_zero _ _
  · intro hne
    rw [List.length_take]
    exact Nat.lt_min.mpr ⟨hm, List.length_pos_iff.mpr hne⟩
  · rw [length_flatten_blocks hsize, List.length_take]
    exact Nat.mul_le_mul_right _ (Nat.min_le_left _ _)

/-- The next key. -/
theorem KeysAt.take (h : KeysAt keyRecipe remain hdl (key :: left)) (hr : 0 < remain) :
    slice keyRecipe.buf (keyRecipe.cnt * chunkHashSize) chunkHashSize = key ∧
      KeysAt { keyRecipe with cnt := u32 (keyRecipe.cnt + 1) } (u32 (remain + (2 ^ 32 - 1))) hdl
        left := by
  obtain ⟨used, now, later, hl, hh, hrem, hcnt, hlt, hused, hbuf⟩ := h.split
  cases now with
  | nil => exact absurd hr (by rw [hrem]; exact Nat.lt_irrefl 0)
  | cons key' now =>
      rw [List.cons_append, List.cons.injEq] at hl
      obtain ⟨rfl, rfl⟩ := hl
      rw [List.length_append, List.length_cons] at hlt
      rw [List.length_cons] at hrem
      have hkey := h.size key List.mem_cons_self
      have hsize := fun k hk => h.size k (List.mem_cons_of_mem key hk)
      refine ⟨?_, hsize, used ++ [key], now, later, rfl, hh, ?_, ?_, ?_, ?_, ?_⟩
      · rw [hcnt, ← length_flatten_blocks hused, ← hkey]
        refine slice_mid_of_prefix (List.IsPrefix.trans ?_ hbuf)
        rw [List.flatten_append, List.flatten_cons, ← List.append_assoc]
        exact List.prefix_append _ _
      · rw [hrem, show now.length + 1 + (2 ^ 32 - 1) = now.length + 2 ^ 32 by omega, u32,
          Nat.add_mod_right, Nat.mod_eq_of_lt (by omega)]
      · show u32 (keyRecipe.cnt + 1) = _
        rw [hcnt, u32_of_lt (by omega), List.length_append, List.length_singleton]
      · rw [List.length_append, List.length_append, List.length_singleton]
        omega
      · intro k hk
        rcases List.mem_append.mp hk with hk | hk
        · exact hused k hk
        · rwa [List.mem_singleton.mp hk]
      · rw [List.append_assoc, List.singleton_append]
        exact hbuf

end Keys

/-! ## One record after the other -/

/-- The client can process `x` under `key`. -/
def Processes (cfg : Components) (key : Key) (x : Reader2Decoder) : Prop :=
  ∃ r, fullEDRItem cfg key (x.entries cfg) = .ok r

variable {recipeBatchSize m : Nat} {s : RetrieverState}

/-- What a turn of the loop, or many, make of the state: the records of `g` were
taken with the keys `keys`. -/
structure Taken (cfg : Components) (keys : List Key) (g : List Reader2Decoder)
    (s s' : RetrieverState) : Prop where
  items : s'.output.map (fun o => (o.key, o.entries)) =
    s.output.map (fun o => (o.key, o.entries)) ++ keys.zip (g.map (Reader2Decoder.entries cfg))
  remain : (∀ o ∈ s.output, 0 < o.remain) → ∀ o ∈ s'.output, 0 < o.remain
  total : s'.totalRecvChunkNum = (s.totalRecvChunkNum + g.length) % 2 ^ 64
  keyBuf : s'.keyRecipe.buf.length = s.keyRecipe.buf.length

/-- One turn of the loop. -/
theorem fullEDRTurn_spec {key : Key} {left : List Key} (hx : x.Ready cfg)
    (hp : Processes cfg key x) (hkeys : KeysAt s.keyRecipe s.remainRecipeNum s.keyRecipeHdl
      (key :: left)) (hm : 0 < m) (hn : recipeBatchBytes recipeBatchSize = m * chunkHashSize)
    (hlt : min (key :: left).length m < 2 ^ 32) (hroom : m * chunkHashSize ≤ s.keyRecipe.buf.length)
    (h : pre ++ x.bytes cfg <+: dataBuf) :
    ∃ s', fullEDRTurn cfg recipeBatchSize s dataBuf pre.length =
        .ok (s', pre.length + (x.bytes cfg).length) ∧
      Taken cfg [key] [x] s s' ∧ s'.recvBuf = s.recvBuf ∧
      KeysAt s'.keyRecipe s'.remainRecipeNum s'.keyRecipeHdl left := by
  obtain ⟨r, hr⟩ := hp
  -- after the fetch, if one is needed, there is a key in the buffer
  obtain ⟨s₁, hs₁, hkeys₁, hpos, hout, htot, hrecv, hlen⟩ : ∃ s₁ : RetrieverState,
      (if s.remainRecipeNum = 0 then fetchKeyRecipe recipeBatchSize s else s) = s₁ ∧
      KeysAt s₁.keyRecipe s₁.remainRecipeNum s₁.keyRecipeHdl (key :: left) ∧
      0 < s₁.remainRecipeNum ∧ s₁.output = s.output ∧
      s₁.totalRecvChunkNum = s.totalRecvChunkNum ∧ s₁.recvBuf = s.recvBuf ∧
      s₁.keyRecipe.buf.length = s.keyRecipe.buf.length := by
    by_cases h0 : s.remainRecipeNum = 0
    · rw [h0] at hkeys
      obtain ⟨hf, hpos, hle⟩ := hkeys.fetch hm hlt
      refine ⟨_, if_pos h0, ?_, ?_, rfl, rfl, rfl, ?_⟩
      · unfold fetchKeyRecipe
        simp only [hn]
        exact hf
      · unfold fetchKeyRecipe
        simp only [hn]
        exact hpos (List.cons_ne_nil _ _)
      · unfold fetchKeyRecipe
        simp only [hn]
        exact length_memcpy (by omega)
    · exact ⟨s, if_neg h0, hkeys, Nat.pos_of_ne_zero h0, rfl, rfl, rfl, rfl⟩
  obtain ⟨hslice, hnext⟩ := hkeys₁.take hpos
  refine ⟨{ s₁ with
    keyRecipe := { s₁.keyRecipe with cnt := u32 (s₁.keyRecipe.cnt + 1) }
    remainRecipeNum := u32 (s₁.remainRecipeNum + (2 ^ 32 - 1))
    totalRecvChunkNum := (s₁.totalRecvChunkNum + 1) % 2 ^ 64
    output := s₁.output ++ [⟨key, s₁.remainRecipeNum, x.entries cfg, r.1⟩] }, ?_, ?_, hrecv, hnext⟩
  · unfold fullEDRTurn
    simp only [hs₁, hslice, parseItem_spec hx h, ok_bind, hr]
  · refine ⟨?_, ?_, ?_, hlen⟩
    · show (s₁.output ++ [_]).map _ = _
      rw [hout, List.map_append]
      rfl
    · intro hs o ho
      rcases List.mem_append.mp ho with ho | ho
      · exact hs o (by rwa [← hout])
      · rw [List.mem_singleton.mp ho]
        exact hpos
    · show (s₁.totalRecvChunkNum + 1) % 2 ^ 64 = _
      rw [htot]
      rfl

theorem Taken.refl (s : RetrieverState) (h : s.totalRecvChunkNum < 2 ^ 64) :
    Taken cfg [] [] s s where
  items := (List.append_nil _).symm
  remain := fun h => h
  total := (Nat.mod_eq_of_lt h).symm
  keyBuf := rfl

theorem Taken.trans {keys keys' : List Key} {g g' : List Reader2Decoder}
    {s₁ s₂ s₃ : RetrieverState} (h : Taken cfg keys g s₁ s₂) (h' : Taken cfg keys' g' s₂ s₃)
    (hlen : keys.length = g.length) : Taken cfg (keys ++ keys') (g ++ g') s₁ s₃ where
  items := by
    rw [h'.items, h.items, List.map_append, List.zip_append (by rw [hlen, List.length_map]),
      List.append_assoc]
  remain := fun h0 => h'.remain (h.remain h0)
  total := by
    rw [h'.total, h.total, Nat.mod_add_mod, List.length_append, Nat.add_assoc]
  keyBuf := h'.keyBuf.trans h.keyBuf

variable (dataBuf) in
/-- The loop over the records of one message. -/
theorem fullEDRLoop_spec {g : List Reader2Decoder} (hg : ∀ x ∈ g, x.Ready cfg) (hm : 0 < m)
    (hn : recipeBatchBytes recipeBatchSize = m * chunkHashSize) : ∀ {keys left : List Key}
    (s : RetrieverState) (pre : Bytes), List.Forall₂ (Processes cfg) keys g →
      KeysAt s.keyRecipe s.remainRecipeNum s.keyRecipeHdl (keys ++ left) →
      s.totalRecvChunkNum < 2 ^ 64 → min (keys ++ left).length m < 2 ^ 32 →
      m * chunkHashSize ≤ s.keyRecipe.buf.length →
      pre ++ restoreBytes cfg g <+: dataBuf →
      ∃ s', fullEDRLoop cfg recipeBatchSize dataBuf g.length s pre.length = .ok s' ∧
        Taken cfg keys g s s' ∧ s'.recvBuf = s.recvBuf ∧
        KeysAt s'.keyRecipe s'.remainRecipeNum s'.keyRecipeHdl left := by
  induction g with
  | nil =>
      intro keys left s pre hp hkeys htot _ _ _
      cases hp
      exact ⟨s, rfl, Taken.refl s htot, rfl, hkeys⟩
  | cons x g ih =>
      intro keys left s pre hp hkeys htot hlt hroom h
      cases hp with
      | @cons key _ keys _ hx hp =>
          have hbytes : restoreBytes cfg (x :: g) = x.bytes cfg ++ restoreBytes cfg g :=
            List.flatMap_cons
          rw [hbytes, ← List.append_assoc] at h
          obtain ⟨s₁, hrun, h₁, hrecv₁, hkeys₁⟩ :=
            fullEDRTurn_spec (hg x List.mem_cons_self) hx hkeys hm hn hlt hroom
              ((List.prefix_append _ _).trans h)
          obtain ⟨s', hrun', h', hrecv', hkeys'⟩ :=
            ih (fun y hy => hg y (List.mem_cons_of_mem _ hy)) s₁ (pre ++ x.bytes cfg) hp hkeys₁
              (by rw [h₁.total]; exact Nat.mod_lt _ (by decide))
              (by rw [List.cons_append, List.length_cons] at hlt; omega)
              (by rw [h₁.keyBuf]; exact hroom) h
          refine ⟨s', ?_, h₁.trans h' rfl, hrecv'.trans hrecv₁, hkeys'⟩
          rw [List.length_append] at hrun'
          rw [List.length_cons, fullEDRLoop, hrun, ok_bind]
          exact hrun'

/-- One message. -/
theorem recvRestore_spec {clientId : Nat} (hc : clientId < 2 ^ 32) {g : List Reader2Decoder}
    (hg : ∀ x ∈ g, x.Ready cfg) (hfit : RestoreFits cfg g) (hm : 0 < m)
    (hn : recipeBatchBytes recipeBatchSize = m * chunkHashSize) {keys left : List Key}
    (hp : List.Forall₂ (Processes cfg) keys g)
    (hkeys : KeysAt s.keyRecipe s.remainRecipeNum s.keyRecipeHdl (keys ++ left))
    (htot : s.totalRecvChunkNum < 2 ^ 64) (hlt : min (keys ++ left).length m < 2 ^ 32)
    (hroom : m * chunkHashSize ≤ s.keyRecipe.buf.length) :
    ∃ s', recvRestore cfg recipeBatchSize s (restoreMessage cfg clientId g) = .ok s' ∧
      Taken cfg keys g s s' ∧ s'.recvBuf = memcpy s.recvBuf 0 (restoreMessage cfg clientId g) ∧
      KeysAt s'.keyRecipe s'.remainRecipeNum s'.keyRecipeHdl left := by
  have hlen := length_restoreBytes hg
  have hcount := length_le_restoreSizes hg
  unfold RestoreFits at hfit
  have hf : NetworkHead.Fits
      ⟨clientId, MsgType.serverRestoreChunk.code, g.length, (restoreBytes cfg g).length⟩ :=
    ⟨hc, MsgType.code_lt .serverRestoreChunk, show g.length < 2 ^ 32 by omega,
      show (restoreBytes cfg g).length < 2 ^ 32 by omega⟩
  obtain ⟨rest, hdec, hdrop⟩ := NetworkHead.received hf s.recvBuf (restoreBytes cfg g)
  obtain ⟨s', hrun, h', hrecv, hkeys'⟩ := fullEDRLoop_spec (restoreBytes cfg g ++ rest) hg hm hn
    { s with recvBuf := memcpy s.recvBuf 0 (restoreMessage cfg clientId g) } [] hp hkeys htot hlt
    hroom (List.prefix_append _ _)
  refine ⟨s', ?_, ⟨h'.items, h'.remain, h'.total, h'.keyBuf⟩, hrecv, hkeys'⟩
  unfold recvRestore restoreMessage
  unfold restoreMessage at hrun
  simp only [hdec, hdrop]
  exact hrun

end DataRetrieverThd

end EDRStore
