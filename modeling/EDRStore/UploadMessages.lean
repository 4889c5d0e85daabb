/-
# `EDRStore.UploadMessages` — what a client sends arrives as it was sent

Whatever method the client uses, the messages of an upload give back, on the
server, the logical chunks the client made, each message with the number of
chunks it names, as long as the bytes of a message can be counted in the 32 bits
of its size.  A batch size that lets a message grow beyond that loses chunks.
-/
import EDRStore.UploadFraming

namespace EDRStore

/-- `x` is a value of `EncFeatureChunk_t`: its arrays have their fixed sizes. -/
structure EncFeatureChunk.Wf (x : EncFeatureChunk) : Prop where
  data : x.data.length ≤ maxChunkSize
  encData : x.encData.length ≤ encMaxChunkSize

/-! ## What the sender is given -/

section Turns

variable {cfg : Components} {method : MethodType} {m : CacheMeta} {input : EncFeatureChunk}

theorem SendChunk.type_over (old new : SendChunk) : (old.over new).type = new.type := by
  obtain ⟨t, data, fs, fp⟩ := new
  cases t <;> rfl

theorem SendChunk.length_over {old new : SendChunk} (ho : old.compressedFp.length = chunkHashSize)
    (hn : new.type = .fullEdrUncompressChunk → new.compressedFp.length = chunkHashSize) :
    (old.over new).compressedFp.length = chunkHashSize := by
  obtain ⟨t, data, fs, fp⟩ := new
  cases t with
  | fullEdrUncompressChunk => exact hn rfl
  | _ => exact ho

/-- Compressed and encrypted, a chunk still fits where it is put. -/
theorem length_encrypted (hen : cfg.EncSize) (hco : cfg.CompSize) (hw : input.Wf) (key : Key) :
    (cfg.twoPhaseEncChunk (cfg.compressWithPad input.data input.seed) key).length ≤
      encMaxChunkSize := by
  have he := hen (cfg.compressWithPad input.data input.seed) key
  have hc := hco input.data input.seed
  have hd := hw.data
  unfold encMaxChunkSize
  omega

variable (method m) in
/-- The last element of a turn, once the sender has seen it. -/
theorem sentChunk_wf (hen : cfg.EncSize) (hco : cfg.CompSize) (hha : cfg.HashSize)
    (hw : input.Wf) {old : SendChunk} (ho : old.compressedFp.length = chunkHashSize) :
    (old.over (SelectCompThd.runChunk cfg method m input).2.1).compressedFp.length = chunkHashSize ∧
    (SenderThd.sendChunk cfg input.key
      (old.over (SelectCompThd.runChunk cfg method m input).2.1)).Wf := by
  cases method with
  | onlySimilarEnc => exact ⟨ho, hw.encData, ho⟩
  | similarEncComp => exact ⟨ho, length_encrypted hen hco hw input.key, ho⟩
  | fullEdr =>
      simp only [SelectCompThd.runChunk, SelectCompThd.fullEDR]
      split
      · exact ⟨hha _, hw.encData, hha _⟩
      · exact ⟨ho, length_encrypted hen hco hw input.key, ho⟩

variable (method m) in
/-- What one turn of `SelectCompThd::Run` pushes is one logical chunk. -/
theorem turn_logical (hen : cfg.EncSize) (hco : cfg.CompSize) (hha : cfg.HashSize)
    (hw : input.Wf) {send cache : SelectComp2Sender}
    (hs : send.sendChunk.compressedFp.length = chunkHashSize)
    (hc : cache.sendChunk.compressedFp.length = chunkHashSize) {turn : List SelectComp2Sender}
    (h : turn = ((SelectCompThd.runChunk cfg method m input).1.map fun chunk =>
        { cache with sendChunk := cache.sendChunk.over chunk }).toList ++
      [⟨send.sendChunk.over (SelectCompThd.runChunk cfg method m input).2.1, input.key⟩]) :
    LogicalTurn turn ∧ LogicalItem (sentItem cfg turn) := by
  subst h
  have hlast := (sentChunk_wf method m hen hco hha hw hs).2
  cases method with
  | onlySimilarEnc => exact ⟨.single (Or.inr (Or.inl rfl)), .single (Or.inr rfl) hlast⟩
  | similarEncComp => exact ⟨.single (Or.inl rfl), .single (Or.inr rfl) hlast⟩
  | fullEdr =>
      simp only [SelectCompThd.runChunk, SelectCompThd.fullEDR] at hlast ⊢
      split
      · rename_i hq
        simp only [hq, if_true] at hlast
        exact ⟨.single (Or.inr (Or.inr rfl)), .single (Or.inl rfl) hlast⟩
      · rename_i hq
        simp only [hq] at hlast
        exact ⟨.pair rfl rfl, .pair rfl rfl ⟨hw.encData, hc⟩ hlast⟩

variable (method) in
/-- Every turn of `SelectCompThd::Run`, and the keys the sender will record. -/
theorem run_turns (hen : cfg.EncSize) (hco : cfg.CompSize) (hha : cfg.HashSize)
    {inputs : List EncFeatureChunk} (hw : ∀ x ∈ inputs, x.Wf) :
    ∀ (m : CacheMeta) (send cache : SelectComp2Sender),
      send.sendChunk.compressedFp.length = chunkHashSize →
      cache.sendChunk.compressedFp.length = chunkHashSize →
      (∀ turn ∈ SelectCompThd.run cfg method m send cache inputs,
        LogicalTurn turn ∧ LogicalItem (sentItem cfg turn)) ∧
      SenderThd.turnKeys (SelectCompThd.run cfg method m send cache inputs) =
        inputs.map (·.key) := by
  induction inputs with
  | nil => intro m send cache _ _; exact ⟨fun _ h => absurd h List.not_mem_nil, rfl⟩
  | cons input inputs ih =>
      intro m send cache hs hc
      have hwi := hw input List.mem_cons_self
      have hlast := (sentChunk_wf method m hen hco hha hwi hs).1
      have hturn := turn_logical method m hen hco hha hwi hs hc rfl
      have hrest := fun x hx => hw x (List.mem_cons_of_mem _ hx)
      rw [SelectCompThd.run]
      cases hr : (SelectCompThd.runChunk cfg method m input).1 with
      | none =>
          rw [hr] at hturn
          have hi := ih hrest (SelectCompThd.runChunk cfg method m input).2.2
            ⟨send.sendChunk.over (SelectCompThd.runChunk cfg method m input).2.1, input.key⟩ cache
            hlast hc
          refine ⟨fun turn ht => ?_, ?_⟩
          · rcases List.mem_cons.mp ht with rfl | ht
            · exact hturn
            · exact hi.1 turn ht
          · rw [SenderThd.turnKeys_cons rfl, hi.2, List.map_cons]
            rfl
      | some chunk =>
          rw [hr] at hturn
          have hcache : (cache.sendChunk.over chunk).compressedFp.length = chunkHashSize := by
            refine SendChunk.length_over hc fun ht => ?_
            cases hturn.1 with
            | pair ht' _ =>
                have hchunk : chunk.type = .fullEdrCacheChunk :=
                  (SendChunk.type_over cache.sendChunk chunk).symm.trans ht'
                exact nomatch ht.symm.trans hchunk
          have hi := ih hrest (SelectCompThd.runChunk cfg method m input).2.2
            ⟨send.sendChunk.over (SelectCompThd.runChunk cfg method m input).2.1, input.key⟩
            { cache with sendChunk := cache.sendChunk.over chunk } hlast hcache
          refine ⟨fun turn ht => ?_, ?_⟩
          · rcases List.mem_cons.mp ht with rfl | ht
            · exact hturn
            · exact hi.1 turn ht
          · rw [SenderThd.turnKeys_cons rfl, hi.2, List.map_cons]
            rfl

end Turns

/-! ## Lossless framing -/

/-- What `sent` carries arrives as `items`: the messages before the recipe's end
are those of `received`, each the chunks it gives back and no more, none too
large for the buffers of either side. -/
structure Arrives (clientId batchSize : Nat) (recvBuf : Bytes) (items : List (List SendChunk))
    (recipe : Bytes) (sent messages : List Bytes)
    (received : List (Nat × List (List SendChunk))) : Prop where
  ends : sent = messages ++ [recipeEndMessage clientId recipe]
  parsed : DataRecvThd.recvAll recvBuf messages = .ok received
  lossless : (received.map Prod.snd).flatten = items
  framed : messages = received.map fun r => uploadMessage clientId r.2
  counted : ∀ r ∈ received, r.1 = r.2.length ∧ 0 < r.1 ∧ r.1 ≤ batchSize
  bounded : ∀ message ∈ messages,
    message.length ≤ 2 * batchSize * sendChunkSize + networkHeadSize

/-- The sender comes to the end of its queue without outgrowing its buffer, and
what it sent arrives. -/
def UploadLossless (cfg : Components) (clientId batchSize recipeBatchSize : Nat) (s : SenderState)
    (turns : List (List SelectComp2Sender)) (recipe : SelectComp2Sender) : Prop :=
  ∃ s', SenderThd.run cfg clientId batchSize recipeBatchSize s (turns.flatten ++ [recipe]) = .ok s' ∧
    s'.sendChunkBuf.dataBuf.length = s.sendChunkBuf.dataBuf.length ∧
    ∀ recvBuf, ∃ messages received,
      Arrives clientId batchSize recvBuf (turns.map (sentItem cfg)) recipe.sendChunk.data s'.sent
        messages received

/-- `sizeof(FileRecipeHead_t)`. -/
def fileRecipeHeadSize : Nat := 16

theorem framed_new {clientId cap : Nat} {dataBuf : Bytes} (h : dataBuf.length = cap)
    (keyBuf : Bytes) : Framed clientId cap (SenderThd.new dataBuf keyBuf) Batch.empty where
  holds := ⟨List.nil_prefix, rfl, rfl⟩
  cap := h
  sent := rfl

instance (items : List (List SendChunk)) : Decidable (MessageFits items) :=
  inferInstanceAs (Decidable (_ < _))

/-- Queue elements of the runs below. -/
def blankChunk : SendChunk :=
  { type := .normalChunk, data := [], cipherFeatures := ⟨0, 0, 0⟩,
    compressedFp := List.replicate chunkHashSize 0 }

def recipeChunk : SelectComp2Sender :=
  ⟨{ blankChunk with type := .recipeChunk, data := List.replicate fileRecipeHeadSize 0 }, []⟩

namespace SenderThd

variable {clientId batchSize recipeBatchSize cap : Nat} {s : SenderState}

variable (recipeBatchSize) in
/-- The entry that completes a message of exactly 4 GiB. -/
theorem sendLogical_wraps {b : Batch (List SendChunk)} {c : SendChunk}
    (h : Framed clientId cap s b) (hw : c.Wf) (key : Key)
    (hsize : (itemsBytes b.pending).length + c.bytes.length = 2 ^ 32)
    (hcount : b.pending.length + 1 = batchSize) (hlt : batchSize < 2 ^ 32) :
    (sendLogical clientId batchSize recipeBatchSize s c key).sent =
        s.sent ++ [NetworkHead.encode ⟨clientId, MsgType.clientUploadChunk.code, batchSize, 0⟩] ∧
      (sendLogical clientId batchSize recipeBatchSize s c key).sendChunkBuf.curItemNum = 0 := by
  have hlen := hw.length_bytes
  have hnum : (addChunk s c).sendChunkBuf.countItem.curItemNum = batchSize := by
    show u32 (s.sendChunkBuf.curItemNum + 1) = batchSize
    rw [h.holds.curItemNum, hcount, u32_of_lt hlt]
  have hzero : (addChunk s c).sendChunkBuf.countItem.size = 0 := by
    show u32 (u32 (s.sendChunkBuf.size + c.header.encode.length) + c.data.length) = 0
    rw [u32_add_u32, h.holds.size, hw.length_header, Nat.add_assoc, ← hlen, hsize]
    rfl
  have hhead : (addChunk s c).sendChunkBuf.countItem.head clientId .clientUploadChunk =
      ⟨clientId, MsgType.clientUploadChunk.code, batchSize, 0⟩ := by
    rw [SendMsgBuffer.head, hnum, hzero]
  have hmsg : (addChunk s c).sendChunkBuf.countItem.message clientId .clientUploadChunk =
      NetworkHead.encode ⟨clientId, MsgType.clientUploadChunk.code, batchSize, 0⟩ := by
    have hu : u32 (0 + networkHeadSize) = networkHeadSize := by decide
    rw [SendMsgBuffer.message, hhead, hzero, hu, ← NetworkHead.length_encode
      ⟨clientId, MsgType.clientUploadChunk.code, batchSize, 0⟩, List.take_left]
  unfold sendLogical storeKeyRecipe countItem
  simp only [hnum, Nat.mod_self, if_true, sendChunks, hmsg]
  exact ⟨rfl, rfl⟩

/-- With nothing gathered, the end of the recipe is one message. -/
theorem runChunk_recipe_sent {cfg : Components} {s' : SenderState} {x : SelectComp2Sender}
    (h0 : s.sendChunkBuf.curItemNum = 0) (ht : x.sendChunk.type = .recipeChunk)
    (h : runChunk cfg clientId batchSize recipeBatchSize s x = .ok s') :
    ∃ message, s'.sent = s.sent ++ [message] := by
  simp only [runChunk, ht, h0, ne_eq, not_true_eq_false, if_false] at h
  cases h
  exact ⟨_, rfl⟩

end SenderThd

/-- 16319 bytes, 16320 once encrypted. -/
def wideChunk : EncFeatureChunk :=
  prepareChunk Components.sized (List.replicate 16319 0) [] 0

theorem length_wideChunk : sendChunkHeaderSize + wideChunk.encData.length = 2 ^ 14 := by
  have hlen : wideChunk.encData.length = 1 + 16319 := by
    rw [Nat.add_comm, wideChunk, prepareChunk, Components.sized, List.length_cons,
      List.length_replicate]
  rw [hlen]
  decide

theorem wideChunk_wf : wideChunk.Wf where
  data := by
    rw [wideChunk, prepareChunk, List.length_replicate]
    decide
  encData := by
    have hlen := length_wideChunk
    have hmax : sendChunkHeaderSize + encMaxChunkSize = 16468 := by decide
    omega

/-- In this mode every chunk gives the same queue element. -/
theorem run_replicate (cfg : Components) (m : CacheMeta) (cache : SelectComp2Sender)
    (input : EncFeatureChunk) (n : Nat) : ∀ send : SelectComp2Sender,
    SelectCompThd.run cfg .onlySimilarEnc m send cache (List.replicate n input) =
      List.replicate n [⟨{ send.sendChunk with type := .normalChunk, data := input.encData },
        input.key⟩] := by
  induction n with
  | zero => exact fun _ => rfl
  | succ n ih =>
      intro send
      rw [List.replicate_succ, SelectCompThd.run, List.replicate_succ]
      exact congrArg _ (ih _)

theorem length_itemsBytes_replicate {c : SendChunk} {k : Nat} (h : c.bytes.length = k) (n : Nat) :
    (itemsBytes (List.replicate n [c])).length = n * k := by
  induction n with
  | zero => rw [Nat.zero_mul]; rfl
  | succ n ih =>
      rw [List.replicate_succ, itemsBytes_cons, List.length_append, ih, List.flatMap_cons,
        List.flatMap_nil, List.append_nil, h, Nat.succ_mul, Nat.add_comm]

/-- Uncompressed chunks that fill a message of exactly 4 GiB do not arrive. -/
theorem message_wraps {cfg : Components} {m : CacheMeta} {send cache recipe : SelectComp2Sender}
    {input : EncFeatureChunk} {clientId n k : Nat} {dataBuf : Bytes}
    (hs : send.sendChunk.compressedFp.length = chunkHashSize) (hw : input.Wf)
    (hr : recipe.sendChunk.type = .recipeChunk) (hn : 0 < n) (hlt : n < 2 ^ 32)
    (hk : sendChunkHeaderSize + input.encData.length = k) (hnk : n * k = 2 ^ 32)
    (hd : dataBuf.length = 2 * n * sendChunkSize) (keyBuf : Bytes) (recipeBatchSize : Nat) :
    ¬ UploadLossless cfg clientId n recipeBatchSize (SenderThd.new dataBuf keyBuf)
      (SelectCompThd.run cfg .onlySimilarEnc m send cache (List.replicate n input)) recipe := by
  let c : SendChunk := { send.sendChunk with type := .normalChunk, data := input.encData }
  let x : SelectComp2Sender := ⟨c, input.key⟩
  have hcw : c.Wf := ⟨hw.encData, hs⟩
  have hbytes : c.bytes.length = k := by rw [hcw.length_bytes]; exact hk
  have hmap : ∀ n, (List.replicate n [x]).map (sentItem cfg) = List.replicate n [c] :=
    fun n => List.map_replicate
  have hpred : (n - 1) * k + k = 2 ^ 32 := by rw [← Nat.succ_mul, ← hnk]; congr 1; omega
  have hhead : networkHeadSize < sendChunkHeaderSize := by decide
  rw [run_replicate]
  rintro ⟨s', hrun, -, harr⟩
  -- all but the last chunk: nothing is sent yet
  have hfull : Batch.run n Batch.empty (List.replicate (n - 1) [c]) =
      ⟨[], List.replicate (n - 1) [c]⟩ :=
    Batch.run_short _ _ (by
      rw [List.length_replicate, show (Batch.empty : Batch (List SendChunk)).pending.length = 0 from
        rfl]
      omega)
  obtain ⟨s₁, hrun₁, hf, -⟩ : ∃ s₁, (List.replicate (n - 1) [x]).flatten.foldlM
      (SenderThd.runChunk cfg clientId n recipeBatchSize) (SenderThd.new dataBuf keyBuf) = .ok s₁ ∧
      Framed clientId (2 * n * sendChunkSize) s₁ (Batch.run n Batch.empty
        ((List.replicate (n - 1) [x]).map (sentItem cfg))) ∧ _ := by
    refine SenderThd.runTurns_framed recipeBatchSize (fun turn ht => ?_) (framed_new hd keyBuf)
      (Batch.sized_empty hn) (fun i hi => absurd hi List.not_mem_nil) (fun g hg => ?_)
    · rw [List.eq_of_mem_replicate ht]
      exact ⟨.single (Or.inr (Or.inl rfl)), .single (Or.inr rfl) hcw⟩
    · rw [hmap, hfull] at hg
      rcases Batch.mem_close hg with hg | ⟨rfl, -⟩
      · exact absurd hg List.not_mem_nil
      · rw [MessageFits, length_itemsBytes_replicate hbytes]
        omega
  rw [hmap, hfull] at hf
  -- the last one, and the end of the recipe
  obtain ⟨hsent, hnum⟩ := SenderThd.sendLogical_wraps recipeBatchSize hf hcw input.key
    (by rw [length_itemsBytes_replicate hbytes, hbytes]; exact hpred)
    (show _ = n by rw [List.length_replicate]; omega) hlt
  have hstep : SenderThd.runChunk cfg clientId n recipeBatchSize s₁ x =
      .ok (SenderThd.sendLogical clientId n recipeBatchSize s₁ c input.key) := rfl
  have hflat : (List.replicate n [x]).flatten ++ [recipe] =
      (List.replicate (n - 1) [x]).flatten ++ [x, recipe] := by
    rw [show n = n - 1 + 1 by omega, List.replicate_succ', List.flatten_append, List.append_assoc]
    rfl
  change SenderThd.run cfg clientId n recipeBatchSize _
    ((List.replicate n [x]).flatten ++ [recipe]) = .ok s' at hrun
  rw [hflat, SenderThd.run, List.foldlM_append, hrun₁, ok_bind, List.foldlM_cons, hstep, ok_bind]
    at hrun
  obtain ⟨s₂, hrec, hrun⟩ := bind_ok hrun
  cases hrun
  obtain ⟨message, hm⟩ := SenderThd.runChunk_recipe_sent hnum hr hrec
  rw [hsent, hf.sent, List.map_nil, List.nil_append] at hm
  obtain ⟨messages, received, ha⟩ := harr []
  have hmessages := (List.append_inj_left' (hm.symm.trans ha.ends) rfl).symm
  -- the one message has no room for any chunk
  have hone : received.length = 1 := by
    have hlen := congrArg List.length ha.framed
    rw [List.length_map, hmessages] at hlen
    exact hlen.symm
  obtain ⟨r, rfl⟩ := List.length_eq_one_iff.mp hone
  have hr2 : r.2 = List.replicate n [c] := by
    rw [← hmap, ← ha.lossless]
    exact (List.append_nil _).symm
  have hmsg : uploadMessage clientId r.2 =
      NetworkHead.encode ⟨clientId, MsgType.clientUploadChunk.code, n, 0⟩ :=
    (List.cons_eq_cons.mp (ha.framed.symm.trans hmessages)).1
  have hlen := congrArg List.length hmsg
  rw [length_uploadMessage, NetworkHead.length_encode, hr2, length_itemsBytes_replicate hbytes,
    hnk] at hlen
  exact absurd hlen (by decide)

end EDRStore
