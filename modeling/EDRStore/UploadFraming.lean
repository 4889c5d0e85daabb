/-
# `EDRStore.UploadFraming` — what the sender frames, the receiver takes apart

The sender fills its buffer entry by entry and counts at the last entry of a
logical chunk; the receiver finds the entries again from their sizes.  Both are
compared with the plain batching of logical chunks: `Framed` says that the
sender's state is that of `Batch`, with the pending chunks in its buffer.
-/
import EDRStore.Sender
import EDRStore.Lib.Batch

namespace EDRStore

/-! ## Logical chunks -/

/-- Logical chunks as they stand in a message. -/
def itemsBytes (items : List (List SendChunk)) : Bytes := items.flatten.flatMap SendChunk.bytes

@[simp] theorem itemsBytes_nil : itemsBytes [] = [] := rfl

theorem itemsBytes_cons (item : List SendChunk) (items : List (List SendChunk)) :
    itemsBytes (item :: items) = item.flatMap SendChunk.bytes ++ itemsBytes items := by
  rw [itemsBytes, List.flatten_cons, List.flatMap_append]
  rfl

theorem itemsBytes_append (items items' : List (List SendChunk)) :
    itemsBytes (items ++ items') = itemsBytes items ++ itemsBytes items' := by
  simp only [itemsBytes, List.flatten_append, List.flatMap_append]

theorem itemsBytes_mono {items items' : List (List SendChunk)} (h : items <+: items') :
    itemsBytes items <+: itemsBytes items' := by
  obtain ⟨rest, rfl⟩ := h
  rw [itemsBytes_append]
  exact List.prefix_append _ _

/-- The entries of one logical chunk: a cache chunk and its compressed chunk, or
one chunk. -/
inductive LogicalItem : List SendChunk → Prop where
  | pair {cache comp : SendChunk} (ht : cache.type = .fullEdrCacheChunk)
      (ht' : comp.type = .normalChunk) (hw : cache.Wf) (hw' : comp.Wf) :
      LogicalItem [cache, comp]
  | single {chunk : SendChunk}
      (ht : chunk.type = .fullEdrUncompressChunk ∨ chunk.type = .normalChunk) (hw : chunk.Wf) :
      LogicalItem [chunk]

theorem LogicalItem.length_bytes {item : List SendChunk} (h : LogicalItem item) :
    0 < (item.flatMap SendChunk.bytes).length ∧
      (item.flatMap SendChunk.bytes).length ≤ 2 * sendChunkSize := by
  have hpos : 0 < sendChunkHeaderSize := by decide
  cases h with
  | pair _ _ hw hw' =>
      have hl := hw.length_bytes
      have hle := hw.length_bytes_le
      have hle' := hw'.length_bytes_le
      simp only [List.flatMap_cons, List.flatMap_nil, List.append_nil, List.length_append]
      omega
  | single _ hw =>
      have hl := hw.length_bytes
      have hle := hw.length_bytes_le
      simp only [List.flatMap_cons, List.flatMap_nil, List.append_nil]
      omega

/-- Every logical chunk takes some bytes, and at most two full entries. -/
theorem length_itemsBytes {items : List (List SendChunk)} (h : ∀ item ∈ items, LogicalItem item) :
    items.length ≤ (itemsBytes items).length ∧
      (itemsBytes items).length ≤ items.length * (2 * sendChunkSize) := by
  induction items with
  | nil => exact ⟨Nat.le_refl 0, Nat.zero_le _⟩
  | cons item items ih =>
      obtain ⟨hlo, hhi⟩ := ih fun i hi => h i (List.mem_cons_of_mem _ hi)
      obtain ⟨hpos, hle⟩ := (h item List.mem_cons_self).length_bytes
      rw [itemsBytes_cons, List.length_append, List.length_cons, Nat.add_mul, Nat.one_mul]
      omega

/-! ## Taking a message apart -/

section Parse

variable {dataBuf pre : Bytes}

open DataRecvThd

theorem entryAt_spec {c : SendChunk} (hw : c.Wf) (h : pre ++ c.bytes <+: dataBuf)
    (hlt : pre.length + c.bytes.length < 2 ^ 32) :
    entryAt dataBuf pre.length = (c.header, c.data, pre.length + c.bytes.length) := by
  have hlen := hw.length_bytes
  obtain ⟨hhead, hdata⟩ := SendChunkHeader.read_entry (h := c.header) hw.size_lt hw.compressedFp
    rfl h
  have hoff : u32 (pre.length + sendChunkHeaderSize) = pre.length + sendChunkHeaderSize :=
    u32_of_lt (by omega)
  have hend : u32 (pre.length + sendChunkHeaderSize + c.header.size) =
      pre.length + c.bytes.length := by
    rw [hlen, ← Nat.add_assoc]
    exact u32_of_lt (by rw [Nat.add_assoc]; exact hlen ▸ hlt)
  simp only [entryAt, hhead, hoff, hdata, hend]

theorem parseItem_spec {item : List SendChunk} (hi : LogicalItem item)
    (h : pre ++ item.flatMap SendChunk.bytes <+: dataBuf)
    (hlt : pre.length + (item.flatMap SendChunk.bytes).length < 2 ^ 32) :
    parseItem dataBuf pre.length =
      .ok (item, pre.length + (item.flatMap SendChunk.bytes).length) := by
  cases hi with
  | @pair cache comp ht ht' hw hw' =>
      simp only [List.flatMap_cons, List.flatMap_nil, List.append_nil, List.length_append]
        at h hlt ⊢
      rw [← List.append_assoc] at h
      have he := entryAt_spec hw ((List.prefix_append _ _).trans h) (by omega)
      have he' := entryAt_spec hw' h (by rw [List.length_append]; omega)
      rw [List.length_append] at he'
      obtain ⟨t, data, fs, fp⟩ := cache
      obtain ⟨t', data', fs', fp'⟩ := comp
      cases ht
      cases ht'
      simp only [parseItem, he, SendChunk.header, DataType.ofCode_code, he', Option.getD_some,
        Nat.add_assoc]
  | @single c ht hw =>
      simp only [List.flatMap_cons, List.flatMap_nil, List.append_nil] at h hlt ⊢
      have he := entryAt_spec hw h hlt
      obtain ⟨t, data, fs, fp⟩ := c
      rcases ht with ht | ht <;> cases ht <;>
        simp only [parseItem, he, SendChunk.header, DataType.ofCode_code]

theorem parseItems_spec {items : List (List SendChunk)} (hi : ∀ item ∈ items, LogicalItem item) :
    ∀ {pre : Bytes}, pre ++ itemsBytes items <+: dataBuf →
      pre.length + (itemsBytes items).length < 2 ^ 32 →
      parseItems dataBuf items.length pre.length = .ok items := by
  induction items with
  | nil => intro pre _ _; rfl
  | cons item items ih =>
      intro pre h hlt
      rw [itemsBytes_cons, ← List.append_assoc] at h
      rw [itemsBytes_cons, List.length_append, ← Nat.add_assoc] at hlt
      have hp := parseItem_spec (hi item List.mem_cons_self) ((List.prefix_append _ _).trans h)
        (by omega)
      have hrest := ih (fun i him => hi i (List.mem_cons_of_mem _ him)) h
        (by rw [List.length_append]; exact hlt)
      rw [List.length_append] at hrest
      rw [List.length_cons, parseItems, hp, ok_bind, hrest, ok_bind]

end Parse

/-! ## Messages -/

/-- The message that carries `items`. -/
def uploadMessage (clientId : Nat) (items : List (List SendChunk)) : Bytes :=
  NetworkHead.encode
    ⟨clientId, MsgType.clientUploadChunk.code, items.length, (itemsBytes items).length⟩ ++
      itemsBytes items

/-- The message that carries the head of the file recipe. -/
def recipeEndMessage (clientId : Nat) (head : Bytes) : Bytes :=
  NetworkHead.encode ⟨clientId, MsgType.clientUploadRecipeEnd.code, 0, head.length⟩ ++ head

/-- The bytes of a message, its header included, can be counted in 32 bits. -/
def MessageFits (items : List (List SendChunk)) : Prop :=
  (itemsBytes items).length + networkHeadSize < 2 ^ 32

theorem MessageFits.of_prefix {items items' : List (List SendChunk)} (h : MessageFits items')
    (hpre : items <+: items') : MessageFits items := by
  have hle := (itemsBytes_mono hpre).length_le
  unfold MessageFits at h ⊢
  omega

theorem length_uploadMessage (clientId : Nat) (items : List (List SendChunk)) :
    (uploadMessage clientId items).length = (itemsBytes items).length + networkHeadSize := by
  rw [uploadMessage, List.length_append, NetworkHead.length_encode, Nat.add_comm]

theorem recvChunks_spec {clientId : Nat} (hc : clientId < 2 ^ 32)
    {items : List (List SendChunk)} (hi : ∀ item ∈ items, LogicalItem item)
    (hfit : MessageFits items) (recvBuf : Bytes) :
    DataRecvThd.recvChunks recvBuf (uploadMessage clientId items) = .ok (items.length, items) := by
  have hhead : 0 < networkHeadSize := by decide
  have hlt : (itemsBytes items).length < 2 ^ 32 := by unfold MessageFits at hfit; omega
  have hcount := (length_itemsBytes hi).1
  have hf : NetworkHead.Fits
      ⟨clientId, MsgType.clientUploadChunk.code, items.length, (itemsBytes items).length⟩ :=
    ⟨hc, MsgType.code_lt .clientUploadChunk, Nat.lt_of_le_of_lt hcount hlt, hlt⟩
  obtain ⟨rest, hdec, hdrop⟩ := NetworkHead.received hf recvBuf (itemsBytes items)
  have hparse : DataRecvThd.parseItems (itemsBytes items ++ rest) items.length
      ([] : Bytes).length = .ok items :=
    parseItems_spec hi (List.prefix_append _ _) (by rw [List.length_nil, Nat.zero_add]; exact hlt)
  unfold DataRecvThd.recvChunks uploadMessage
  simp only [hdec, hdrop]
  exact congrArg (· >>= fun items' => Except.ok (items.length, items')) hparse

/-- Whatever the receive buffer holds from before, each message gives back its
own chunks. -/
theorem recvAll_spec {clientId : Nat} (hc : clientId < 2 ^ 32)
    {groups : List (List (List SendChunk))} (hi : ∀ g ∈ groups, ∀ item ∈ g, LogicalItem item)
    (hfit : ∀ g ∈ groups, MessageFits g) : ∀ recvBuf : Bytes,
    DataRecvThd.recvAll recvBuf (groups.map (uploadMessage clientId)) =
      .ok (groups.map fun g => (g.length, g)) := by
  induction groups with
  | nil => intro _; rfl
  | cons g groups ih =>
      intro recvBuf
      have hg := recvChunks_spec hc (hi g List.mem_cons_self) (hfit g List.mem_cons_self) recvBuf
      rw [List.map_cons, List.map_cons, DataRecvThd.recvAll, hg, ok_bind,
        ih (fun g' hg' => hi g' (List.mem_cons_of_mem _ hg'))
          (fun g' hg' => hfit g' (List.mem_cons_of_mem _ hg')), ok_bind]

/-! ## What the sender has gathered -/

/-- The queue elements of one logical chunk. -/
inductive LogicalTurn : List SelectComp2Sender → Prop where
  | pair {cache comp : SelectComp2Sender} (ht : cache.sendChunk.type = .fullEdrCacheChunk)
      (ht' : comp.sendChunk.type = .compressedNormalChunk) : LogicalTurn [cache, comp]
  | single {x : SelectComp2Sender}
      (ht : x.sendChunk.type = .compressedNormalChunk ∨ x.sendChunk.type = .normalChunk ∨
        x.sendChunk.type = .fullEdrUncompressChunk) : LogicalTurn [x]

/-- The entries the sender makes of them. -/
def sentItem (cfg : Components) (turn : List SelectComp2Sender) : List SendChunk :=
  turn.map fun x => SenderThd.sendChunk cfg x.key x.sendChunk

/-- The sender's state is that of the plain batching `b`: its buffer holds what is
pending there, and it has sent what was handed over. -/
structure Framed (clientId cap : Nat) (s : SenderState) (b : Batch (List SendChunk)) : Prop where
  holds : s.sendChunkBuf.Holds (itemsBytes b.pending) b.pending.length
  cap : s.sendChunkBuf.dataBuf.length = cap
  sent : s.sent = b.out.map (uploadMessage clientId)

namespace SenderThd

variable {cfg : Components} {clientId batchSize recipeBatchSize cap : Nat} {s : SenderState}

/-- One entry behind what the buffer holds. -/
theorem addChunk_holds {bs : Bytes} {k : Nat} {c : SendChunk}
    (h : s.sendChunkBuf.Holds bs k) (hcap : bs.length + c.bytes.length ≤ s.sendChunkBuf.dataBuf.length)
    (hlt : bs.length + c.bytes.length < 2 ^ 32) :
    (addChunk s c).sendChunkBuf.Holds (bs ++ c.bytes) k ∧
      (addChunk s c).sendChunkBuf.dataBuf.length = s.sendChunkBuf.dataBuf.length := by
  have hsplit : c.bytes.length = c.header.encode.length + c.data.length := List.length_append
  have h1 := h.append c.header.encode (by omega)
  have h2 := h1.append c.data (by rw [List.length_append]; omega)
  have hlen1 : (s.sendChunkBuf.append c.header.encode).dataBuf.length =
      s.sendChunkBuf.dataBuf.length := SendMsgBuffer.length_append (by rw [h.size]; omega)
  refine ⟨?_, ?_⟩
  · rw [SendChunk.bytes, ← List.append_assoc]
    exact h2
  · exact (SendMsgBuffer.length_append (by rw [h1.size, hlen1, List.length_append]; omega)).trans
      hlen1

variable (batchSize recipeBatchSize) in
/-- The entry that completes `item`: the sender takes the step of `Batch`, and
records the key. -/
theorem sendLogical_framed {b : Batch (List SendChunk)} {item : List SendChunk} {bs : Bytes}
    {c : SendChunk} (key : Key) (hsent : s.sent = b.out.map (uploadMessage clientId))
    (hcap : s.sendChunkBuf.dataBuf.length = cap)
    (h : s.sendChunkBuf.Holds (itemsBytes b.pending ++ bs) b.pending.length)
    (hitem : item.flatMap SendChunk.bytes = bs ++ c.bytes)
    (hi : ∀ i ∈ b.pending ++ [item], LogicalItem i) (hfit : MessageFits (b.pending ++ [item]))
    (hle : (itemsBytes (b.pending ++ [item])).length ≤ cap) :
    Framed clientId cap (sendLogical clientId batchSize recipeBatchSize s c key)
        (b.push batchSize item) ∧
      (sendLogical clientId batchSize recipeBatchSize s c key).keyRecipe =
        s.keyRecipe.add (fun cnt => cnt * chunkHashSize) recipeBatchSize key := by
  have hall : itemsBytes (b.pending ++ [item]) = itemsBytes b.pending ++ bs ++ c.bytes := by
    rw [itemsBytes_append, itemsBytes_cons, itemsBytes_nil, List.append_nil, hitem,
      List.append_assoc]
  have hlt : (itemsBytes (b.pending ++ [item])).length < 2 ^ 32 := by
    unfold MessageFits at hfit
    omega
  have hcount := (length_itemsBytes hi).1
  rw [List.length_append, List.length_singleton] at hcount
  obtain ⟨hadd, hlen⟩ := addChunk_holds h
    (by rw [← List.length_append, ← hall, hcap]; exact hle)
    (by rw [← List.length_append, ← hall]; exact hlt)
  rw [← hall] at hadd
  have hcnt := hadd.countItem (by omega)
  have hnum : (addChunk s c).sendChunkBuf.countItem.curItemNum = b.pending.length + 1 :=
    hcnt.curItemNum
  unfold sendLogical storeKeyRecipe countItem Batch.push
  simp only [hnum, List.length_append, List.length_singleton]
  split
  · refine ⟨⟨SendMsgBuffer.holds_clear _, ?_, ?_⟩, rfl⟩
    · exact hlen.trans hcap
    · have hmsg := hcnt.message hfit clientId .clientUploadChunk
      show s.sent ++ [_] = _
      rw [hmsg, hsent, List.map_append, List.map_singleton, uploadMessage, List.length_append,
        List.length_singleton]
  · refine ⟨⟨?_, hlen.trans hcap, hsent⟩, rfl⟩
    rw [List.length_append, List.length_singleton]
    exact hcnt

/-- One logical chunk. -/
theorem runTurn_framed {b : Batch (List SendChunk)} {turn : List SelectComp2Sender}
    (h : Framed clientId cap s b) (ht : LogicalTurn turn)
    (hi : ∀ i ∈ b.pending ++ [sentItem cfg turn], LogicalItem i)
    (hfit : MessageFits (b.pending ++ [sentItem cfg turn]))
    (hle : (itemsBytes (b.pending ++ [sentItem cfg turn])).length ≤ cap) :
    ∃ s', turn.foldlM (runChunk cfg clientId batchSize recipeBatchSize) s = .ok s' ∧
      Framed clientId cap s' (b.push batchSize (sentItem cfg turn)) ∧
      ∃ x, turn.getLast? = some x ∧
        s'.keyRecipe = s.keyRecipe.add (fun cnt => cnt * chunkHashSize) recipeBatchSize x.key := by
  cases ht with
  | @pair cache comp ht ht' =>
      have hcache : sendChunk cfg cache.key cache.sendChunk = cache.sendChunk := by
        simp only [sendChunk, ht]
      have hbytes : (sentItem cfg [cache, comp]).flatMap SendChunk.bytes =
          cache.sendChunk.bytes ++ (sendChunk cfg comp.key comp.sendChunk).bytes := by
        simp only [sentItem, List.map_cons, List.map_nil, hcache, List.flatMap_cons,
          List.flatMap_nil, List.append_nil]
      have hall : (itemsBytes (b.pending ++ [sentItem cfg [cache, comp]])).length =
          (itemsBytes b.pending).length + (cache.sendChunk.bytes.length +
            (sendChunk cfg comp.key comp.sendChunk).bytes.length) := by
        rw [itemsBytes_append, itemsBytes_cons, itemsBytes_nil, List.append_nil, hbytes,
          List.length_append, List.length_append]
      have hlt : (itemsBytes (b.pending ++ [sentItem cfg [cache, comp]])).length < 2 ^ 32 := by
        unfold MessageFits at hfit
        omega
      obtain ⟨hadd, hlen⟩ := addChunk_holds (c := cache.sendChunk) h.holds
        (by rw [h.cap]; omega) (by omega)
      obtain ⟨hf, hk⟩ := sendLogical_framed (s := addChunk s cache.sendChunk) batchSize
        recipeBatchSize comp.key h.sent (hlen.trans h.cap) hadd hbytes hi hfit hle
      refine ⟨_, ?_, hf, comp, rfl, hk⟩
      rw [List.foldlM_cons, runChunk, ht]
      simp only [ok_bind, List.foldlM_cons, List.foldlM_nil, runChunk, ht']
      rfl
  | @single x ht =>
      have hbytes : (sentItem cfg [x]).flatMap SendChunk.bytes =
          [] ++ (sendChunk cfg x.key x.sendChunk).bytes := by
        simp only [sentItem, List.map_cons, List.map_nil, List.flatMap_cons, List.flatMap_nil,
          List.append_nil, List.nil_append]
      have hrun : runChunk cfg clientId batchSize recipeBatchSize s x =
          .ok (sendLogical clientId batchSize recipeBatchSize s
            (sendChunk cfg x.key x.sendChunk) x.key) := by
        rcases ht with ht | ht | ht <;> simp only [runChunk, sendChunk, ht]
      obtain ⟨hf, hk⟩ := sendLogical_framed batchSize recipeBatchSize x.key h.sent h.cap
        (by rw [List.append_nil]; exact h.holds) hbytes hi hfit hle
      refine ⟨_, ?_, hf, x, rfl, hk⟩
      rw [List.foldlM_cons, hrun]
      rfl

variable (batchSize) in
/-- What a message of `batchSize` chunks takes at most. -/
theorem length_pending_le {items : List (List SendChunk)} (hi : ∀ i ∈ items, LogicalItem i)
    (hle : items.length ≤ batchSize) :
    (itemsBytes items).length ≤ 2 * batchSize * sendChunkSize := by
  refine (length_itemsBytes hi).2.trans ?_
  calc items.length * (2 * sendChunkSize)
      ≤ batchSize * (2 * sendChunkSize) := Nat.mul_le_mul_right _ hle
    _ = 2 * batchSize * sendChunkSize := by rw [← Nat.mul_assoc, Nat.mul_comm batchSize 2]

/-- The keys recorded for the turns: that of each turn's last element. -/
def turnKeys (turns : List (List SelectComp2Sender)) : List Key :=
  turns.filterMap fun turn => turn.getLast?.map (·.key)

theorem turnKeys_cons {turn : List SelectComp2Sender} {x : SelectComp2Sender}
    (h : turn.getLast? = some x) (turns : List (List SelectComp2Sender)) :
    turnKeys (turn :: turns) = x.key :: turnKeys turns :=
  List.filterMap_cons_some (by rw [h]; rfl)

variable (recipeBatchSize) in
/-- The loop over any number of logical chunks. -/
theorem runTurns_framed {turns : List (List SelectComp2Sender)}
    (ht : ∀ turn ∈ turns, LogicalTurn turn ∧ LogicalItem (sentItem cfg turn)) :
    ∀ {s : SenderState} {b : Batch (List SendChunk)},
      Framed clientId (2 * batchSize * sendChunkSize) s b → b.Sized batchSize →
      (∀ i ∈ b.pending, LogicalItem i) →
      (∀ g ∈ (b.run batchSize (turns.map (sentItem cfg))).close, MessageFits g) →
      ∃ s', turns.flatten.foldlM (runChunk cfg clientId batchSize recipeBatchSize) s = .ok s' ∧
        Framed clientId (2 * batchSize * sendChunkSize) s'
          (b.run batchSize (turns.map (sentItem cfg))) ∧
        s'.keyRecipe = (turnKeys turns).foldl
          (RecipeWriter.add (fun cnt => cnt * chunkHashSize) recipeBatchSize) s.keyRecipe := by
  induction turns with
  | nil => intro s b h _ _ _; exact ⟨s, rfl, h, rfl⟩
  | cons turn turns ih =>
      intro s b h hsz hb hfit
      obtain ⟨hturn, hitem⟩ := ht turn List.mem_cons_self
      have hall : ∀ i ∈ b.pending ++ [sentItem cfg turn], LogicalItem i := by
        intro i hi
        rcases List.mem_append.mp hi with hi | hi
        · exact hb i hi
        · rwa [List.mem_singleton.mp hi]
      obtain ⟨g, hg, hpre⟩ := Batch.exists_batch (n := batchSize) b (sentItem cfg turn)
        (turns.map (sentItem cfg))
      have hle := length_pending_le batchSize hall (by
        rw [List.length_append, List.length_singleton]
        exact hsz.pending)
      obtain ⟨s₁, hrun, hf, x, hx, hkey⟩ :=
        runTurn_framed h hturn hall (MessageFits.of_prefix (hfit g hg) hpre) hle
      have hsz' := hsz.push (sentItem cfg turn)
      have hb' : ∀ i ∈ (b.push batchSize (sentItem cfg turn)).pending, LogicalItem i := by
        intro i hi
        unfold Batch.push at hi
        split at hi
        · exact absurd hi List.not_mem_nil
        · exact hall i hi
      obtain ⟨s', hrun', hf', hkeys⟩ :=
        ih (fun t htm => ht t (List.mem_cons_of_mem _ htm)) hf hsz' hb' hfit
      refine ⟨s', ?_, hf', ?_⟩
      · rw [List.flatten_cons, List.foldlM_append, hrun, ok_bind, hrun']
      · rw [hkeys, hkey, turnKeys_cons hx, List.foldl_cons]

variable (cfg batchSize recipeBatchSize) in
/-- The end of the recipe: what is left is sent, then the head of the file recipe. -/
theorem runChunk_recipe {b : Batch (List SendChunk)} {x : SelectComp2Sender}
    (h : Framed clientId cap s b) (ht : x.sendChunk.type = .recipeChunk)
    (hcap : x.sendChunk.data.length ≤ cap)
    (hlt : x.sendChunk.data.length + networkHeadSize < 2 ^ 32)
    (hfit : ∀ g ∈ b.close, MessageFits g) :
    ∃ s', runChunk cfg clientId batchSize recipeBatchSize s x = .ok s' ∧
      s'.sent = b.close.map (uploadMessage clientId) ++
        [recipeEndMessage clientId x.sendChunk.data] ∧
      s'.sendChunkBuf.dataBuf.length = cap ∧
      s'.keyRecipe = s.keyRecipe.finish fun cnt => cnt * chunkHashSize := by
  have hend : ∀ {buf : SendMsgBuffer}, buf.Holds [] 0 →
      (buf.append x.sendChunk.data).message clientId .clientUploadRecipeEnd =
        recipeEndMessage clientId x.sendChunk.data := by
    intro buf hbuf
    have happ := hbuf.append x.sendChunk.data (by rw [List.length_nil]; omega)
    rw [List.nil_append] at happ
    exact happ.message hlt clientId .clientUploadRecipeEnd
  have hlen : ∀ {buf : SendMsgBuffer}, buf.size = 0 → buf.dataBuf.length = cap →
      (buf.append x.sendChunk.data).dataBuf.length = cap := by
    intro buf h0 hl
    rw [SendMsgBuffer.length_append (by rw [h0, hl]; omega), hl]
  simp only [runChunk, ht, h.holds.curItemNum]
  by_cases hp : b.pending = []
  · have h0 : s.sendChunkBuf.Holds [] 0 := by
      have hh := h.holds
      rwa [hp] at hh
    refine ⟨_, rfl, ?_, ?_, ?_⟩
    · simp only [hp, List.length_nil, ne_eq, not_true_eq_false, if_false, processRecipeEnd]
      rw [hend h0, h.sent, Batch.close, if_pos hp]
    · simp only [hp, List.length_nil, ne_eq, not_true_eq_false, if_false, processRecipeEnd]
      exact hlen h0.size h.cap
    · simp only [hp, List.length_nil, ne_eq, not_true_eq_false, if_false, processRecipeEnd]
  · have hne : b.pending.length ≠ 0 := fun h0 => hp (List.length_eq_zero_iff.mp h0)
    have hmem : b.pending ∈ b.close := by
      rw [Batch.close, if_neg hp]
      exact List.mem_append_right _ (List.mem_singleton.mpr rfl)
    refine ⟨_, rfl, ?_, ?_, ?_⟩
    · simp only [ne_eq, hne, not_false_eq_true, if_true, processRecipeEnd, sendChunks]
      rw [hend (SendMsgBuffer.holds_clear _), h.holds.message (hfit _ hmem) clientId
        .clientUploadChunk, h.sent, Batch.close, if_neg hp, List.map_append, List.map_singleton]
      rfl
    · simp only [ne_eq, hne, not_false_eq_true, if_true, processRecipeEnd, sendChunks]
      exact hlen rfl h.cap
    · simp only [ne_eq, hne, not_false_eq_true, if_true, processRecipeEnd, sendChunks]

variable (recipeBatchSize) in
/-- A whole upload: the messages are the pieces of the batching, then the head of
the recipe, and the buffer was never outgrown. -/
theorem run_framed {turns : List (List SelectComp2Sender)} {x : SelectComp2Sender}
    (hn : 0 < batchSize)
    (ht : ∀ turn ∈ turns, LogicalTurn turn ∧ LogicalItem (sentItem cfg turn))
    (hx : x.sendChunk.type = .recipeChunk) (hxd : x.sendChunk.data.length ≤ sendChunkSize)
    (h : Framed clientId (2 * batchSize * sendChunkSize) s Batch.empty)
    (hfit : ∀ g ∈ Batch.batches batchSize (turns.map (sentItem cfg)), MessageFits g) :
    ∃ s', run cfg clientId batchSize recipeBatchSize s (turns.flatten ++ [x]) = .ok s' ∧
      s'.sent = (Batch.batches batchSize (turns.map (sentItem cfg))).map (uploadMessage clientId) ++
        [recipeEndMessage clientId x.sendChunk.data] ∧
      s'.sendChunkBuf.dataBuf.length = 2 * batchSize * sendChunkSize ∧
      s'.keyRecipe = ((turnKeys turns).foldl
        (RecipeWriter.add (fun cnt => cnt * chunkHashSize) recipeBatchSize) s.keyRecipe).finish
          fun cnt => cnt * chunkHashSize := by
  have hmax : sendChunkSize + networkHeadSize < 2 ^ 32 := by decide
  have hcap : sendChunkSize ≤ 2 * batchSize * sendChunkSize :=
    Nat.le_mul_of_pos_left _ (Nat.mul_pos (by decide) hn)
  obtain ⟨s₁, hrun, hf, hkeys⟩ := runTurns_framed recipeBatchSize ht h
    (Batch.sized_empty hn) (fun i hi => absurd hi List.not_mem_nil) hfit
  obtain ⟨s', hrec, hsent, hbuf, hfin⟩ :=
    runChunk_recipe cfg batchSize recipeBatchSize hf hx (hxd.trans hcap) (by omega) hfit
  refine ⟨s', ?_, hsent, hbuf, by rw [hfin, hkeys]⟩
  rw [run, List.foldlM_append, hrun, ok_bind, List.foldlM_cons, hrec]
  rfl

end SenderThd

end EDRStore
