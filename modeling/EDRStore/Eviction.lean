/-
# `EDRStore.Eviction` — aged features on their way to the inform cache

At the end of an upload `CacheMeta::EvictFeature` walks over its index, copies
the aged features into a send buffer and erases them, and whenever
`send_recipe_batch_size_` are together sends them; `ProcessEvictFeature` cuts
each message into queue elements of `feature_batch_size_` features at most.

    aged      f₁ f₂ f₃ f₄ f₅ f₆ f₇        batches of 3, elements of 2
    messages  f₁ f₂ f₃ | f₄ f₅ f₆ | f₇
    elements  f₁ f₂ | f₃ | f₄ f₅ | f₆ | f₇

Nothing is lost or doubled on the way, as long as a message can be counted in
the 32 bits of its header (a full message of 2^29 features has a size of zero),
fits the server's receive buffer, which has room for so many chunks and not for
so many features, and an element fits the data of one chunk.
-/
import EDRStore.CacheMeta
import EDRStore.Lib.Batch
import EDRStore.Upload
import EDRStore.Wire

namespace EDRStore

/-! ## The client -/

/-- `CacheMeta` with its send buffer, and what `SendData` was called with. -/
structure EvictState where
  cacheMeta : CacheMeta
  evictFeatureBuf : SendMsgBuffer
  sent : List Bytes

namespace CacheMeta

variable (clientId sendRecipeBatchSize : Nat)

/-- `CacheMeta::SendFeatures`. -/
def sendFeatures (s : EvictState) : EvictState :=
  { s with
    evictFeatureBuf := s.evictFeatureBuf.clear
    sent := s.sent ++ [s.evictFeatureBuf.message clientId .clientUploadFeature] }

/-- A feature copied behind those the buffer holds, and the message when
`send_recipe_batch_size_` are together. -/
def addFeature (s : EvictState) (f : Feature) : EvictState :=
  let s := { s with
    evictFeatureBuf := (s.evictFeatureBuf.append (toLe 8 f.toNat)).countItem }
  if s.evictFeatureBuf.curItemNum % sendRecipeBatchSize = 0 then sendFeatures clientId s else s

/-- One turn of the loop of `EvictFeature`. -/
def evictTurn (s : EvictState) (e : Feature × Nat) : EvictState :=
  if s.cacheMeta.aged e.1 then
    let s := addFeature clientId sendRecipeBatchSize s e.1
    { s with cacheMeta := s.cacheMeta.eraseFeature e.1 }
  else s

/-- The loop, over the entries in the order of the iterator. -/
def evictLoop (s : EvictState) (order : List (Feature × Nat)) : EvictState :=
  order.foldl (evictTurn clientId sendRecipeBatchSize) s

/-- `CacheMeta::EvictFeature`. -/
def evictFeature (s : EvictState) (order : List (Feature × Nat)) : EvictState :=
  let s := evictLoop clientId sendRecipeBatchSize s order
  -- process the tail
  if s.evictFeatureBuf.curItemNum ≠ 0 then sendFeatures clientId s else s

/-- What the constructor allocates for the features, in 64 bits with the header. -/
def evictBufSize : Nat := (sendRecipeBatchSize * 8 + networkHeadSize) % 2 ^ 64 - networkHeadSize

end CacheMeta

/-! ## The server -/

namespace DataRecvThd

/-- The `i`-th feature in the data of a message. -/
def featureAt (dataBuf : Bytes) (i : Nat) : Feature := UInt64.ofNat (ofLe (slice dataBuf (8 * i) 8))

/-- The `n` features from the `i`-th on. -/
def featuresAt (dataBuf : Bytes) (i n : Nat) : List Feature :=
  (List.range' i n).map (featureAt dataBuf)

/-- What `InitUploadBuffer` allocates to receive in, in 64 bits. -/
def recvBufSize (sendChunkBatchSize : Nat) : Nat :=
  (2 * sendChunkBatchSize * sendChunkSize + networkHeadSize) % 2 ^ 64

/-- `memcpy` of the `n` features from the `i`-th on to the data of a queue element;
`none` where it would leave one of the two arrays. -/
def evictPiece (dataBuf : Bytes) (i n : Nat) : Option (List Feature) :=
  if 8 * (i + n) ≤ dataBuf.length ∧ 8 * n ≤ encMaxChunkSize then some (featuresAt dataBuf i n)
  else none

/-- The loop of `DataRecvThd::ProcessEvictFeature`: the features of each element
pushed.  Every turn takes one feature at least. -/
def evictPieces (featureBatchSize : Nat) (dataBuf : Bytes) (recvFeatureNum : Nat) :
    Nat → Nat → Option (List (List Feature))
  | 0, _ => some []
  | fuel + 1, procFeatureNum =>
      if procFeatureNum = recvFeatureNum then some []
      else if recvFeatureNum - procFeatureNum > featureBatchSize then do
        let piece ← evictPiece dataBuf procFeatureNum featureBatchSize
        let pieces ← evictPieces featureBatchSize dataBuf recvFeatureNum fuel
          (u32 (procFeatureNum + featureBatchSize))
        some (piece :: pieces)
      else do
        let piece ← evictPiece dataBuf procFeatureNum (recvFeatureNum - procFeatureNum)
        let pieces ← evictPieces featureBatchSize dataBuf recvFeatureNum fuel
          (u32 (procFeatureNum + (recvFeatureNum - procFeatureNum)))
        some (piece :: pieces)

/-- One message received into the buffer, whose old contents lie behind it, and
what is pushed for it; `none` where the message does not fit the buffer. -/
def recvFeatures (featureBatchSize : Nat) (recvBuf message : Bytes) :
    Option (List (List Feature)) :=
  if message.length ≤ recvBuf.length then
    let buf := memcpy recvBuf 0 message
    let head := NetworkHead.decode (buf.take networkHeadSize)
    evictPieces featureBatchSize (buf.drop networkHeadSize) head.curItemNum head.curItemNum 0
  else none

/-- One message after the other, in the same buffer. -/
def recvEvictions (featureBatchSize : Nat) : Bytes → List Bytes → Option (List (List Feature))
  | _, [] => some []
  | recvBuf, message :: rest => do
      let pieces ← recvFeatures featureBatchSize recvBuf message
      let pieces' ← recvEvictions featureBatchSize (memcpy recvBuf 0 message) rest
      some (pieces ++ pieces')

end DataRecvThd

/-! ## What the client gathers -/

/-- Features as they stand in a message. -/
def featureBytes (fs : List Feature) : Bytes := fs.flatMap fun f => toLe 8 f.toNat

@[simp] theorem length_featureBytes (fs : List Feature) :
    (featureBytes fs).length = 8 * fs.length := by
  induction fs with
  | nil => rfl
  | cons f fs ih =>
      rw [featureBytes, List.flatMap_cons, List.length_append, length_toLe, List.length_cons]
      show 8 + (featureBytes fs).length = _
      omega

theorem featureBytes_append (fs gs : List Feature) :
    featureBytes (fs ++ gs) = featureBytes fs ++ featureBytes gs := List.flatMap_append

theorem featureBytes_concat (fs : List Feature) (f : Feature) :
    featureBytes (fs ++ [f]) = featureBytes fs ++ toLe 8 f.toNat := by
  rw [featureBytes_append]
  exact congrArg _ (List.flatMap_singleton _ _)

/-- The message that carries `fs`. -/
def featureMessage (clientId : Nat) (fs : List Feature) : Bytes :=
  NetworkHead.encode ⟨clientId, MsgType.clientUploadFeature.code, fs.length, 8 * fs.length⟩ ++
    featureBytes fs

/-- The client's buffer holds what is pending in the plain batching `b`, and it
has sent what was handed over. -/
structure Gathered (clientId cap : Nat) (s : EvictState) (b : Batch Feature) : Prop where
  holds : s.evictFeatureBuf.Holds (featureBytes b.pending) b.pending.length
  cap : s.evictFeatureBuf.dataBuf.length = cap
  sent : s.sent = b.out.map (featureMessage clientId)

namespace CacheMeta

variable {clientId n cap : Nat} {s : EvictState} {b : Batch Feature}

theorem sendFeatures_gathered (h : Gathered clientId cap s b)
    (hfit : 8 * b.pending.length + networkHeadSize < 2 ^ 32) :
    Gathered clientId cap (sendFeatures clientId s) ⟨b.out ++ [b.pending], []⟩ where
  holds := SendMsgBuffer.holds_clear _
  cap := h.cap
  sent := by
    have hmsg := h.holds.message (by rw [length_featureBytes]; exact hfit) clientId
      .clientUploadFeature
    rw [length_featureBytes] at hmsg
    show s.sent ++ [_] = _
    rw [hmsg, h.sent, List.map_append, List.map_singleton, featureMessage]

/-- One feature more: the client takes the step of `Batch`. -/
theorem addFeature_gathered (h : Gathered clientId cap s b) {f : Feature}
    (hlt : 8 * (b.pending.length + 1) < 2 ^ 32) (hcap : 8 * (b.pending.length + 1) ≤ cap)
    (hfit : (b.pending.length + 1) % n = 0 →
      8 * (b.pending.length + 1) + networkHeadSize < 2 ^ 32) :
    Gathered clientId cap (addFeature clientId n s f) (b.push n f) ∧
      (addFeature clientId n s f).cacheMeta = s.cacheMeta := by
  have hlen : (toLe 8 f.toNat).length = 8 := length_toLe _ _
  have hadd := h.holds.append (toLe 8 f.toNat) (by rw [length_featureBytes, hlen]; omega)
  rw [← featureBytes_concat] at hadd
  have hcnt := hadd.countItem (by omega)
  have hsame : (s.evictFeatureBuf.append (toLe 8 f.toNat)).dataBuf.length = cap := by
    rw [SendMsgBuffer.length_append (by rw [h.holds.size, length_featureBytes, hlen, h.cap]; omega),
      h.cap]
  have hnum : (s.evictFeatureBuf.append (toLe 8 f.toNat)).countItem.curItemNum =
      b.pending.length + 1 := hcnt.curItemNum
  have hone : (b.pending ++ [f]).length = b.pending.length + 1 := List.length_append
  have hg : Gathered clientId cap
      { s with evictFeatureBuf := (s.evictFeatureBuf.append (toLe 8 f.toNat)).countItem }
      ⟨b.out, b.pending ++ [f]⟩ := ⟨hone ▸ hcnt, hsame, h.sent⟩
  unfold addFeature Batch.push
  simp only [hnum, hone]
  split
  · rename_i hmod
    exact ⟨sendFeatures_gathered hg (by rw [hone]; exact hfit hmod), rfl⟩
  · exact ⟨hg, rfl⟩

/-- Erasing a feature does not make another one older. -/
theorem aged_eraseFeature {m : CacheMeta} {f g : Feature} (h : g ≠ f) :
    (m.eraseFeature f).aged g = m.aged g := by
  unfold aged eraseFeature
  rw [Index.lookup_erase_ite, if_neg h]

theorem filter_eraseFeature {m : CacheMeta} {f : Feature} {fs : List Feature} (h : f ∉ fs) :
    fs.filter (m.eraseFeature f).aged = fs.filter m.aged :=
  List.filter_congr fun _ hg => aged_eraseFeature fun heq => h (heq ▸ hg)

theorem lookup_eraseFeature {m : CacheMeta} (f g : Feature) :
    (m.eraseFeature f).feature2VersionIdx.lookup g =
      if g = f then none else m.feature2VersionIdx.lookup g := Index.lookup_erase_ite _ _ _

/-- The whole loop: the aged features are batched in the order of the iterator,
and taken out of the index. -/
theorem evictLoop_gathered {order : List (Feature × Nat)} : ∀ {s : EvictState} {b : Batch Feature},
    Gathered clientId cap s b → b.Sized n → (order.map Prod.fst).Nodup →
    ∀ aged, (order.map Prod.fst).filter s.cacheMeta.aged = aged →
    8 * min n (b.pending.length + aged.length) < 2 ^ 32 →
    8 * min n (b.pending.length + aged.length) ≤ cap →
    (b.pending.length + aged.length < n ∨ 8 * n + networkHeadSize < 2 ^ 32) →
    Gathered clientId cap (evictLoop clientId n s order) (b.run n aged) ∧
      (∀ g, (evictLoop clientId n s order).cacheMeta.feature2VersionIdx.lookup g =
        if g ∈ aged then none else s.cacheMeta.feature2VersionIdx.lookup g) ∧
      (evictLoop clientId n s order).cacheMeta.curVersionNum = s.cacheMeta.curVersionNum := by
  induction order with
  | nil =>
      intro s b h _ _ aged haged _ _ _
      subst haged
      exact ⟨h, fun _ => (if_neg List.not_mem_nil).symm, rfl⟩
  | cons e order ih =>
      intro s b h hs hnd aged haged hroom hcap hmsg
      rw [List.map_cons, List.nodup_cons] at hnd
      rw [List.map_cons] at haged
      rw [evictLoop, List.foldl_cons]
      by_cases ha : s.cacheMeta.aged e.1
      · rw [List.filter_cons_of_pos ha] at haged
        subst haged
        rw [List.length_cons] at hroom hcap hmsg
        have hp := hs.pending
        have hiff := Batch.mod_eq_zero_iff hp
        obtain ⟨hadd, hmeta⟩ := addFeature_gathered (n := n) (f := e.1) h (by omega) (by omega)
          (fun hmod => by have := hiff.mp hmod; omega)
        have hturn : evictTurn clientId n s e = { addFeature clientId n s e.1 with
            cacheMeta := s.cacheMeta.eraseFeature e.1 } := by
          rw [evictTurn, if_pos ha]
          simp only [hmeta]
        have hpend : (b.push n e.1).pending.length ≤ b.pending.length + 1 := by
          unfold Batch.push
          split
          · exact Nat.zero_le _
          · exact Nat.le_of_eq List.length_append
        obtain ⟨hrun, hlook, hcur⟩ := ih (s := evictTurn clientId n s e) (b := b.push n e.1)
          (hturn ▸ ⟨hadd.holds, hadd.cap, hadd.sent⟩) (hs.push e.1) hnd.2
          ((order.map Prod.fst).filter s.cacheMeta.aged)
          (by rw [hturn]; exact filter_eraseFeature hnd.1) (by omega) (by omega) (by omega)
        refine ⟨hrun, fun g => (hlook g).trans ?_, hcur.trans (by rw [hturn]; rfl)⟩
        rw [hturn]
        simp only [lookup_eraseFeature, List.mem_cons]
        by_cases hg : g = e.1
        · simp only [hg, true_or, if_true, ite_self]
        · simp only [hg, false_or, if_false]
      · rw [List.filter_cons_of_neg ha] at haged
        have hturn : evictTurn clientId n s e = s := by rw [evictTurn, if_neg ha]
        rw [hturn]
        exact ih h hs hnd.2 aged haged hroom hcap hmsg

/-- The tail is sent as well, and the buffer is empty afterwards. -/
theorem evictFeature_gathered {order : List (Feature × Nat)}
    (h : Gathered clientId cap (evictLoop clientId n s order) b)
    (hfit : 8 * b.pending.length + networkHeadSize < 2 ^ 32) :
    (evictFeature clientId n s order).sent = b.close.map (featureMessage clientId) ∧
      (evictFeature clientId n s order).evictFeatureBuf.size = 0 ∧
      (evictFeature clientId n s order).evictFeatureBuf.curItemNum = 0 ∧
      (evictFeature clientId n s order).cacheMeta = (evictLoop clientId n s order).cacheMeta := by
  have hnum := h.holds.curItemNum
  have hsize := h.holds.size
  unfold evictFeature Batch.close
  simp only [hnum]
  by_cases hp : b.pending = []
  · rw [hp] at hnum hsize ⊢
    rw [List.length_nil, if_neg (not_not.mpr rfl), if_pos rfl]
    exact ⟨h.sent, hsize, hnum, rfl⟩
  · have hlen : b.pending.length ≠ 0 := fun h0 => hp (List.length_eq_zero_iff.mp h0)
    rw [if_pos hlen, if_neg hp]
    exact ⟨(sendFeatures_gathered h hfit).sent, rfl, rfl, rfl⟩

end CacheMeta

/-! ## What the server takes apart -/

namespace DataRecvThd

variable {dataBuf : Bytes} {featureBatchSize : Nat}

theorem featuresAt_add (dataBuf : Bytes) (i k l : Nat) :
    featuresAt dataBuf i (k + l) = featuresAt dataBuf i k ++ featuresAt dataBuf (i + k) l := by
  unfold featuresAt
  rw [← List.map_append, List.range'_append_1]

@[simp] theorem length_featuresAt (dataBuf : Bytes) (i k : Nat) :
    (featuresAt dataBuf i k).length = k := by
  rw [featuresAt, List.length_map, List.length_range']

/-- The features behind `pre`. -/
theorem featuresAt_spec {fs : List Feature} : ∀ pre : List Feature,
    featureBytes (pre ++ fs) <+: dataBuf → featuresAt dataBuf pre.length fs.length = fs := by
  induction fs with
  | nil => intro pre _; rfl
  | cons f fs ih =>
      intro pre h
      have hf : featureAt dataBuf pre.length = f := by
        have hpre : featureBytes pre ++ toLe 8 f.toNat <+: dataBuf := by
          refine List.IsPrefix.trans ?_ h
          have hsplit : pre ++ f :: fs = pre ++ [f] ++ fs := List.append_cons pre f fs
          rw [← featureBytes_concat, hsplit, featureBytes_append (pre ++ [f]) fs]
          exact List.prefix_append _ _
        have hslice := slice_mid_of_prefix hpre
        rw [length_featureBytes, length_toLe] at hslice
        rw [featureAt, hslice, SendChunkHeader.word_back]
      have hrest := ih (pre ++ [f]) (by rwa [List.append_assoc])
      rw [List.length_append, List.length_singleton] at hrest
      rw [List.length_cons, Nat.add_comm fs.length 1, featuresAt_add, hrest]
      show [featureAt dataBuf pre.length] ++ fs = _
      rw [hf, List.singleton_append]

theorem evictPiece_eq_some {i k : Nat} {piece : List Feature}
    (h : evictPiece dataBuf i k = some piece) : piece = featuresAt dataBuf i k := by
  unfold evictPiece at h
  split at h
  · exact (Option.some.inj h).symm
  · exact nomatch h

/-- The elements pushed are the features of the message, in order. -/
theorem evictPieces_eq_some {recvFeatureNum : Nat} (hb : 0 < featureBatchSize)
    (hr : recvFeatureNum < 2 ^ 32) {fuel : Nat} : ∀ {procFeatureNum : Nat}
    {pieces : List (List Feature)},
    procFeatureNum ≤ recvFeatureNum → recvFeatureNum - procFeatureNum ≤ fuel →
    evictPieces featureBatchSize dataBuf recvFeatureNum fuel procFeatureNum = some pieces →
    pieces.flatten = featuresAt dataBuf procFeatureNum (recvFeatureNum - procFeatureNum) ∧
      ∀ g ∈ pieces, 0 < g.length ∧ g.length ≤ featureBatchSize := by
  induction fuel with
  | zero =>
      intro proc pieces hp hf h
      cases h
      rw [Nat.le_zero.mp hf]
      exact ⟨rfl, fun g hg => absurd hg List.not_mem_nil⟩
  | succ fuel ih =>
      intro proc pieces hp hf h
      rw [evictPieces] at h
      split at h
      · rename_i heq
        cases h
        rw [heq, Nat.sub_self]
        exact ⟨rfl, fun g hg => absurd hg List.not_mem_nil⟩
      · -- the next element has `k` features, then the loop goes on behind them
        have hturn : ∀ {k : Nat} {piece : List Feature} {rest : List (List Feature)},
            0 < k → k ≤ featureBatchSize → proc + k ≤ recvFeatureNum →
            evictPiece dataBuf proc k = some piece →
            evictPieces featureBatchSize dataBuf recvFeatureNum fuel (u32 (proc + k)) = some rest →
            (piece :: rest).flatten = featuresAt dataBuf proc (recvFeatureNum - proc) ∧
              ∀ g ∈ piece :: rest, 0 < g.length ∧ g.length ≤ featureBatchSize := by
          intro k piece rest hk hkb hkr hpiece hrest
          rw [u32_of_lt (by omega)] at hrest
          obtain ⟨hflat, hall⟩ := ih (by omega) (by omega) hrest
          rw [evictPiece_eq_some hpiece]
          refine ⟨?_, fun g hg => ?_⟩
          · rw [List.flatten_cons, hflat, ← featuresAt_add]
            congr 1
            omega
          · rcases List.mem_cons.mp hg with rfl | hg
            · rw [length_featuresAt]
              exact ⟨hk, hkb⟩
            · exact hall g hg
        rename_i hne
        split at h
        · rename_i hlong
          obtain ⟨piece, hpiece, h⟩ := Option.bind_eq_some_iff.mp h
          obtain ⟨rest, hrest, h⟩ := Option.bind_eq_some_iff.mp h
          cases h
          exact hturn hb (Nat.le_refl _) (by omega) hpiece hrest
        · rename_i hshort
          obtain ⟨piece, hpiece, h⟩ := Option.bind_eq_some_iff.mp h
          obtain ⟨rest, hrest, h⟩ := Option.bind_eq_some_iff.mp h
          cases h
          exact hturn (by omega) (by omega) (by omega) hpiece hrest

/-- Where the features are all in the buffer and an element has room for those it
gets, no copy leaves its array. -/
theorem evictPieces_isSome {recvFeatureNum : Nat} (hb : 0 < featureBatchSize)
    (hr : recvFeatureNum < 2 ^ 32) (hdata : 8 * recvFeatureNum ≤ dataBuf.length)
    (hroom : 8 * min featureBatchSize recvFeatureNum ≤ encMaxChunkSize) {fuel : Nat} :
    ∀ {procFeatureNum : Nat}, procFeatureNum ≤ recvFeatureNum →
      recvFeatureNum - procFeatureNum ≤ fuel →
      ∃ pieces,
        evictPieces featureBatchSize dataBuf recvFeatureNum fuel procFeatureNum = some pieces := by
  induction fuel with
  | zero => exact fun _ _ => ⟨[], rfl⟩
  | succ fuel ih =>
      intro proc hp hf
      rw [evictPieces]
      split
      · exact ⟨[], rfl⟩
      · rename_i hne
        have hturn : ∀ k, 0 < k → k ≤ featureBatchSize → proc + k ≤ recvFeatureNum →
            evictPiece dataBuf proc k = some (featuresAt dataBuf proc k) ∧
            ∃ rest, evictPieces featureBatchSize dataBuf recvFeatureNum fuel (u32 (proc + k)) =
              some rest := by
          intro k hk hkb hkr
          refine ⟨if_pos ⟨by omega, by omega⟩, ?_⟩
          rw [u32_of_lt (by omega)]
          exact ih (by omega) (by omega)
        split
        · rename_i hlong
          obtain ⟨hpiece, rest, hrest⟩ := hturn featureBatchSize hb (Nat.le_refl _) (by omega)
          exact ⟨_, by rw [hpiece, hrest]; rfl⟩
        · rename_i hshort
          obtain ⟨hpiece, rest, hrest⟩ :=
            hturn (recvFeatureNum - proc) (by omega) (by omega) (by omega)
          exact ⟨_, by rw [hpiece, hrest]; rfl⟩

theorem featureMessage_fits {clientId : Nat} (hc : clientId < 2 ^ 32) {fs : List Feature}
    (hfit : 8 * fs.length + networkHeadSize < 2 ^ 32) :
    NetworkHead.Fits ⟨clientId, MsgType.clientUploadFeature.code, fs.length, 8 * fs.length⟩ :=
  ⟨hc, MsgType.code_lt .clientUploadFeature, show fs.length < 2 ^ 32 by omega,
    show 8 * fs.length < 2 ^ 32 by omega⟩

@[simp] theorem length_featureMessage (clientId : Nat) (fs : List Feature) :
    (featureMessage clientId fs).length = 8 * fs.length + networkHeadSize := by
  rw [featureMessage, List.length_append, NetworkHead.length_encode, length_featureBytes,
    Nat.add_comm]

/-- A message that fits gives back its features, whatever the buffer held before. -/
theorem recvFeatures_spec {clientId : Nat} (hc : clientId < 2 ^ 32) (hb : 0 < featureBatchSize)
    {fs : List Feature} (hfit : 8 * fs.length + networkHeadSize < 2 ^ 32) {recvBuf : Bytes}
    (hrecv : 8 * fs.length + networkHeadSize ≤ recvBuf.length)
    (hroom : 8 * min featureBatchSize fs.length ≤ encMaxChunkSize) :
    ∃ pieces, recvFeatures featureBatchSize recvBuf (featureMessage clientId fs) = some pieces ∧
      pieces.flatten = fs ∧ ∀ g ∈ pieces, 0 < g.length ∧ g.length ≤ featureBatchSize := by
  have hf := featureMessage_fits hc hfit
  obtain ⟨rest, hdec, hdrop⟩ := NetworkHead.received hf recvBuf (featureBytes fs)
  rw [recvFeatures, length_featureMessage, if_pos hrecv]
  simp only [featureMessage, hdec, hdrop]
  obtain ⟨pieces, hpieces⟩ : ∃ pieces, evictPieces featureBatchSize (featureBytes fs ++ rest)
      fs.length fs.length 0 = some pieces :=
    evictPieces_isSome hb hf.curItemNum
      (by rw [List.length_append, length_featureBytes]; exact Nat.le_add_right _ _) hroom
      (Nat.zero_le fs.length) (Nat.sub_le fs.length 0)
  obtain ⟨hflat, hall⟩ := evictPieces_eq_some hb hf.curItemNum (Nat.zero_le fs.length)
    (Nat.sub_le fs.length 0) hpieces
  refine ⟨pieces, hpieces, hflat.trans ?_, hall⟩
  exact featuresAt_spec [] (List.prefix_append _ _)

/-- A message that does not fit the buffer, or all of whose features would be copied
to one element that has no room for them. -/
theorem recvFeatures_eq_none {clientId : Nat} (hc : clientId < 2 ^ 32) {fs : List Feature}
    (hfit : 8 * fs.length + networkHeadSize < 2 ^ 32) {recvBuf : Bytes}
    (hout : recvBuf.length < 8 * fs.length + networkHeadSize ∨
      fs.length ≤ featureBatchSize ∧ encMaxChunkSize < 8 * fs.length) :
    recvFeatures featureBatchSize recvBuf (featureMessage clientId fs) = none := by
  rw [recvFeatures, length_featureMessage]
  split
  · rename_i hrecv
    obtain ⟨hle, hlong⟩ := hout.resolve_left (Nat.not_lt.mpr hrecv)
    obtain ⟨rest, hdec, hdrop⟩ :=
      NetworkHead.received (featureMessage_fits hc hfit) recvBuf (featureBytes fs)
    simp only [featureMessage, hdec, hdrop]
    obtain ⟨k, hk⟩ : ∃ k, fs.length = k + 1 := ⟨fs.length - 1, by omega⟩
    rw [hk] at hle hlong ⊢
    rw [evictPieces, if_neg (Nat.succ_ne_zero k).symm, if_neg (by omega), Nat.sub_zero, evictPiece,
      if_neg (fun h => Nat.not_lt.mpr h.2 hlong)]
    rfl
  · rfl

theorem recvEvictions_spec {clientId : Nat} (hc : clientId < 2 ^ 32) (hb : 0 < featureBatchSize)
    {groups : List (List Feature)}
    (hfit : ∀ g ∈ groups, 8 * g.length + networkHeadSize < 2 ^ 32)
    (hroom : ∀ g ∈ groups, 8 * min featureBatchSize g.length ≤ encMaxChunkSize) :
    ∀ {recvBuf : Bytes}, (∀ g ∈ groups, 8 * g.length + networkHeadSize ≤ recvBuf.length) →
    ∃ pieces,
      recvEvictions featureBatchSize recvBuf (groups.map (featureMessage clientId)) = some pieces ∧
      pieces.flatten = groups.flatten ∧
      ∀ g ∈ pieces, 0 < g.length ∧ g.length ≤ featureBatchSize := by
  induction groups with
  | nil => exact fun _ => ⟨[], rfl, rfl, fun g hg => absurd hg List.not_mem_nil⟩
  | cons g groups ih =>
      intro recvBuf hrecv
      have hlen : (memcpy recvBuf 0 (featureMessage clientId g)).length = recvBuf.length :=
        length_memcpy (by
          rw [Nat.zero_add, length_featureMessage]
          exact hrecv g List.mem_cons_self)
      obtain ⟨ps, hps, hflat, hall⟩ := recvFeatures_spec hc hb (hfit g List.mem_cons_self)
        (hrecv g List.mem_cons_self) (hroom g List.mem_cons_self)
      obtain ⟨qs, hqs, hflat', hall'⟩ := ih (fun g' hg' => hfit g' (List.mem_cons_of_mem _ hg'))
        (fun g' hg' => hroom g' (List.mem_cons_of_mem _ hg'))
        (fun g' hg' => hlen ▸ hrecv g' (List.mem_cons_of_mem _ hg'))
      refine ⟨ps ++ qs, ?_, ?_, fun p hp => ?_⟩
      · rw [List.map_cons, recvEvictions, hps, hqs]
        rfl
      · rw [List.flatten_append, hflat, hflat', List.flatten_cons]
      · rcases List.mem_append.mp hp with hp | hp
        · exact hall p hp
        · exact hall' p hp

end DataRecvThd

/-! ## From the index to the inform cache -/

namespace CacheMeta

/-- `cur_version_num_ - version`, in 32 bits. -/
def age (m : CacheMeta) (version : Nat) : Nat :=
  (m.curVersionNum + (2 ^ 32 - version % 2 ^ 32)) % 2 ^ 32

/-- `CacheMeta` before `EvictFeature`, with its buffer empty. -/
def beforeEvict (m : CacheMeta) (dataBuf : Bytes) : EvictState where
  cacheMeta := m
  evictFeatureBuf := { dataBuf := dataBuf, size := 0, curItemNum := 0 }
  sent := []

/-- The elements pushed for `m` to become `m'`: the features that left, each once. -/
structure Delivers (m m' : CacheMeta) (featureBatchSize : Nat)
    (pieces : List (List Feature)) : Prop where
  removed : ∀ f, f ∈ pieces.flatten ↔ f ∈ m.feature2VersionIdx ∧ f ∉ m'.feature2VersionIdx
  once : pieces.flatten.Nodup
  sizes : ∀ g ∈ pieces, 0 < g.length ∧ g.length ≤ featureBatchSize

/-- The index keeps the features that are not aged; the elements pushed on the
server have the others, each once; and the buffer is big enough and empty at the
end. -/
structure EvictsExactly (m : CacheMeta) (order : List (Feature × Nat))
    (clientId n featureBatchSize : Nat) (dataBuf recvBuf : Bytes) : Prop where
  index : ∀ f version,
    (evictFeature clientId n (m.beforeEvict dataBuf) order).cacheMeta.feature2VersionIdx.lookup f =
      some version ↔ m.feature2VersionIdx.lookup f = some version ∧ m.age version < lastNPara
  delivered : ∃ pieces,
    DataRecvThd.recvEvictions featureBatchSize recvBuf
      (evictFeature clientId n (m.beforeEvict dataBuf) order).sent = some pieces ∧
    Delivers m (evictFeature clientId n (m.beforeEvict dataBuf) order).cacheMeta featureBatchSize
      pieces
  capacity : ∀ k, (evictLoop clientId n (m.beforeEvict dataBuf)
    (order.take k)).evictFeatureBuf.dataBuf.length = dataBuf.length
  emptied :
    (evictFeature clientId n (m.beforeEvict dataBuf) order).evictFeatureBuf.size = 0 ∧
    (evictFeature clientId n (m.beforeEvict dataBuf) order).evictFeatureBuf.curItemNum = 0

variable {m : CacheMeta} {order : List (Feature × Nat)} {n featureBatchSize : Nat}

theorem aged_iff {f : Feature} :
    m.aged f = true ↔ ∃ version, m.feature2VersionIdx.lookup f = some version ∧
      lastNPara ≤ m.age version := by
  unfold aged
  cases m.feature2VersionIdx.lookup f with
  | none => simp
  | some version => simp [age]

theorem gathered_beforeEvict (m : CacheMeta) (clientId : Nat) (dataBuf : Bytes) :
    Gathered clientId dataBuf.length (m.beforeEvict dataBuf) Batch.empty where
  holds := ⟨List.nil_prefix, rfl, rfl⟩
  cap := rfl
  sent := rfl

/-- Any beginning of the loop stays within the buffer. -/
theorem evictLoop_take (hl : Index.Lists m.feature2VersionIdx order) (hn : 0 < n)
    (hfit : 8 * min n ((order.map Prod.fst).filter m.aged).length + networkHeadSize < 2 ^ 32)
    (clientId : Nat) {dataBuf : Bytes} (hcap : dataBuf.length = 8 * n) (k : Nat) :
    Gathered clientId dataBuf.length (evictLoop clientId n (m.beforeEvict dataBuf) (order.take k))
      (Batch.run n Batch.empty (((order.take k).map Prod.fst).filter m.aged)) ∧
    ∀ g, (evictLoop clientId n (m.beforeEvict dataBuf)
        (order.take k)).cacheMeta.feature2VersionIdx.lookup g =
      if g ∈ ((order.take k).map Prod.fst).filter m.aged then none
      else m.feature2VersionIdx.lookup g := by
  have hhead : 0 < networkHeadSize := by decide
  have hpend : (Batch.empty : Batch Feature).pending.length = 0 := rfl
  have hsub : (((order.take k).map Prod.fst).filter m.aged).length ≤
      ((order.map Prod.fst).filter m.aged).length :=
    (((List.take_sublist k order).map Prod.fst).filter m.aged).length_le
  obtain ⟨hg, hidx, -⟩ := evictLoop_gathered (n := n) (gathered_beforeEvict m clientId dataBuf)
    (Batch.sized_empty hn) (hl.nodup.sublist ((List.take_sublist k order).map Prod.fst))
    (((order.take k).map Prod.fst).filter m.aged) rfl
    (by rw [hpend]; omega) (by rw [hpend]; omega) (by rw [hpend]; omega)
  exact ⟨hg, hidx⟩

/-- No message has more features than the batch size, or than there are. -/
theorem length_group_le (hn : 0 < n) {aged g : List Feature}
    (hg : g ∈ (Batch.run n Batch.empty aged).close) : g.length ≤ min n aged.length := by
  have hle := (Batch.length_of_mem_batches hn (l := aged) hg).2
  have hsub := (List.sublist_flatten_of_mem hg).length_le
  rw [show (Batch.run n Batch.empty aged).close.flatten = aged from Batch.flatten_batches n aged]
    at hsub
  omega

/-- What is sent, whatever the server makes of it. -/
theorem evictFeature_spec (hl : Index.Lists m.feature2VersionIdx order) (hn : 0 < n)
    (halloc : n * 8 + networkHeadSize < 2 ^ 64)
    (hfit : 8 * min n ((order.map Prod.fst).filter m.aged).length + networkHeadSize < 2 ^ 32)
    (clientId : Nat) {dataBuf : Bytes} (hd : dataBuf.length = evictBufSize n) :
    (evictFeature clientId n (m.beforeEvict dataBuf) order).sent =
        (Batch.run n Batch.empty ((order.map Prod.fst).filter m.aged)).close.map
          (featureMessage clientId) ∧
      (evictFeature clientId n (m.beforeEvict dataBuf) order).evictFeatureBuf.size = 0 ∧
      (evictFeature clientId n (m.beforeEvict dataBuf) order).evictFeatureBuf.curItemNum = 0 ∧
      (∀ f, (evictFeature clientId n (m.beforeEvict dataBuf)
        order).cacheMeta.feature2VersionIdx.lookup f =
          if m.aged f = true then none else m.feature2VersionIdx.lookup f) ∧
      ∀ k, (evictLoop clientId n (m.beforeEvict dataBuf)
        (order.take k)).evictFeatureBuf.dataBuf.length = dataBuf.length := by
  have hcap : dataBuf.length = 8 * n := by
    rw [hd, evictBufSize, Nat.mod_eq_of_lt halloc, Nat.add_sub_cancel, Nat.mul_comm]
  have hloop := evictLoop_take hl hn hfit clientId hcap
  obtain ⟨hg, hidx⟩ := hloop order.length
  rw [List.take_length] at hg hidx
  generalize haged : (order.map Prod.fst).filter m.aged = aged at hg hidx hfit
  obtain ⟨hsent, hsize, hnum, hmeta⟩ := evictFeature_gathered hg (by
    by_cases hp : (Batch.run n Batch.empty aged).pending = []
    · rw [hp]
      decide
    · have hle := length_group_le hn (show (Batch.run n Batch.empty aged).pending ∈
          (Batch.run n Batch.empty aged).close by
        rw [Batch.close, if_neg hp]
        exact List.mem_append_right _ (List.mem_singleton.mpr rfl))
      omega)
  have hmem : ∀ f, f ∈ aged ↔ m.aged f = true := by
    intro f
    rw [← haged, List.mem_filter, hl.mem_keys]
    exact ⟨And.right, fun ha => ⟨mem_of_aged ha, ha⟩⟩
  refine ⟨hsent, hsize, hnum, fun f => ?_, fun k => (hloop k).1.cap⟩
  rw [hmeta, hidx f]
  simp only [hmem]

/-- Two of three features are aged. -/
def agedSample : CacheMeta :=
  { feature2VersionIdx := Index.ofList [(7, 1), (8, 2), (9, 1)] (by decide), curVersionNum := 2 }

/-- The last feature of a full message of 4 GiB: the message that is sent is its
header alone. -/
theorem addFeature_wraps {cap : Nat} {s : EvictState} {fs : List Feature} {clientId : Nat}
    (h : Gathered clientId cap s ⟨[], fs⟩) (hlen : fs.length = 2 ^ 29 - 1) (f : Feature) :
    (addFeature clientId (2 ^ 29) s f).sent =
        [NetworkHead.encode ⟨clientId, MsgType.clientUploadFeature.code, 2 ^ 29, 0⟩] ∧
      (addFeature clientId (2 ^ 29) s f).evictFeatureBuf.curItemNum = 0 := by
  have hsize := h.holds.size
  have hnum := h.holds.curItemNum
  rw [length_featureBytes] at hsize
  simp only [hlen] at hsize hnum
  have hsize' : (s.evictFeatureBuf.append (toLe 8 f.toNat)).countItem.size = 0 := by
    show u32 (s.evictFeatureBuf.size + (toLe 8 f.toNat).length) = 0
    rw [hsize, length_toLe]
    rfl
  have hnum' : (s.evictFeatureBuf.append (toLe 8 f.toNat)).countItem.curItemNum = 2 ^ 29 := by
    show u32 (s.evictFeatureBuf.curItemNum + 1) = 2 ^ 29
    rw [hnum]
    rfl
  have hmsg : (s.evictFeatureBuf.append (toLe 8 f.toNat)).countItem.message clientId
      .clientUploadFeature =
        NetworkHead.encode ⟨clientId, MsgType.clientUploadFeature.code, 2 ^ 29, 0⟩ := by
    unfold SendMsgBuffer.message SendMsgBuffer.head
    rw [hnum', hsize']
    exact List.take_left' (NetworkHead.length_encode _)
  unfold addFeature
  simp only [hnum', Nat.mod_self, if_true]
  refine ⟨?_, rfl⟩
  show s.sent ++ [_] = _
  rw [hmsg, h.sent]
  rfl

/-- Features read from memory that holds zeros. -/
theorem featureAt_zeros (k i : Nat) : DataRecvThd.featureAt (List.replicate k 0) i = 0 := by
  have hzero : ∀ n, ofLe (List.replicate n 0) = 0 := fun n => ofLe_append_zeros [] n
  rw [DataRecvThd.featureAt, slice, List.drop_replicate, List.take_replicate, hzero]
  rfl

/-- The server then reads as many features as the header says, from what its buffer
held before. -/
theorem recvEvictions_wraps {clientId fb k : Nat} (hc : clientId < 2 ^ 32) (hb : 0 < fb)
    {pieces : List (List Feature)}
    (h : DataRecvThd.recvEvictions fb (List.replicate k 0)
      [NetworkHead.encode ⟨clientId, MsgType.clientUploadFeature.code, 2 ^ 29, 0⟩] = some pieces) :
    ¬ pieces.flatten.Nodup := by
  obtain ⟨head, hhead⟩ : ∃ head : NetworkHead,
      head = ⟨clientId, MsgType.clientUploadFeature.code, 2 ^ 29, 0⟩ := ⟨_, rfl⟩
  have hnum : head.curItemNum = 2 ^ 29 := by rw [hhead]
  have hf : head.Fits := by
    rw [hhead]
    exact ⟨hc, MsgType.code_lt .clientUploadFeature, show 2 ^ 29 < 2 ^ 32 by decide,
      show 0 < 2 ^ 32 by decide⟩
  have hbuf : memcpy (List.replicate k 0) 0 head.encode =
      head.encode ++ List.replicate (k - networkHeadSize) 0 := by
    rw [memcpy_zero_eq, NetworkHead.length_encode, List.drop_replicate]
  have hdec : NetworkHead.decode head.encode = head := by
    have h := NetworkHead.decode_encode hf []
    rwa [List.append_nil] at h
  rw [← hhead, DataRecvThd.recvEvictions, DataRecvThd.recvFeatures] at h
  obtain ⟨ps, hps, h⟩ := Option.bind_eq_some_iff.mp h
  cases h
  split at hps
  · simp only [hbuf, List.take_left' (NetworkHead.length_encode head),
      List.drop_left' (NetworkHead.length_encode head), hdec, hnum] at hps
    obtain ⟨hflat, -⟩ := DataRecvThd.evictPieces_eq_some hb (by decide) (Nat.zero_le (2 ^ 29))
      (Nat.sub_le (2 ^ 29) 0) hps
    rw [List.append_nil, hflat]
    intro hnd
    have hin : ∀ i < 2 ^ 29, i ∈ List.range' 0 (2 ^ 29) := fun i hi =>
      List.mem_range'_1.mpr ⟨Nat.zero_le i, by rwa [Nat.zero_add]⟩
    have heq := List.inj_on_of_nodup_map hnd (hin 0 (by decide)) (hin 1 (by decide))
      ((featureAt_zeros _ 0).trans (featureAt_zeros _ 1).symm)
    cases heq
  · cases hps

/-- An index that fills a message of 2^29 features is not delivered. -/
theorem full_index_wraps {m : CacheMeta} {front : List (Feature × Nat)} {e : Feature × Nat}
    (hl : Index.Lists m.feature2VersionIdx (front ++ [e])) (hlen : front.length = 2 ^ 29 - 1)
    (hold : ∀ f ∈ (front ++ [e]).map Prod.fst, m.aged f = true) {clientId fb : Nat}
    (hc : clientId < 2 ^ 32) (hb : 0 < fb) {dataBuf : Bytes}
    (hd : dataBuf.length = evictBufSize (2 ^ 29)) (k : Nat) :
    ¬ EvictsExactly m (front ++ [e]) clientId (2 ^ 29) fb dataBuf (List.replicate k 0) := by
  intro h
  have hnd := hl.nodup
  rw [List.map_append, List.nodup_append] at hnd
  have hcap : dataBuf.length = 8 * 2 ^ 29 := hd.trans (by decide)
  have hpend : (Batch.empty : Batch Feature).pending.length = 0 := rfl
  have haged : (front.map Prod.fst).filter m.aged = front.map Prod.fst := by
    refine List.filter_eq_self.mpr fun f hf => hold f ?_
    rw [List.map_append]
    exact List.mem_append_left _ hf
  have hflen : (front.map Prod.fst).length = 2 ^ 29 - 1 := by rw [List.length_map, hlen]
  obtain ⟨hg, hidx, hcur⟩ := evictLoop_gathered (n := 2 ^ 29)
    (gathered_beforeEvict m clientId dataBuf) (Batch.sized_empty (by decide)) hnd.1 _ haged
    (by rw [hpend, hflen]; decide) (by rw [hpend, hflen, hcap]; decide)
    (Or.inl (by rw [hpend, hflen]; decide))
  rw [Batch.run_short _ _ (by rw [hpend, hflen]; decide)] at hg
  have hage : (evictLoop clientId (2 ^ 29) (m.beforeEvict dataBuf) front).cacheMeta.aged e.1 =
      m.aged e.1 := by
    unfold aged
    rw [hidx, hcur, if_neg]
    · rfl
    · exact fun hm => hnd.2.2 e.1 hm e.1 (List.mem_singleton.mpr rfl) rfl
  have he : m.aged e.1 = true := hold e.1 (by simp)
  obtain ⟨hsent, hnum⟩ := addFeature_wraps hg hflen e.1
  have hfinal : (evictFeature clientId (2 ^ 29) (m.beforeEvict dataBuf) (front ++ [e])).sent =
      [NetworkHead.encode ⟨clientId, MsgType.clientUploadFeature.code, 2 ^ 29, 0⟩] := by
    unfold evictFeature
    rw [evictLoop, List.foldl_append, List.foldl_cons, List.foldl_nil, ← evictLoop, evictTurn, hage,
      he, if_pos rfl]
    simp only [hnum]
    exact hsent
  obtain ⟨pieces, hpieces, hdel⟩ := h.delivered
  rw [hfinal] at hpieces
  exact recvEvictions_wraps hc hb hpieces hdel.once

/-- A single message that does not get into the server's arrays delivers nothing. -/
theorem not_evictsExactly (hl : Index.Lists m.feature2VersionIdx order)
    (hold : ∀ f ∈ order.map Prod.fst, m.aged f = true) (hpos : order ≠ [])
    (hlen : order.length < n) (halloc : n * 8 + networkHeadSize < 2 ^ 64)
    (hfit : 8 * order.length + networkHeadSize < 2 ^ 32) {clientId : Nat} (hc : clientId < 2 ^ 32)
    {dataBuf recvBuf : Bytes} (hd : dataBuf.length = evictBufSize n)
    (hout : recvBuf.length < 8 * order.length + networkHeadSize ∨
      order.length ≤ featureBatchSize ∧ encMaxChunkSize < 8 * order.length) :
    ¬ EvictsExactly m order clientId n featureBatchSize dataBuf recvBuf := by
  intro h
  have haged : (order.map Prod.fst).filter m.aged = order.map Prod.fst :=
    List.filter_eq_self.mpr hold
  have hkeys : (order.map Prod.fst).length = order.length := List.length_map _
  have hne : order.map Prod.fst ≠ [] := fun hnil => hpos (List.map_eq_nil_iff.mp hnil)
  obtain ⟨hsent, -⟩ := evictFeature_spec hl (by omega) halloc
    (by rw [haged, hkeys]; omega) clientId hd
  have hpend : (Batch.empty : Batch Feature).pending.length = 0 := rfl
  rw [haged, Batch.run_short _ _ (by rw [hpend, hkeys]; omega), Batch.close, if_neg (by
    rw [show (Batch.empty : Batch Feature).pending = [] from rfl, List.nil_append]; exact hne)]
    at hsent
  obtain ⟨pieces, hpieces, -⟩ := h.delivered
  have hsingle : (Batch.empty : Batch Feature).out ++
      [(Batch.empty : Batch Feature).pending ++ order.map Prod.fst] = [order.map Prod.fst] := rfl
  rw [hsent, hsingle, List.map_singleton, DataRecvThd.recvEvictions,
    DataRecvThd.recvFeatures_eq_none hc (by rw [hkeys]; exact hfit) (by rw [hkeys]; exact hout)]
    at hpieces
  cases hpieces

/-- `k` entries of the same age. -/
def agedOrder (k : Nat) : List (Feature × Nat) :=
  (List.range k).map fun i => (UInt64.ofNat i, 0)

theorem agedOrder_nodup {k : Nat} (hk : k ≤ 2 ^ 64) : ((agedOrder k).map Prod.fst).Nodup := by
  rw [agedOrder, List.map_map]
  refine List.Nodup.map_on (fun i hi j hj heq => ?_) List.nodup_range
  have hi := List.mem_range.mp hi
  have hj := List.mem_range.mp hj
  have hval := congrArg UInt64.toNat heq
  simp only [Function.comp, UInt64.toNat_ofNat'] at hval
  rwa [Nat.mod_eq_of_lt (by omega), Nat.mod_eq_of_lt (by omega)] at hval

/-- An index of `k` features, none of them seen in the current upload. -/
def agedMeta (k : Nat) (hk : k ≤ 2 ^ 64) : CacheMeta :=
  { feature2VersionIdx := Index.ofList (agedOrder k) (agedOrder_nodup hk), curVersionNum := 1 }

section Aged

variable {k : Nat} (hk : k ≤ 2 ^ 64)

theorem lists_agedMeta : Index.Lists (agedMeta k hk).feature2VersionIdx (agedOrder k) :=
  Index.lists_ofList (agedOrder_nodup hk)

theorem aged_agedMeta : ∀ f ∈ (agedOrder k).map Prod.fst, (agedMeta k hk).aged f = true := by
  intro f hf
  obtain ⟨⟨g, v⟩, he, rfl⟩ := List.mem_map.mp hf
  obtain ⟨i, -, heq⟩ := List.mem_map.mp he
  refine aged_iff.mpr ⟨v, (lists_agedMeta hk).mem_iff.mp he, ?_⟩
  obtain rfl : 0 = v := congrArg Prod.snd heq
  show lastNPara ≤ (1 + (2 ^ 32 - 0 % 2 ^ 32)) % 2 ^ 32
  decide

end Aged

end CacheMeta

end EDRStore
