/-
# `EDRStore.KeyManager` — key seeds handed out by similarity

`BasicKM` answers a request with the key seed that its features vote for, or
draws one from the features and binds all three to it.  One request after
another, a binding is never rewritten; but the vote of a triple that was only
partly bound when it was first asked for changes when the rest of it is bound
by other chunks.
-/
import EDRStore.Reduction
import EDRStore.Wire
import EDRStore.Lib.WriteOnce

namespace EDRStore

open SimilarPolicy

/-- `BasicKM`: the feature index and its two counters. -/
structure BasicKM where
  feature2KeyIndex : Index Feature Key
  totalKeyGenNum : Nat
  totalSimilarChunkNum : Nat

/-- A message of a key client: its type and the `cur_item_num` requests behind the
header. -/
structure KeyGenMsg where
  msgType : Nat
  reqs : List Features

/-- A `KEY_MANAGER_KEY_GEN_REPLY`. -/
structure KeyGenReply where
  msgType : Nat
  curItemNum : Nat
  size : Nat
  keySeeds : List Key
deriving DecidableEq

variable (cfg : Components)

namespace BasicKM

/-- The key manager of an empty feature index. -/
def empty : BasicKM := { feature2KeyIndex := ∅, totalKeyGenNum := 0, totalSimilarChunkNum := 0 }

/-- `global_secret_`. -/
def globalSecret : Bytes := List.replicate chunkHashSize 1

/-- `tmp_feature_buf`: the secret, then the features. -/
def featureBuf (features : Features) : Bytes :=
  globalSecret ++ (toLe 8 features.sf0.toNat ++
    (toLe 8 features.sf1.toNat ++ toLe 8 features.sf2.toNat))

/-- The key seed drawn from the features. -/
def generateSeed (features : Features) : Key := cfg.generateHash (featureBuf features)

/-- The body of the loop of `BasicKM::Run` over the requests of a message.
`tmp_info` is not cleared between two requests. -/
def processReq (km : BasicKM) (tmpInfo : ChunkInfo) (req : Features) :
    Except Exit (Key × ChunkInfo × BasicKM) :=
  let tmpInfo := findBaseChunkDb km.feature2KeyIndex { tmpInfo with features := req }
  match tmpInfo.stat with
  | .similarChunk =>
      .ok (tmpInfo.addr.baseFp, tmpInfo,
        { km with totalSimilarChunkNum := km.totalSimilarChunkNum + 1 })
  | .nonSimilarChunk =>
      -- generate new key here
      let keySeed := generateSeed cfg tmpInfo.features
      -- update the index
      .ok (keySeed, tmpInfo, { km with
        feature2KeyIndex := updateFeatureIndex km.feature2KeyIndex tmpInfo.features keySeed })
  | _ => .error .keyType

/-- The loop itself. -/
def processReqs (km : BasicKM) (tmpInfo : ChunkInfo) :
    List Features → Except Exit (List Key × BasicKM)
  | [] => .ok ([], km)
  | req :: reqs => do
      let (keySeed, tmpInfo, km) ← processReq cfg km tmpInfo req
      let (keySeeds, km) ← processReqs km tmpInfo reqs
      pure (keySeed :: keySeeds, km)

/-- The body of the loop of `BasicKM::Run` over the messages; `uninit` is what
`tmp_info` holds before it is first written. -/
def processMsg (uninit : ChunkInfo) (km : BasicKM) (msg : KeyGenMsg) :
    Except Exit (KeyGenReply × BasicKM) :=
  if msg.msgType ≠ MsgType.clientKeyGen.code then .error .keyGenReqType
  else do
    let (keySeeds, km) ← processReqs cfg km uninit msg.reqs
    let recvFpNum := msg.reqs.length
    pure ({ msgType := MsgType.keyManagerKeyGenReply.code, curItemNum := recvFpNum,
            size := recvFpNum * chunkHashSize, keySeeds := keySeeds },
          { km with totalKeyGenNum := km.totalKeyGenNum + recvFpNum })

/-- `BasicKM::Run`, until the client closes the connection. -/
def run (uninit : ChunkInfo) (km : BasicKM) :
    List KeyGenMsg → Except Exit (List KeyGenReply × BasicKM)
  | [] => .ok ([], km)
  | msg :: msgs => do
      let (reply, km) ← processMsg cfg uninit km msg
      let (replies, km) ← run uninit km msgs
      pure (reply :: replies, km)

end BasicKM

/-! ## The vote

Three answers of the index are few enough to say whom they elect: the one the
last two agree on, or else the first that there is. -/

/-- The value that three answers elect. -/
def elect {α : Type} [DecidableEq α] (a b c : Option α) : Option α :=
  if b.isSome ∧ b = c then b else a.or (b.or c)

theorem elect_eq_none {α : Type} [DecidableEq α] {a b c : Option α} :
    elect a b c = none ↔ a = none ∧ b = none ∧ c = none := by
  cases a <;> cases b <;> cases c <;> simp [elect, ite_eq_iff]

/-- Two agreeing answers elect their value, whatever the third is. -/
theorem elect_of_two {α : Type} [DecidableEq α] {a b c : Option α} {v : α}
    (h : a = some v ∧ b = some v ∨ a = some v ∧ c = some v ∨ b = some v ∧ c = some v) :
    elect a b c = some v := by
  rcases h with ⟨rfl, rfl⟩ | ⟨rfl, rfl⟩ | ⟨rfl, rfl⟩
  · simp [elect]
  · by_cases hb : b = some v <;> simp [elect, hb]
  · simp [elect]

/-- Two answers that differ leave it to the first one. -/
theorem elect_of_ne {α : Type} [DecidableEq α] {a b c : Option α} {v : α} (ha : a = some v)
    (hbc : b.isSome → b ≠ c) : elect a b c = some v := by
  rw [elect, if_neg (fun h => hbc h.1 h.2), ha, Option.some_or]

/-- What `FindBaseChunk` makes of the three answers of the index: the sort brings
up a value that was counted twice, and of three different ones the first is
taken. -/
theorem chooseBase_answers (a b c : Option Fp) (info : ChunkInfo) :
    chooseBase ([a, b, c].foldl countFeature noMatch) info =
      match elect a b c with
      | none => { info with stat := .nonSimilarChunk }
      | some base =>
          { info with addr := { info.addr with baseFp := base }, stat := .similarChunk } := by
  cases a with
  | none =>
      cases b with
      | none => cases c <;> simp [chooseBase, countFeature, noMatch, bump, elect]
      | some y =>
          cases c with
          | none => simp [chooseBase, countFeature, noMatch, bump, elect]
          | some z =>
              by_cases h : y = z <;>
                simp [chooseBase, countFeature, noMatch, bump, elect, cmpPair, h]
  | some x =>
      cases b with
      | none =>
          cases c with
          | none => simp [chooseBase, countFeature, noMatch, bump, elect]
          | some z =>
              by_cases h : x = z <;>
                simp [chooseBase, countFeature, noMatch, bump, elect, cmpPair, h]
      | some y =>
          cases c with
          | none =>
              by_cases h : x = y <;>
                simp [chooseBase, countFeature, noMatch, bump, elect, cmpPair, h]
          | some z =>
              by_cases h : x = y <;> by_cases h' : y = z <;> by_cases h'' : x = z <;>
                simp_all [chooseBase, countFeature, noMatch, bump, elect, cmpPair]

/-- The seed that the features vote for. -/
def electedSeed (idx : Index Feature Key) (t : Features) : Option Key :=
  elect (idx.lookup t.sf0) (idx.lookup t.sf1) (idx.lookup t.sf2)

theorem findBaseChunkDb_eq (idx : Index Feature Key) (info : ChunkInfo) :
    findBaseChunkDb idx info =
      match electedSeed idx info.features with
      | none => { info with stat := .nonSimilarChunk }
      | some base =>
          { info with addr := { info.addr with baseFp := base }, stat := .similarChunk } :=
  chooseBase_answers _ _ _ info

theorem electedSeed_eq_none {idx : Index Feature Key} {t : Features} :
    electedSeed idx t = none ↔ ∀ f ∈ t.toList, idx.lookup f = none := by
  rw [electedSeed, elect_eq_none]
  simp [Features.toList]

/-! ## One request after another -/

namespace BasicKM

/-- The key seed a request gets. -/
def seedOf (idx : Index Feature Key) (t : Features) : Key :=
  (electedSeed idx t).getD (generateSeed cfg t)

/-- The index a request leaves. -/
def indexOf (idx : Index Feature Key) (t : Features) : Index Feature Key :=
  match electedSeed idx t with
  | none => updateFeatureIndex idx t (generateSeed cfg t)
  | some _ => idx

/-- The index that requests leave. -/
def indexAfter (idx : Index Feature Key) (reqs : List Features) : Index Feature Key :=
  reqs.foldl (indexOf cfg) idx

/-- The key seeds that requests get. -/
def seedsOf : Index Feature Key → List Features → List Key
  | _, [] => []
  | idx, t :: reqs => seedOf cfg idx t :: seedsOf (indexOf cfg idx t) reqs

variable {cfg}

variable (cfg) in
theorem processReq_spec (km : BasicKM) (tmpInfo : ChunkInfo) (t : Features) :
    ∃ tmpInfo' km', processReq cfg km tmpInfo t =
        .ok (seedOf cfg km.feature2KeyIndex t, tmpInfo', km') ∧
      km'.feature2KeyIndex = indexOf cfg km.feature2KeyIndex t ∧
      km'.totalKeyGenNum = km.totalKeyGenNum := by
  cases h : electedSeed km.feature2KeyIndex t with
  | none =>
      simp only [processReq, findBaseChunkDb_eq, h, seedOf, indexOf, Option.getD_none]
      exact ⟨_, _, rfl, rfl, rfl⟩
  | some base =>
      simp only [processReq, findBaseChunkDb_eq, h, seedOf, indexOf, Option.getD_some]
      exact ⟨_, _, rfl, rfl, rfl⟩

variable (cfg) in
/-- The loop never ends the process, and `tmp_info` carries nothing from one
request to the next. -/
theorem processReqs_spec (reqs : List Features) :
    ∀ (km : BasicKM) (tmpInfo : ChunkInfo), ∃ km', processReqs cfg km tmpInfo reqs =
        .ok (seedsOf cfg km.feature2KeyIndex reqs, km') ∧
      km'.feature2KeyIndex = indexAfter cfg km.feature2KeyIndex reqs ∧
      km'.totalKeyGenNum = km.totalKeyGenNum := by
  induction reqs with
  | nil => intro km tmpInfo; exact ⟨km, rfl, rfl, rfl⟩
  | cons t reqs ih =>
      intro km tmpInfo
      obtain ⟨tmpInfo', km', hreq, hidx, hnum⟩ := processReq_spec cfg km tmpInfo t
      obtain ⟨km'', hreqs, hidx', hnum'⟩ := ih km' tmpInfo'
      refine ⟨km'', ?_, ?_, hnum'.trans hnum⟩
      · simp only [processReqs, hreq, ok_bind, hreqs, hidx, seedsOf]
        rfl
      · rw [hidx', hidx]
        rfl

theorem seedsOf_append (idx : Index Feature Key) (reqs reqs' : List Features) :
    seedsOf cfg idx (reqs ++ reqs') =
      seedsOf cfg idx reqs ++ seedsOf cfg (indexAfter cfg idx reqs) reqs' := by
  induction reqs generalizing idx with
  | nil => rfl
  | cons t reqs ih =>
      rw [List.cons_append, seedsOf, ih]
      rfl

theorem indexAfter_append (idx : Index Feature Key) (reqs reqs' : List Features) :
    indexAfter cfg idx (reqs ++ reqs') = indexAfter cfg (indexAfter cfg idx reqs) reqs' :=
  List.foldl_append

/-- A request gets the seed its features vote for in the index it finds. -/
theorem seedsOf_getElem? (reqs : List Features) {i : Nat} {t : Features} (h : reqs[i]? = some t) :
    ∀ idx, (seedsOf cfg idx reqs)[i]? = some (seedOf cfg (indexAfter cfg idx (reqs.take i)) t) := by
  induction reqs generalizing i with
  | nil => exact absurd h (by simp)
  | cons r reqs ih =>
      intro idx
      cases i with
      | zero =>
          cases h
          rfl
      | succ i =>
          rw [seedsOf, List.getElem?_cons_succ, ih (by simpa using h)]
          rfl

variable (cfg) in
theorem processMsg_spec (uninit : ChunkInfo) (km : BasicKM) {msg : KeyGenMsg}
    (hmsg : msg.msgType = MsgType.clientKeyGen.code) :
    ∃ reply km', processMsg cfg uninit km msg = .ok (reply, km') ∧
      reply.keySeeds = seedsOf cfg km.feature2KeyIndex msg.reqs ∧
      km'.feature2KeyIndex = indexAfter cfg km.feature2KeyIndex msg.reqs ∧
      km'.totalKeyGenNum = km.totalKeyGenNum + msg.reqs.length := by
  obtain ⟨km', hreqs, hidx, hnum⟩ := processReqs_spec cfg msg.reqs km uninit
  simp only [processMsg, hmsg, ne_eq, not_true, if_false, hreqs, ok_bind]
  exact ⟨_, _, rfl, rfl, hidx, congrArg (· + msg.reqs.length) hnum⟩

/-- The requests that messages bring, in order. -/
def reqsOf (msgs : List KeyGenMsg) : List Features := (msgs.map KeyGenMsg.reqs).flatten

/-- The key seeds that go back, in order. -/
def keySeedsOf (replies : List KeyGenReply) : List Key := (replies.map KeyGenReply.keySeeds).flatten

variable (cfg) in
/-- How the requests are gathered into messages makes no difference. -/
theorem run_spec (uninit : ChunkInfo) (msgs : List KeyGenMsg)
    (hmsgs : ∀ msg ∈ msgs, msg.msgType = MsgType.clientKeyGen.code) :
    ∀ km : BasicKM, ∃ replies km', run cfg uninit km msgs = .ok (replies, km') ∧
      keySeedsOf replies = seedsOf cfg km.feature2KeyIndex (reqsOf msgs) ∧
      km'.feature2KeyIndex = indexAfter cfg km.feature2KeyIndex (reqsOf msgs) ∧
      km'.totalKeyGenNum = km.totalKeyGenNum + (reqsOf msgs).length := by
  induction msgs with
  | nil => intro km; exact ⟨[], km, rfl, rfl, rfl, rfl⟩
  | cons msg msgs ih =>
      intro km
      obtain ⟨reply, km₁, hmsg, hseeds, hidx, hnum⟩ :=
        processMsg_spec cfg uninit km (hmsgs msg List.mem_cons_self)
      obtain ⟨replies, km₂, hrun, hseeds', hidx', hnum'⟩ :=
        ih (fun m hm => hmsgs m (List.mem_cons_of_mem _ hm)) km₁
      have hreqs : reqsOf (msg :: msgs) = msg.reqs ++ reqsOf msgs := rfl
      refine ⟨reply :: replies, km₂, ?_, ?_, ?_, ?_⟩
      · simp only [run, hmsg, ok_bind, hrun]
        rfl
      · rw [hreqs, seedsOf_append, ← hseeds, ← hidx, ← hseeds']
        rfl
      · rw [hidx', hidx, hreqs, indexAfter_append]
      · rw [hnum', hnum, hreqs, List.length_append, Nat.add_assoc]

/-! ## Bindings

A seed is only ever drawn for features that have none, and then bound to all
three of them: the index grows by entries whose seed it has not seen. -/

/-- Every seed in the index was drawn for a triple whose features are bound to it. -/
def Drawn (cfg : Components) (idx : Index Feature Key) : Prop :=
  ∀ f k, idx.lookup f = some k →
    ∃ t, k = generateSeed cfg t ∧ ∀ g ∈ t.toList, idx.lookup g = some k

theorem drawn_empty : Drawn cfg ∅ := by
  intro f k h
  rw [Finmap.lookup_empty] at h
  exact nomatch h

theorem featureBuf_injective : Function.Injective featureBuf := by
  rintro ⟨a, b, c⟩ ⟨a', b', c'⟩ h
  have word {f g : Feature} (h : toLe 8 f.toNat = toLe 8 g.toNat) : f = g := by
    rw [← SendChunkHeader.word_back f, h, SendChunkHeader.word_back]
  obtain ⟨ha, h⟩ := List.append_inj (List.append_cancel_left h) (by rw [length_toLe, length_toLe])
  obtain ⟨hb, hc⟩ := List.append_inj h (by rw [length_toLe, length_toLe])
  cases word ha
  cases word hb
  cases word hc
  rfl

theorem generateSeed_injective (hinj : cfg.HashInjective) :
    Function.Injective (generateSeed cfg) :=
  fun _ _ h => featureBuf_injective (hinj h)

/-- The seed of a triple with an unbound feature is not in the index. -/
theorem Drawn.seed_fresh (hinj : cfg.HashInjective) {idx : Index Feature Key}
    (h : Drawn cfg idx) {t : Features} {f : Feature} (hf : f ∈ t.toList)
    (hn : idx.lookup f = none) (g : Feature) : idx.lookup g ≠ some (generateSeed cfg t) := by
  intro hg
  obtain ⟨t', hseed, hall⟩ := h g _ hg
  cases generateSeed_injective hinj hseed
  rw [hall f hf] at hn
  exact nomatch hn

variable (cfg) in
/-- A request binds all its features to the seed drawn for them, or changes
nothing. -/
theorem indexOf_cases (idx : Index Feature Key) (t : Features) :
    ((∀ f ∈ t.toList, idx.lookup f = none) ∧ seedOf cfg idx t = generateSeed cfg t ∧
      indexOf cfg idx t = idx.insertAll t.toList (generateSeed cfg t)) ∨
    (∃ k, electedSeed idx t = some k ∧ seedOf cfg idx t = k ∧ indexOf cfg idx t = idx) := by
  cases h : electedSeed idx t with
  | none =>
      refine Or.inl ⟨electedSeed_eq_none.mp h, ?_, ?_⟩
      · rw [seedOf, h, Option.getD_none]
      · rw [indexOf, h]
        rfl
  | some k =>
      refine Or.inr ⟨k, rfl, ?_, ?_⟩
      · rw [seedOf, h, Option.getD_some]
      · rw [indexOf, h]

theorem Drawn.indexOf {idx : Index Feature Key} (h : Drawn cfg idx) (t : Features) :
    Drawn cfg (indexOf cfg idx t) := by
  rcases indexOf_cases cfg idx t with ⟨hnone, -, heq⟩ | ⟨_, -, -, heq⟩
  · intro f k hf
    rw [heq] at hf ⊢
    rw [Index.lookup_insertAll] at hf
    split at hf
    · cases hf
      exact ⟨t, rfl, fun g hg => by rw [Index.lookup_insertAll, if_pos hg]⟩
    · obtain ⟨t', hseed, hall⟩ := h f k hf
      refine ⟨t', hseed, fun g hg => ?_⟩
      rw [Index.lookup_insertAll, if_neg, hall g hg]
      intro hgt
      have := hall g hg
      rw [hnone g hgt] at this
      exact nomatch this
  · rw [heq]
    exact h

theorem grows_indexOf (hinj : cfg.HashInjective) {idx : Index Feature Key} (h : Drawn cfg idx)
    (t : Features) : idx.Grows (BasicKM.indexOf cfg idx t) := by
  rcases indexOf_cases cfg idx t with ⟨hnone, -, heq⟩ | ⟨_, -, -, heq⟩
  · rw [heq]
    have hmem : t.sf0 ∈ t.toList := List.mem_cons_self
    exact Index.grows_insertAll hnone (h.seed_fresh hinj hmem (hnone _ hmem))
  · rw [heq]
    exact Index.Grows.refl idx

theorem Drawn.indexAfter {idx : Index Feature Key} (h : Drawn cfg idx) (reqs : List Features) :
    Drawn cfg (indexAfter cfg idx reqs) := by
  induction reqs generalizing idx with
  | nil => exact h
  | cons t reqs ih => exact ih (h.indexOf t)

theorem grows_indexAfter (hinj : cfg.HashInjective) (reqs : List Features) :
    ∀ {idx : Index Feature Key}, Drawn cfg idx → idx.Grows (BasicKM.indexAfter cfg idx reqs) := by
  induction reqs with
  | nil => intro idx _; exact Index.Grows.refl idx
  | cons t reqs ih =>
      intro idx h
      exact (grows_indexOf hinj h t).trans (ih (h.indexOf t))

/-! ## Which answers stay -/

/-- The vote of a triple can no longer change: nobody has bound any of its features
(and the request will bind them all), or the first one has its say and another
one is bound too, or the last two agree. -/
def Settled (idx : Index Feature Key) (t : Features) : Prop :=
  (∀ f ∈ t.toList, idx.lookup f = none) ∨
  ((idx.lookup t.sf0).isSome ∧ ((idx.lookup t.sf1).isSome ∨ (idx.lookup t.sf2).isSome)) ∨
  ((idx.lookup t.sf1).isSome ∧ idx.lookup t.sf1 = idx.lookup t.sf2)

-- over the list: there are too many features to try them all
instance (idx : Index Feature Key) (t : Features) : Decidable (Settled idx t) :=
  have := List.decidableBAll (fun f => idx.lookup f = none) t.toList
  inferInstanceAs (Decidable (_ ∨ _ ∨ _))

theorem elected_bound {idx : Index Feature Key} {t : Features} {k : Key}
    (h : electedSeed idx t = some k) : ∃ f, idx.lookup f = some k := by
  unfold electedSeed elect at h
  split at h
  · exact ⟨t.sf1, h⟩
  · simp only [Option.or_eq_some_iff] at h
    rcases h with h | ⟨-, h | ⟨-, h⟩⟩
    · exact ⟨t.sf0, h⟩
    · exact ⟨t.sf1, h⟩
    · exact ⟨t.sf2, h⟩

/-- A binding that appears later differs from the ones there were. -/
theorem lookup_ne_of_grows {idx idx' : Index Feature Key} (h : idx.Grows idx') {f g : Feature}
    {k : Key} (hf : idx.lookup f = some k) (hg : idx.lookup g ≠ some k) :
    idx'.lookup g ≠ some k := by
  intro hg'
  cases hn : idx.lookup g with
  | none => exact h.fresh hn hg' f hf
  | some k' =>
      rw [h.keeps g k' hn] at hg'
      exact hg (hn.trans hg')

/-- A settled vote survives whatever is bound later. -/
theorem Settled.elected_grows {idx idx' : Index Feature Key} {t : Features} {k : Key}
    (hs : Settled idx t) (hk : electedSeed idx t = some k) (h : idx.Grows idx') :
    electedSeed idx' t = some k := by
  rcases hs with hnone | ⟨h0, h12⟩ | ⟨h1, h12⟩
  · rw [electedSeed_eq_none.mpr hnone] at hk
    exact nomatch hk
  · obtain ⟨a, ha⟩ := Option.isSome_iff_exists.mp h0
    have ha' := h.keeps _ _ ha
    by_cases hagree : (idx.lookup t.sf1).isSome ∧ idx.lookup t.sf1 = idx.lookup t.sf2
    · obtain ⟨b, hb⟩ := Option.isSome_iff_exists.mp hagree.1
      have hc : idx.lookup t.sf2 = some b := hagree.2 ▸ hb
      rw [electedSeed, elect_of_two (Or.inr (Or.inr ⟨hb, hc⟩))] at hk
      rw [electedSeed,
        elect_of_two (Or.inr (Or.inr ⟨h.keeps _ _ hb, h.keeps _ _ hc⟩)), hk]
    · have hne : idx.lookup t.sf1 ≠ idx.lookup t.sf2 := by
        intro heq
        refine hagree ⟨?_, heq⟩
        rcases h12 with h1 | h2
        · exact h1
        · rw [heq]; exact h2
      -- one of the two is bound, and the other one is not bound to the same
      have hne' : idx'.lookup t.sf1 ≠ idx'.lookup t.sf2 := by
        rcases h12 with h1 | h2
        · obtain ⟨b, hb⟩ := Option.isSome_iff_exists.mp h1
          rw [h.keeps _ _ hb]
          exact (lookup_ne_of_grows h hb (fun hc => hne (hb.trans hc.symm))).symm
        · obtain ⟨c, hc⟩ := Option.isSome_iff_exists.mp h2
          rw [h.keeps _ _ hc]
          exact lookup_ne_of_grows h hc (fun hb => hne (hb.trans hc.symm))
      rw [electedSeed, elect_of_ne ha (fun _ => hne)] at hk
      rw [electedSeed, elect_of_ne ha' (fun _ => hne'), hk]
  · obtain ⟨b, hb⟩ := Option.isSome_iff_exists.mp h1
    have hc : idx.lookup t.sf2 = some b := h12 ▸ hb
    rw [electedSeed, elect_of_two (Or.inr (Or.inr ⟨hb, hc⟩))] at hk
    rw [electedSeed, elect_of_two (Or.inr (Or.inr ⟨h.keeps _ _ hb, h.keeps _ _ hc⟩)), hk]

/-- A triple asked for in a settled state gets the same seed ever after. -/
theorem Settled.seedOf_indexAfter (hinj : cfg.HashInjective) {idx : Index Feature Key}
    (hd : Drawn cfg idx) {t : Features} (hs : Settled idx t) (reqs : List Features) :
    seedOf cfg (indexAfter cfg (BasicKM.indexOf cfg idx t) reqs) t = seedOf cfg idx t := by
  have hgrows := grows_indexAfter hinj reqs (hd.indexOf t)
  -- once answered, the features elect the answer
  have hnow : ∃ k, electedSeed (BasicKM.indexOf cfg idx t) t = some k ∧ seedOf cfg idx t = k ∧
      Settled (BasicKM.indexOf cfg idx t) t := by
    rcases indexOf_cases cfg idx t with ⟨-, hseed, heq⟩ | ⟨k, hk, hseed, heq⟩
    · have hall : ∀ f ∈ t.toList, (BasicKM.indexOf cfg idx t).lookup f =
          some (generateSeed cfg t) := by
        intro f hf
        rw [heq, Index.lookup_insertAll, if_pos hf]
      have h0 := hall t.sf0 (by simp [Features.toList])
      have h1 := hall t.sf1 (by simp [Features.toList])
      refine ⟨_, elect_of_two (Or.inl ⟨h0, h1⟩), hseed, Or.inr (Or.inl ⟨?_, Or.inl ?_⟩)⟩
      · rw [h0]; rfl
      · rw [h1]; rfl
    · rw [heq]
      exact ⟨k, hk, hseed, hs⟩
  obtain ⟨k, hk, hseed, hs'⟩ := hnow
  rw [seedOf, hs'.elected_grows hk hgrows, Option.getD_some, hseed]

/-- In any other state one request is enough to change the answer: one whose
features are the first, or the last two, of the triple. -/
theorem exists_flip (hinj : cfg.HashInjective) {idx : Index Feature Key} (hd : Drawn cfg idx)
    {t : Features} (hs : ¬ Settled idx t) :
    ∃ t', seedOf cfg (indexAfter cfg idx [t, t']) t ≠ seedOf cfg idx t := by
  simp only [Settled, not_or, not_and] at hs
  obtain ⟨hsome, h0, h12⟩ := hs
  rcases indexOf_cases cfg idx t with ⟨hnone, -, -⟩ | ⟨k, hk, hseed, heq⟩
  · exact absurd hnone hsome
  -- what a request binds when none of its features is bound
  have hafter : ∀ t' : Features, (∀ f ∈ t'.toList, idx.lookup f = none) →
      indexAfter cfg idx [t, t'] = idx.insertAll t'.toList (generateSeed cfg t') := by
    intro t' hn
    show BasicKM.indexOf cfg (BasicKM.indexOf cfg idx t) t' = _
    rw [heq, BasicKM.indexOf, electedSeed_eq_none.mpr hn]
    rfl
  -- so it is enough that afterwards the triple elects the seed bound last
  have hflip : ∀ t' : Features, (∀ f ∈ t'.toList, idx.lookup f = none) →
      electedSeed (idx.insertAll t'.toList (generateSeed cfg t')) t =
        some (generateSeed cfg t') →
      seedOf cfg (indexAfter cfg idx [t, t']) t ≠ seedOf cfg idx t := by
    intro t' hn helect hsame
    obtain ⟨f, hf⟩ := elected_bound hk
    rw [hafter t' hn, seedOf, helect, Option.getD_some, hseed] at hsame
    have hmem : t'.sf0 ∈ t'.toList := List.mem_cons_self
    exact hd.seed_fresh hinj hmem (hn _ hmem) f (hsame ▸ hf)
  cases hn0 : idx.lookup t.sf0 with
  | none =>
      refine ⟨⟨t.sf0, t.sf0, t.sf0⟩, hflip _ (by simpa [Features.toList] using hn0) ?_⟩
      generalize generateSeed cfg ⟨t.sf0, t.sf0, t.sf0⟩ = s
      have hlook : ∀ g, (idx.insertAll [t.sf0, t.sf0, t.sf0] s).lookup g =
          if g = t.sf0 then some s else idx.lookup g := by
        intro g
        rw [Index.lookup_insertAll]
        simp
      have ha := (hlook t.sf0).trans (if_pos rfl)
      by_cases h1 : t.sf1 = t.sf0
      · exact elect_of_two (Or.inl ⟨ha, (hlook t.sf1).trans (if_pos h1)⟩)
      · by_cases h2 : t.sf2 = t.sf0
        · exact elect_of_two (Or.inr (Or.inl ⟨ha, (hlook t.sf2).trans (if_pos h2)⟩))
        · refine elect_of_ne ha ?_
          show ((idx.insertAll [t.sf0, t.sf0, t.sf0] s).lookup t.sf1).isSome →
            (idx.insertAll [t.sf0, t.sf0, t.sf0] s).lookup t.sf1 ≠
              (idx.insertAll [t.sf0, t.sf0, t.sf0] s).lookup t.sf2
          rw [hlook, hlook, if_neg h1, if_neg h2]
          exact h12
  | some a =>
      have hn12 : idx.lookup t.sf1 = none ∧ idx.lookup t.sf2 = none := by
        simpa [hn0] using h0
      refine ⟨⟨t.sf1, t.sf2, t.sf2⟩, hflip _ (by simp [Features.toList, hn12]) ?_⟩
      generalize generateSeed cfg ⟨t.sf1, t.sf2, t.sf2⟩ = s
      refine elect_of_two (Or.inr (Or.inr ⟨?_, ?_⟩))
      · rw [Index.lookup_insertAll, if_pos (by simp [Features.toList])]
      · rw [Index.lookup_insertAll, if_pos (by simp [Features.toList])]

/-- All requests of the triple got one key seed. -/
def SameSeed (t : Features) (reqs : List Features) (keySeeds : List Key) : Prop :=
  ∀ i j : Nat, reqs[i]? = some t → reqs[j]? = some t → keySeeds[i]? = keySeeds[j]?

/-- What has run took only messages of the right type. -/
theorem run_typed (uninit : ChunkInfo) (msgs : List KeyGenMsg) :
    ∀ {km : BasicKM} {r : List KeyGenReply × BasicKM}, run cfg uninit km msgs = .ok r →
      ∀ msg ∈ msgs, msg.msgType = MsgType.clientKeyGen.code := by
  induction msgs with
  | nil => intro km r _ msg hmsg; exact absurd hmsg List.not_mem_nil
  | cons m msgs ih =>
      intro km r h
      obtain ⟨⟨reply, km'⟩, hmsg, hrest⟩ := bind_ok h
      obtain ⟨r', hrun, -⟩ := bind_ok hrest
      intro msg hmem
      rcases List.mem_cons.mp hmem with rfl | hmem
      · by_contra hne
        rw [processMsg, if_pos hne] at hmsg
        exact nomatch hmsg
      · exact ih hrun msg hmem

theorem run_drawn {uninit : ChunkInfo} {msgs : List KeyGenMsg} {replies : List KeyGenReply}
    {km : BasicKM} (h : run cfg uninit empty msgs = .ok (replies, km)) :
    Drawn cfg km.feature2KeyIndex := by
  obtain ⟨replies', km', hrun, -, hidx, -⟩ :=
    run_spec cfg uninit msgs (run_typed uninit msgs h) empty
  cases h.symm.trans hrun
  rw [hidx]
  exact drawn_empty.indexAfter _

/-- From one request of a triple on, and whatever other requests come in between,
every request of the triple gets the same key seed, exactly when its vote was
settled at that request. -/
theorem same_seed_iff_settled (hinj : cfg.HashInjective) (uninit : ChunkInfo)
    {before : List KeyGenMsg} {replies : List KeyGenReply} {km : BasicKM}
    (hrun : run cfg uninit empty before = .ok (replies, km)) (t : Features) :
    (∀ msgs, (∀ msg ∈ msgs, msg.msgType = MsgType.clientKeyGen.code) →
      (reqsOf msgs).head? = some t →
      ∃ replies' km', run cfg uninit km msgs = .ok (replies', km') ∧
        SameSeed t (reqsOf msgs) (keySeedsOf replies')) ↔
    Settled km.feature2KeyIndex t := by
  have hd := run_drawn hrun
  constructor
  · intro h
    by_contra hs
    obtain ⟨t', hne⟩ := exists_flip hinj hd hs
    have hmsgs : ∀ msg ∈ [KeyGenMsg.mk MsgType.clientKeyGen.code [t, t', t]],
        msg.msgType = MsgType.clientKeyGen.code := by simp
    obtain ⟨replies', km', hrun', hsame⟩ := h _ hmsgs rfl
    obtain ⟨_, _, hrun'', hseeds, -⟩ := run_spec cfg uninit _ hmsgs km
    cases hrun'.symm.trans hrun''
    rw [hseeds] at hsame
    have h02 := hsame 2 0 rfl rfl
    exact hne (Option.some.inj h02)
  · intro hs msgs hmsgs hhead
    obtain ⟨replies', km', hrun', hseeds, -⟩ := run_spec cfg uninit msgs hmsgs km
    refine ⟨replies', km', hrun', ?_⟩
    -- every request of the triple gets what the first one got
    have hall : ∀ i : Nat, (reqsOf msgs)[i]? = some t →
        (keySeedsOf replies')[i]? = some (seedOf cfg km.feature2KeyIndex t) := by
      intro i hi
      rw [hseeds, seedsOf_getElem? _ hi]
      cases i with
      | zero => rfl
      | succ i =>
          obtain ⟨rest, hrest⟩ : ∃ rest, reqsOf msgs = t :: rest := by
            cases hreqs : reqsOf msgs with
            | nil => rw [hreqs] at hhead; exact nomatch hhead
            | cons r rest => rw [hreqs] at hhead; cases hhead; exact ⟨rest, rfl⟩
          rw [hrest, List.take_succ_cons]
          exact congrArg some (hs.seedOf_indexAfter hinj hd _)
    intro i j hi hj
    rw [hall i hi, hall j hj]

/-- A chunk record of zeros. -/
def zeroInfo : ChunkInfo := ⟨[], ⟨0, 0, 0⟩, ⟨.uniqueChunk, [], 0, 0, []⟩, .uniqueChunk⟩

/-- Two features bound at the first request, the first one among them, keep their
answer through every later message. -/
theorem same_seed_two_bound :
    ∃ replies km, run Components.plain zeroInfo empty
        [⟨MsgType.clientKeyGen.code, [⟨1, 8, 9⟩]⟩] = .ok (replies, km) ∧
      ∀ msgs, (∀ msg ∈ msgs, msg.msgType = MsgType.clientKeyGen.code) →
        (reqsOf msgs).head? = some ⟨1, 8, 7⟩ →
        ∃ replies' km', run Components.plain zeroInfo km msgs = .ok (replies', km') ∧
          SameSeed ⟨1, 8, 7⟩ (reqsOf msgs) (keySeedsOf replies') := by
  obtain ⟨replies, km, hrun, -, hidx, -⟩ := run_spec .plain zeroInfo
    [⟨MsgType.clientKeyGen.code, [⟨1, 8, 9⟩]⟩] (by simp) empty
  refine ⟨replies, km, hrun,
    (same_seed_iff_settled Components.plain_hashInjective zeroInfo hrun ⟨1, 8, 7⟩).mpr ?_⟩
  rw [hidx]
  decide +kernel

/-- A triple with its first feature bound by another chunk is outvoted once a third
chunk binds the other two. -/
theorem exists_two_seeds :
    ¬ ∀ (cfg : Components) (uninit : ChunkInfo) (msgs : List KeyGenMsg)
      (replies : List KeyGenReply) (km : BasicKM), cfg.HashInjective →
      run cfg uninit empty msgs = .ok (replies, km) →
      ∀ t, SameSeed t (reqsOf msgs) (keySeedsOf replies) := by
  intro h
  obtain ⟨replies, km, hrun, hseeds, -⟩ := run_spec .plain zeroInfo
    [⟨MsgType.clientKeyGen.code, [⟨1, 8, 9⟩, ⟨1, 2, 3⟩, ⟨2, 3, 7⟩, ⟨1, 2, 3⟩]⟩] (by simp) empty
  have hsame := h .plain zeroInfo _ replies km Components.plain_hashInjective hrun ⟨1, 2, 3⟩ 1 3
    rfl rfl
  rw [hseeds] at hsame
  revert hsame
  decide +kernel

end BasicKM

end EDRStore
