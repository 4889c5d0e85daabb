/-
# `EDRStore.Interleaving` — sessions that overlap

Any number of uploads at once, four threads each, in every order.  One step is
one access to what threads share:

    recv     DataRecvThd     one item: its pushes, or the query of DetectDuplicate
    dual     DualDedupThd    one element: the query of DetectDuplicate, or its insert
    comp     CacheCompThd    one element; the inform cache is the session's own
    write    DataWriterThd   one query, one insert, one ReadChunk or WriteChunk

What a thread does between two such accesses only touches its own variables and
the queues, which have one producer and one consumer each.  `trace` logs the
verdicts, the writes and the final records; no thread reads it.
-/
import EDRStore.Upload
import EDRStore.System

namespace EDRStore

/-- The number of a session, never used twice. -/
abbrev SessId := Nat

/-- `AbsMQ<WrappedChunk_t>`, with the flag its producer sets at the end. -/
structure MessageQueue where
  items : List WrappedChunk
  done : Bool

def MessageQueue.push (q : MessageQueue) (chunks : List WrappedChunk) : MessageQueue :=
  { q with items := q.items ++ chunks }

/-- Where `DataWriterThd` stands within one turn of its loop. -/
inductive WriterPc where
  | pop
  /-- In the loop of `FindBaseChunk`, with the features not looked up yet. -/
  | find (chunk : WrappedChunk) (m : FeatureMatch) (todo : List Feature)
  /-- In `FetchBaseChunk`, before the query. -/
  | fetch (chunk : WrappedChunk)
  /-- In `FetchBaseChunk`, before `ReadChunk`. -/
  | read (chunk : WrappedChunk) (baseAddr : KeyForChunkHashDB)
  /-- In `ProcSimilarChunk` with a base of size 0, before the first `WriteChunk`. -/
  | avoid (chunk : WrappedChunk) (base : Bytes × Nat)
  | delta (chunk : WrappedChunk) (base : Bytes × Nat)
  | plain (chunk : WrappedChunk)
  /-- In `UpdateFeatureIndex`. -/
  | features (chunk : WrappedChunk) (todo : List Feature)
  | cacheDelta (chunk : WrappedChunk)
  /-- Before `fp_2_addr_db_->InsertBothBuffer`. -/
  | publish (chunk : WrappedChunk)
  | ended
deriving DecidableEq

/-- The element in hand. -/
def WriterPc.chunk? : WriterPc → Option WrappedChunk
  | .pop => none
  | .find c _ _ => some c
  | .fetch c => some c
  | .read c _ => some c
  | .avoid c _ => some c
  | .delta c _ => some c
  | .plain c => some c
  | .features c _ => some c
  | .cacheDelta c => some c
  | .publish c => some c
  | .ended => none

/-- What is worth remembering of a step. -/
inductive Event where
  /-- `DetectDuplicate` sets `UNIQUE_CHUNK`. -/
  | unique (fp : Fp)
  /-- `WriteChunk` for the chunk `fp`, with the address it returns. -/
  | wrote (fp : Fp) (addr : KeyForChunkHashDB) (data : Bytes)
  /-- The last insert of `DataWriterThd::Run`. -/
  | published (fp : Fp) (addr : KeyForChunkHashDB)
deriving DecidableEq

/-- `ClientVar` of an upload, with what its threads hold between two steps.  A
chunk is pending while `DetectDuplicate` has set it unique and not inserted it
yet; `received` is what the client has sent so far. -/
structure ClientVar where
  clientId : ClientId
  received : List (List SendChunk)
  fileRecipe : List Fp
  recvPending : Option WrappedChunk
  recv2DualMq : MessageQueue
  dualPending : Option WrappedChunk
  dual2CompMq : MessageQueue
  informCache : InformCache
  comp2WriterMq : MessageQueue
  writer : WriterPc
  cur : ClientStore
  deleted : Bool

/-- The steps of the threads of one session. -/
inductive ThreadAction where
  /-- The next item of a message; `addr` is what `tmp_chunk` holds. -/
  | recv (addr : KeyForChunkHashDB) (item : List SendChunk)
  | recvInsert
  | recvEvict (garbage : ChunkInfo) (features : List Feature)
  | recvEnd
  | dual
  | comp
  | write

namespace DataRecvThd

/-- The queue element of a new `NORMAL_CHUNK`. -/
def normalChunk (cfg : Components) (addr : KeyForChunkHashDB) (chunk : SendChunk) : WrappedChunk :=
  ⟨⟨cfg.generateHash chunk.data, cfg.extractFeature chunk.data, addr, .uniqueChunk⟩,
    chunk.data, []⟩

end DataRecvThd

namespace DualDedupThd

/-- What is pushed of a chunk found unique. -/
def admitted (cfg : Components) (input : WrappedChunk) : WrappedChunk :=
  match input.info.stat with
  | .chunkPair =>
      { input with info := { input.info with
          stat := .uniqueChunkAfterCache
          features := cfg.extractFeature input.data } }
  | _ => { input with info := { input.info with stat := .uniqueChunk } }

end DualDedupThd

/-- The insert of `DetectDuplicate`. -/
def Server.enter (srv : Server) (info : ChunkInfo) : Server :=
  { srv with fp2AddrDb := srv.fp2AddrDb.insert info.fp info.addr }

namespace ClientVar

variable (cfg : Components)

/-- What a step gives: the server, the session, and what to remember. -/
abbrev Result := Server × ClientVar × List Event

def recvItem (srv : Server) (t : ClientVar) (addr : KeyForChunkHashDB) :
    List SendChunk → Except Stop Result
  | [] => .error (.exit .recvChunkType)
  | chunk :: rest =>
      let t := { t with received := t.received ++ [chunk :: rest] }
      if chunk.type = .normalChunk then
        -- DetectDuplicate, its query
        let c := DataRecvThd.normalChunk cfg addr chunk
        match srv.fp2AddrDb.lookup c.info.fp with
        | none => .ok (srv, { t with recvPending := some c }, [.unique c.info.fp])
        | some _ => .ok (srv, { t with fileRecipe := t.fileRecipe ++ [c.info.fp] }, [])
      else do
        let r ← exits (DataRecvThd.processItem cfg srv.fp2AddrDb addr (chunk :: rest))
        .ok (srv,
          { t with
            fileRecipe := t.fileRecipe ++ [r.2.1]
            recv2DualMq := t.recv2DualMq.push r.1 }, [])

def dualStep (srv : Server) (t : ClientVar) : Except Stop Result :=
  match t.dualPending with
  | some c =>
      .ok (srv.enter c.info,
        { t with
          dualPending := none
          dual2CompMq := t.dual2CompMq.push [DualDedupThd.admitted cfg c] }, [])
  | none =>
      match t.recv2DualMq.items with
      | [] =>
          if t.recv2DualMq.done = true ∧ t.dual2CompMq.done = false then
            .ok (srv, { t with dual2CompMq := { t.dual2CompMq with done := true } }, [])
          else .error .disabled
      | c :: q =>
          let t := { t with recv2DualMq := { t.recv2DualMq with items := q } }
          if c.info.stat = .chunkPair ∨ c.info.stat = .singleChunk then
            match srv.fp2AddrDb.lookup c.info.fp with
            | none => .ok (srv, { t with dualPending := some c }, [.unique c.info.fp])
            | some _ => .ok (srv, t, [])
          else do
            let r ← exits (DualDedupThd.runChunk cfg srv.fp2AddrDb c)
            .ok (srv, { t with dual2CompMq := t.dual2CompMq.push r.1 }, [])

def compStep (srv : Server) (t : ClientVar) : Except Stop Result :=
  match t.dual2CompMq.items with
  | [] =>
      if t.dual2CompMq.done = true ∧ t.comp2WriterMq.done = false then
        .ok (srv, { t with comp2WriterMq := { t.comp2WriterMq with done := true } }, [])
      else .error .disabled
  | c :: q => do
      let r ← exits (CacheCompThd.runChunk cfg t.informCache c)
      .ok (srv,
        { t with
          dual2CompMq := { t.dual2CompMq with items := q }
          informCache := r.2
          comp2WriterMq := t.comp2WriterMq.push r.1 }, [])

/-- `WriteChunk` of `data` for the chunk in hand, whose address is then marked
by `mark`. -/
def store (srv : Server) (t : ClientVar) (chunk : WrappedChunk) (data : Bytes)
    (mark : KeyForChunkHashDB → KeyForChunkHashDB) (next : WrappedChunk → WriterPc) : Result :=
  let r := srv.storageCore.writeChunk cfg chunk.info.addr data t.cur
  let chunk := { chunk with info := { chunk.info with addr := mark r.1 } }
  ({ srv with storageCore := r.2.1 }, { t with writer := next chunk, cur := r.2.2 },
    [.wrote chunk.info.fp r.1 data])

def writeStep (srv : Server) (t : ClientVar) : Except Stop Result :=
  match t.writer with
  | .pop =>
      match t.comp2WriterMq.items with
      | [] =>
          if t.comp2WriterMq.done = true then
            .ok (DataWriterThd.runEnd srv t.cur, { t with writer := .ended }, [])
          else .error .disabled
      | c :: q =>
          let t := { t with comp2WriterMq := { t.comp2WriterMq with items := q } }
          match c.info.stat with
          | .cacheDeltaChunk => .ok (srv, { t with writer := .cacheDelta c }, [])
          | .uniqueChunk =>
              .ok (srv, { t with
                writer := .find c SimilarPolicy.noMatch c.info.features.toList }, [])
          | _ => .error (.exit .writerChunkType)
  | .find c m (f :: todo) =>
      .ok (srv, { t with
        writer := .find c (SimilarPolicy.countFeature m (srv.feature2FpDb.lookup f)) todo }, [])
  | .find c m [] =>
      let c := { c with info := SimilarPolicy.chooseBase m c.info }
      match c.info.stat with
      | .similarChunk => .ok (srv, { t with writer := .fetch c }, [])
      | .nonSimilarChunk => .ok (srv, { t with writer := .plain c }, [])
      | _ => .error (.exit .writerUniqueType)
  | .fetch c =>
      match srv.fp2AddrDb.lookup c.info.addr.baseFp with
      | none => .error (.exit .writerBaseMissing)
      | some baseAddr => .ok (srv, { t with writer := .read c baseAddr }, [])
  | .read c baseAddr =>
      let r := srv.storageCore.readChunk baseAddr t.cur
      let base := match r.1 with
        | some baseData => (baseData, baseAddr.len)
        | none => (cfg.uninitData, 0)
      .ok (srv, { t with
        writer := if base.2 = 0 then .avoid c base else .delta c base
        cur := r.2 }, [])
  | .avoid c base => .ok (store cfg srv t c c.data id (.delta · base))
  | .delta c base => do
      let delta ← exits (orExit .deltaEncode (cfg.deltaEncode (base.1.take base.2) c.data))
      .ok (store cfg srv t c delta (fun addr => { addr with stat := .compDeltaChunk }) .publish)
  | .plain c =>
      .ok (store cfg srv t c c.data (fun addr => { addr with stat := .compBaseChunk })
        (fun c => .features c c.info.features.toList))
  | .features c (f :: todo) =>
      .ok ({ srv with feature2FpDb := srv.feature2FpDb.insert f c.info.fp },
        { t with writer := .features c todo }, [])
  | .features c [] => .ok (srv, { t with writer := .publish c }, [])
  | .cacheDelta c =>
      .ok (store cfg srv t c c.data (fun addr => { addr with stat := .cacheDeltaChunk }) .publish)
  | .publish c =>
      .ok (DataWriterThd.updateFpIndex srv c, { t with writer := .pop },
        [.published c.info.fp c.info.addr])
  | .ended => .error .disabled

/-- One step of one thread. -/
def step (srv : Server) (t : ClientVar) : ThreadAction → Except Stop Result
  | .recv addr item =>
      if t.recvPending = none ∧ t.recv2DualMq.done = false then recvItem cfg srv t addr item
      else .error .disabled
  | .recvInsert =>
      match t.recvPending with
      | none => .error .disabled
      | some c =>
          .ok (srv.enter c.info,
            { t with
              recvPending := none
              fileRecipe := t.fileRecipe ++ [c.info.fp]
              recv2DualMq := t.recv2DualMq.push [c] }, [])
  | .recvEvict garbage features =>
      if t.recvPending = none ∧ t.recv2DualMq.done = false then
        .ok (srv,
          { t with
            recv2DualMq := t.recv2DualMq.push (DataRecvThd.processEvictFeature garbage features) },
          [])
      else .error .disabled
  | .recvEnd =>
      if t.recvPending = none ∧ t.recv2DualMq.done = false then
        .ok (srv, { t with recv2DualMq := { t.recv2DualMq with done := true } }, [])
      else .error .disabled
  | .dual => dualStep cfg srv t
  | .comp => compStep cfg srv t
  | .write => writeStep cfg srv t

end ClientVar

/-- The server with all its sessions. -/
structure Service where
  srv : Server
  informFiles : ClientId → InformFiles
  /-- `client_lck_idx_`: one upload of a client id at a time. -/
  locked : ClientId → Bool
  clients : Index SessId ClientVar
  trace : List (SessId × Event)

namespace Service

inductive Action where
  | login (s : SessId) (c : ClientId)
  | thread (s : SessId) (a : ThreadAction)
  /-- All threads of the session are joined and its `ClientVar` is deleted; the
  inform cache is stored in the orders given. -/
  | logout (s : SessId) (cntOrder : List (Fp × Nat)) (idxOrder : List (Feature × Fp))

variable (cfg : Components)

/-- A new server. -/
def init : Service where
  srv := .empty
  informFiles := fun _ => .none
  locked := fun _ => false
  clients := ∅
  trace := []

/-- `ClientVar::ClientVar` for an upload. -/
def openClient (w : Service) (c : ClientId) : ClientVar where
  clientId := c
  received := []
  fileRecipe := []
  recvPending := none
  recv2DualMq := ⟨[], false⟩
  dualPending := none
  dual2CompMq := ⟨[], false⟩
  informCache := InformCache.loadCntIdx (w.informFiles c)
  comp2WriterMq := ⟨[], false⟩
  writer := .pop
  cur := (w.srv.storageCore.openClient cfg).2
  deleted := false

def step (w : Service) : Action → Except Stop Service
  | .login s c =>
      if w.locked c = false ∧ s ∉ w.clients then
        .ok { w with
          srv := { w.srv with storageCore := (w.srv.storageCore.openClient cfg).1 }
          locked := Function.update w.locked c true
          clients := w.clients.insert s (w.openClient cfg c) }
      else .error .disabled
  | .thread s a =>
      match w.clients.lookup s with
      | none => .error .disabled
      | some t => do
          let r ← t.step cfg w.srv a
          .ok { w with
            srv := r.1
            clients := w.clients.insert s r.2.1
            trace := w.trace ++ r.2.2.map (s, ·) }
  | .logout s cntOrder idxOrder =>
      match w.clients.lookup s with
      | none => .error .disabled
      | some t =>
          let informCache := t.informCache.deleteEvictChunk
          if t.writer = .ended ∧ t.deleted = false ∧
              Index.Lists informCache.base2CntIdx cntOrder ∧
              Index.Lists informCache.localFeature2FpDb idxOrder then
            .ok { w with
              informFiles := Function.update w.informFiles t.clientId
                (informCache.storeCntIdx cntOrder idxOrder)
              locked := Function.update w.locked t.clientId false
              clients := w.clients.insert s { t with deleted := true } }
          else .error .disabled

end Service

/-! ## What a step can do -/

/-- What an item that is no normal chunk pushes, and its fingerprint. -/
inductive DataRecvThd.Pushes (cfg : Components) (addr : KeyForChunkHashDB) :
    List SendChunk → List WrappedChunk → Fp → Prop
  | pair {cache comp rest fp} (ht : cache.type = .fullEdrCacheChunk)
      (hfp : fp = dualFp cfg (cfg.generateHash cache.data) (cfg.generateHash comp.data)) :
      Pushes cfg addr (cache :: comp :: rest)
        [⟨⟨fp, cache.cipherFeatures, addr, .cacheInsertChunk⟩, cache.data, []⟩,
          ⟨⟨fp, cache.cipherFeatures, addr, .chunkPair⟩, comp.data, []⟩] fp
  | single {chunk rest fp} (ht : chunk.type = .fullEdrUncompressChunk)
      (hfp : fp = dualFp cfg (cfg.generateHash chunk.data) chunk.compressedFp) :
      Pushes cfg addr (chunk :: rest)
        [⟨⟨fp, chunk.cipherFeatures, addr, .singleChunk⟩, chunk.data, []⟩] fp

theorem DataRecvThd.processItem_pushes {cfg : Components} {db : Index Fp KeyForChunkHashDB}
    {addr : KeyForChunkHashDB} {chunk : SendChunk} {rest : List SendChunk}
    {r : List WrappedChunk × Fp × Index Fp KeyForChunkHashDB} (hn : chunk.type ≠ .normalChunk)
    (h : processItem cfg db addr (chunk :: rest) = .ok r) :
    Pushes cfg addr (chunk :: rest) r.1 r.2.1 := by
  simp only [processItem] at h
  split at h
  · rename_i ht
    cases h
    exact .pair ht rfl
  · rename_i ht
    cases h
    exact .single ht rfl
  · rename_i ht
    exact absurd ht hn
  · cases h

namespace ClientVar

/-- Where a `WriteChunk` is about to happen: the chunk in hand, the bytes, the
mark its address gets and what follows. -/
inductive Storing (cfg : Components) : WriterPc → WrappedChunk → Bytes →
    (KeyForChunkHashDB → KeyForChunkHashDB) → (WrappedChunk → WriterPc) → Prop
  | avoid (c : WrappedChunk) (base : Bytes × Nat) :
      Storing cfg (.avoid c base) c c.data id (.delta · base)
  | delta (c : WrappedChunk) (base : Bytes × Nat) {delta : Bytes}
      (he : cfg.deltaEncode (base.1.take base.2) c.data = some delta) :
      Storing cfg (.delta c base) c delta (fun addr => { addr with stat := .compDeltaChunk })
        .publish
  | plain (c : WrappedChunk) :
      Storing cfg (.plain c) c c.data (fun addr => { addr with stat := .compBaseChunk })
        (fun c => .features c c.info.features.toList)
  | cacheDelta (c : WrappedChunk) :
      Storing cfg (.cacheDelta c) c c.data (fun addr => { addr with stat := .cacheDeltaChunk })
        .publish

/-- The steps of one session, with all they read and change. -/
inductive Stepped (cfg : Components) (srv : Server) (t : ClientVar) :
    ThreadAction → Server → ClientVar → List Event → Prop
  | recvPush {addr item chunks fp} (hp : t.recvPending = none) (hd : t.recv2DualMq.done = false)
      (hi : DataRecvThd.Pushes cfg addr item chunks fp) :
      Stepped cfg srv t (.recv addr item) srv
        { t with
          received := t.received ++ [item]
          fileRecipe := t.fileRecipe ++ [fp]
          recv2DualMq := t.recv2DualMq.push chunks } []
  | recvKnown {addr chunk rest} (hp : t.recvPending = none) (hd : t.recv2DualMq.done = false)
      (ht : chunk.type = .normalChunk) (hm : cfg.generateHash chunk.data ∈ srv.fp2AddrDb) :
      Stepped cfg srv t (.recv addr (chunk :: rest)) srv
        { t with
          received := t.received ++ [chunk :: rest]
          fileRecipe := t.fileRecipe ++ [cfg.generateHash chunk.data] } []
  | recvUnique {addr chunk rest} (hp : t.recvPending = none) (hd : t.recv2DualMq.done = false)
      (ht : chunk.type = .normalChunk) (hm : cfg.generateHash chunk.data ∉ srv.fp2AddrDb) :
      Stepped cfg srv t (.recv addr (chunk :: rest)) srv
        { t with
          received := t.received ++ [chunk :: rest]
          recvPending := some (DataRecvThd.normalChunk cfg addr chunk) }
        [.unique (cfg.generateHash chunk.data)]
  | recvInsert {c} (hp : t.recvPending = some c) :
      Stepped cfg srv t .recvInsert (srv.enter c.info)
        { t with
          recvPending := none
          fileRecipe := t.fileRecipe ++ [c.info.fp]
          recv2DualMq := t.recv2DualMq.push [c] } []
  | recvEvict {garbage features} (hp : t.recvPending = none) (hd : t.recv2DualMq.done = false) :
      Stepped cfg srv t (.recvEvict garbage features) srv
        { t with
          recv2DualMq := t.recv2DualMq.push (DataRecvThd.processEvictFeature garbage features) } []
  | recvEnd (hp : t.recvPending = none) (hd : t.recv2DualMq.done = false) :
      Stepped cfg srv t .recvEnd srv
        { t with recv2DualMq := { t.recv2DualMq with done := true } } []
  | dualInsert {c} (hp : t.dualPending = some c) :
      Stepped cfg srv t .dual (srv.enter c.info)
        { t with
          dualPending := none
          dual2CompMq := t.dual2CompMq.push [DualDedupThd.admitted cfg c] } []
  | dualPass {c q} (hp : t.dualPending = none) (hq : t.recv2DualMq.items = c :: q)
      (hs : c.info.stat = .cacheInsertChunk ∨ c.info.stat = .cacheEvictChunk) :
      Stepped cfg srv t .dual srv
        { t with
          recv2DualMq := { t.recv2DualMq with items := q }
          dual2CompMq := t.dual2CompMq.push [c] } []
  | dualKnown {c q} (hp : t.dualPending = none) (hq : t.recv2DualMq.items = c :: q)
      (hs : c.info.stat = .chunkPair ∨ c.info.stat = .singleChunk)
      (hm : c.info.fp ∈ srv.fp2AddrDb) :
      Stepped cfg srv t .dual srv { t with recv2DualMq := { t.recv2DualMq with items := q } } []
  | dualUnique {c q} (hp : t.dualPending = none) (hq : t.recv2DualMq.items = c :: q)
      (hs : c.info.stat = .chunkPair ∨ c.info.stat = .singleChunk)
      (hm : c.info.fp ∉ srv.fp2AddrDb) :
      Stepped cfg srv t .dual srv
        { t with
          recv2DualMq := { t.recv2DualMq with items := q }
          dualPending := some c } [.unique c.info.fp]
  | dualEnd (hp : t.dualPending = none) (hq : t.recv2DualMq.items = [])
      (hd : t.recv2DualMq.done = true) :
      Stepped cfg srv t .dual srv
        { t with dual2CompMq := { t.dual2CompMq with done := true } } []
  | compNew {c q} (hq : t.dual2CompMq.items = c :: q)
      (hs : c.info.stat = .uniqueChunkAfterCache) :
      Stepped cfg srv t .comp srv
        { t with
          dual2CompMq := { t.dual2CompMq with items := q }
          comp2WriterMq := t.comp2WriterMq.push
            [{ c with info := { c.info with stat := .uniqueChunk } }] } []
  | compDelta {c q f base data delta} (hq : t.dual2CompMq.items = c :: q)
      (hs : c.info.stat = .uniqueChunk) (hf : f ∈ c.info.features.toList)
      (hb : t.informCache.localFeature2FpDb.lookup f = some base)
      (hd : t.informCache.base2DataDb.lookup base = some data)
      (he : cfg.deltaEncode data c.data = some delta) :
      Stepped cfg srv t .comp srv
        { t with
          dual2CompMq := { t.dual2CompMq with items := q }
          comp2WriterMq := t.comp2WriterMq.push
            [{ c with
              info := { c.info with
                addr := { c.info.addr with baseFp := base }
                stat := .cacheDeltaChunk }
              data := delta }] } []
  | compPlain {c q} (hq : t.dual2CompMq.items = c :: q) (hs : c.info.stat = .uniqueChunk)
      (h0 : t.informCache.getCacheSize = 0) :
      Stepped cfg srv t .comp srv
        { t with
          dual2CompMq := { t.dual2CompMq with items := q }
          comp2WriterMq := t.comp2WriterMq.push [c] } []
  | compInsert {c q} (hq : t.dual2CompMq.items = c :: q) (hs : c.info.stat = .cacheInsertChunk) :
      Stepped cfg srv t .comp srv
        { t with
          dual2CompMq := { t.dual2CompMq with items := q }
          informCache := t.informCache.insertCachedChunk c } []
  | compEvict {c q cache} (hq : t.dual2CompMq.items = c :: q)
      (hs : c.info.stat = .cacheEvictChunk) (he : t.informCache.evictCacheChunk c = .ok cache) :
      Stepped cfg srv t .comp srv
        { t with
          dual2CompMq := { t.dual2CompMq with items := q }
          informCache := cache } []
  | compEnd (hq : t.dual2CompMq.items = []) (hd : t.dual2CompMq.done = true) :
      Stepped cfg srv t .comp srv
        { t with comp2WriterMq := { t.comp2WriterMq with done := true } } []
  | popDelta {c q} (hw : t.writer = .pop) (hq : t.comp2WriterMq.items = c :: q)
      (hs : c.info.stat = .cacheDeltaChunk) :
      Stepped cfg srv t .write srv
        { t with
          comp2WriterMq := { t.comp2WriterMq with items := q }
          writer := .cacheDelta c } []
  | popUnique {c q} (hw : t.writer = .pop) (hq : t.comp2WriterMq.items = c :: q)
      (hs : c.info.stat = .uniqueChunk) :
      Stepped cfg srv t .write srv
        { t with
          comp2WriterMq := { t.comp2WriterMq with items := q }
          writer := .find c SimilarPolicy.noMatch c.info.features.toList } []
  | find {c m f todo} (hw : t.writer = .find c m (f :: todo)) :
      Stepped cfg srv t .write srv
        { t with
          writer := .find c (SimilarPolicy.countFeature m (srv.feature2FpDb.lookup f)) todo } []
  | similar {c m} (hw : t.writer = .find c m [])
      (hs : (SimilarPolicy.chooseBase m c.info).stat = .similarChunk) :
      Stepped cfg srv t .write srv
        { t with writer := .fetch { c with info := SimilarPolicy.chooseBase m c.info } } []
  | nonSimilar {c m} (hw : t.writer = .find c m [])
      (hs : (SimilarPolicy.chooseBase m c.info).stat = .nonSimilarChunk) :
      Stepped cfg srv t .write srv
        { t with writer := .plain { c with info := SimilarPolicy.chooseBase m c.info } } []
  | fetch {c baseAddr} (hw : t.writer = .fetch c)
      (hl : srv.fp2AddrDb.lookup c.info.addr.baseFp = some baseAddr) :
      Stepped cfg srv t .write srv { t with writer := .read c baseAddr } []
  | read {c baseAddr base cur} (hw : t.writer = .read c baseAddr)
      (hr : (srv.storageCore.readChunk baseAddr t.cur = (some base.1, cur) ∧ base.2 = baseAddr.len) ∨
        (srv.storageCore.readChunk baseAddr t.cur = (none, cur) ∧ base = (cfg.uninitData, 0))) :
      Stepped cfg srv t .write srv
        { t with
          writer := if base.2 = 0 then .avoid c base else .delta c base
          cur := cur } []
  /-- The four places of `WriteChunk`. -/
  | store {c data mark next}
      (hs : Storing cfg t.writer c data mark next) :
      Stepped cfg srv t .write (t.store cfg srv c data mark next).1
        (t.store cfg srv c data mark next).2.1 (t.store cfg srv c data mark next).2.2
  | feature {c f todo} (hw : t.writer = .features c (f :: todo)) :
      Stepped cfg srv t .write
        { srv with feature2FpDb := srv.feature2FpDb.insert f c.info.fp }
        { t with writer := .features c todo } []
  | featuresEnd {c} (hw : t.writer = .features c []) :
      Stepped cfg srv t .write srv { t with writer := .publish c } []
  | publish {c} (hw : t.writer = .publish c) :
      Stepped cfg srv t .write (DataWriterThd.updateFpIndex srv c) { t with writer := .pop }
        [.published c.info.fp c.info.addr]
  | writeEnd (hw : t.writer = .pop) (hq : t.comp2WriterMq.items = [])
      (hd : t.comp2WriterMq.done = true) :
      Stepped cfg srv t .write (DataWriterThd.runEnd srv t.cur) { t with writer := .ended } []

variable {cfg : Components} {srv : Server} {t : ClientVar} {r : Result}

theorem recvItem_stepped {addr : KeyForChunkHashDB} {item : List SendChunk}
    (hp : t.recvPending = none) (hd : t.recv2DualMq.done = false)
    (h : recvItem cfg srv t addr item = .ok r) :
    Stepped cfg srv t (.recv addr item) r.1 r.2.1 r.2.2 := by
  cases item with
  | nil => exact nomatch h
  | cons chunk rest =>
      simp only [recvItem] at h
      split at h
      · rename_i ht
        cases hl : srv.fp2AddrDb.lookup (cfg.generateHash chunk.data) with
        | none =>
            simp only [DataRecvThd.normalChunk, hl] at h
            cases h
            exact .recvUnique hp hd ht (Finmap.lookup_eq_none.mp hl)
        | some a =>
            simp only [DataRecvThd.normalChunk, hl] at h
            cases h
            exact .recvKnown hp hd ht (Index.mem_of_lookup hl)
      · rename_i hn
        obtain ⟨x, hx, h⟩ := bind_ok h
        cases h
        exact .recvPush hp hd (DataRecvThd.processItem_pushes hn (exits_eq_ok hx))

theorem dualStep_stepped (h : dualStep cfg srv t = .ok r) :
    Stepped cfg srv t .dual r.1 r.2.1 r.2.2 := by
  simp only [dualStep] at h
  split at h
  · rename_i c hp
    cases h
    exact .dualInsert hp
  · rename_i hp
    split at h
    · rename_i hq
      split at h
      · rename_i hd
        cases h
        exact .dualEnd hp hq hd.1
      · cases h
    · rename_i c q hq
      split at h
      · rename_i hs
        cases hl : srv.fp2AddrDb.lookup c.info.fp with
        | none =>
            rw [hl] at h
            cases h
            exact .dualUnique hp hq hs (Finmap.lookup_eq_none.mp hl)
        | some a =>
            rw [hl] at h
            cases h
            exact .dualKnown hp hq hs (Index.mem_of_lookup hl)
      · rename_i hs
        obtain ⟨x, hx, h⟩ := bind_ok h
        have hx := exits_eq_ok hx
        simp only [not_or] at hs
        cases h
        simp only [DualDedupThd.runChunk] at hx
        split at hx
        · rename_i hpair; exact absurd hpair hs.1
        · rename_i hsingle; exact absurd hsingle hs.2
        · rename_i hi; cases hx; exact .dualPass hp hq (Or.inl hi)
        · rename_i hv; cases hx; exact .dualPass hp hq (Or.inr hv)
        · cases hx

theorem compStep_stepped (h : compStep cfg srv t = .ok r) :
    Stepped cfg srv t .comp r.1 r.2.1 r.2.2 := by
  simp only [compStep] at h
  split at h
  · rename_i hq
    split at h
    · rename_i hd
      cases h
      exact .compEnd hq hd.1
    · cases h
  · rename_i c q hq
    obtain ⟨x, hx, h⟩ := bind_ok h
    have hx := exits_eq_ok hx
    cases h
    simp only [CacheCompThd.runChunk] at hx
    split at hx
    · rename_i hs
      cases hx
      exact .compNew hq hs
    · rename_i hs
      obtain ⟨⟨input', out⟩, hx', hx⟩ := bind_ok hx
      rcases InformCache.processNormalChunk_cases cfg hx' with
        ⟨rfl, -, rfl⟩ | ⟨f, hf, base, data, delta, hb, -, hdata, he, rfl⟩
      · simp only at hx
        split at hx
        · rename_i h0
          cases hx
          have heq : ({ c with info := { c.info with stat := .uniqueChunk } } : WrappedChunk) = c := by
            rw [← hs]
          simp only [heq]
          exact .compPlain hq hs h0
        · cases hx
      · cases hx
        exact .compDelta hq hs hf hb hdata he
    · rename_i hs
      cases hx
      have hst := @Stepped.compInsert cfg srv t c q hq hs
      simpa [MessageQueue.push] using hst
    · rename_i hs
      obtain ⟨cache, hc, hx⟩ := bind_ok hx
      cases hx
      have hst := @Stepped.compEvict cfg srv t c q cache hq hs hc
      simpa [MessageQueue.push] using hst
    · cases hx

theorem writeStep_stepped (h : writeStep cfg srv t = .ok r) :
    Stepped cfg srv t .write r.1 r.2.1 r.2.2 := by
  simp only [writeStep] at h
  split at h
  · rename_i hw
    split at h
    · rename_i hq
      split at h
      · rename_i hd
        cases h
        exact .writeEnd hw hq hd
      · exact nomatch h
    · rename_i c q hq
      split at h
      · rename_i hs; cases h; exact .popDelta hw hq hs
      · rename_i hs; cases h; exact .popUnique hw hq hs
      · exact nomatch h
  · rename_i hw; cases h; exact .find hw
  · rename_i hw
    split at h
    · rename_i hs; cases h; exact .similar hw hs
    · rename_i hs; cases h; exact .nonSimilar hw hs
    · exact nomatch h
  · rename_i c hw
    cases hl : srv.fp2AddrDb.lookup c.info.addr.baseFp with
    | none => rw [hl] at h; exact nomatch h
    | some baseAddr =>
        rw [hl] at h
        cases h
        exact .fetch hw hl
  · rename_i c baseAddr hw
    obtain ⟨data, cur, hr⟩ : ∃ data cur, srv.storageCore.readChunk baseAddr t.cur = (data, cur) :=
      ⟨_, _, rfl⟩
    rw [hr] at h
    cases h
    cases data with
    | some data =>
        exact @Stepped.read cfg srv t c baseAddr (data, baseAddr.len) cur hw (Or.inl ⟨hr, rfl⟩)
    | none =>
        exact @Stepped.read cfg srv t c baseAddr (cfg.uninitData, 0) cur hw (Or.inr ⟨hr, rfl⟩)
  · rename_i c base hw
    cases h
    exact .store (by rw [hw]; exact .avoid c base)
  · rename_i c base hw
    obtain ⟨delta, he, h⟩ := bind_ok h
    cases h
    exact .store (by rw [hw]; exact .delta c base (orExit_ok (exits_eq_ok he)))
  · rename_i c hw
    cases h
    exact .store (by rw [hw]; exact .plain c)
  · rename_i hw; cases h; exact .feature hw
  · rename_i hw; cases h; exact .featuresEnd hw
  · rename_i c hw
    cases h
    exact .store (by rw [hw]; exact .cacheDelta c)
  · rename_i hw; cases h; exact .publish hw
  · exact nomatch h

/-- A thread's step is one of the steps above. -/
theorem step_stepped {a : ThreadAction} (h : step cfg srv t a = .ok r) :
    Stepped cfg srv t a r.1 r.2.1 r.2.2 := by
  cases a with
  | recv addr item =>
      simp only [step] at h
      split at h
      · rename_i hg; exact recvItem_stepped hg.1 hg.2 h
      · exact nomatch h
  | recvInsert =>
      simp only [step] at h
      split at h
      · exact nomatch h
      · rename_i c hp; cases h; exact .recvInsert hp
  | recvEvict garbage features =>
      simp only [step] at h
      split at h
      · rename_i hg; cases h; exact .recvEvict hg.1 hg.2
      · exact nomatch h
  | recvEnd =>
      simp only [step] at h
      split at h
      · rename_i hg; cases h; exact .recvEnd hg.1 hg.2
      · exact nomatch h
  | dual => exact dualStep_stepped h
  | comp => exact compStep_stepped h
  | write => exact writeStep_stepped h

end ClientVar

namespace Service

/-- The steps of the service. -/
inductive Stepped (cfg : Components) (w : Service) : Action → Service → Prop
  | login {s c} (hl : w.locked c = false) (hs : s ∉ w.clients) :
      Stepped cfg w (.login s c)
        { w with
          srv := { w.srv with storageCore := (w.srv.storageCore.openClient cfg).1 }
          locked := Function.update w.locked c true
          clients := w.clients.insert s (w.openClient cfg c) }
  | thread {s a t srv' t' evs} (hs : w.clients.lookup s = some t)
      (ht : ClientVar.Stepped cfg w.srv t a srv' t' evs) :
      Stepped cfg w (.thread s a)
        { w with
          srv := srv'
          clients := w.clients.insert s t'
          trace := w.trace ++ evs.map (s, ·) }
  | logout {s t} (cntOrder : List (Fp × Nat)) (idxOrder : List (Feature × Fp))
      (hs : w.clients.lookup s = some t) (hw : t.writer = .ended)
      (hi : Index.Lists t.informCache.deleteEvictChunk.localFeature2FpDb idxOrder) :
      Stepped cfg w (.logout s cntOrder idxOrder)
        { w with
          informFiles := Function.update w.informFiles t.clientId
            (t.informCache.deleteEvictChunk.storeCntIdx cntOrder idxOrder)
          locked := Function.update w.locked t.clientId false
          clients := w.clients.insert s { t with deleted := true } }

theorem step_stepped {cfg : Components} {w w' : Service} {a : Action}
    (h : w.step cfg a = .ok w') : Stepped cfg w a w' := by
  cases a with
  | login s c =>
      simp only [step] at h
      split at h
      · rename_i hg
        cases h
        exact .login hg.1 hg.2
      · exact nomatch h
  | thread s a =>
      simp only [step] at h
      split at h
      · exact nomatch h
      · rename_i t hs
        obtain ⟨r, hr, h⟩ := bind_ok h
        cases h
        exact .thread hs (ClientVar.step_stepped hr)
  | logout s cntOrder idxOrder =>
      simp only [step] at h
      split at h
      · exact nomatch h
      · rename_i t hs
        split at h
        · rename_i hg
          cases h
          exact .logout cntOrder idxOrder hs hg.1 hg.2.2.2
        · exact nomatch h

end Service

end EDRStore
