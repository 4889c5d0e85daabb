/-
# `EDRStore.ServerOptThd` — connections, and one session per client id

`ServerOptThd::Run`, one thread a connection.  The lock of a client id is taken
before anything of the client is looked at, by uploads and downloads alike:

    accepted    ReceiveData                  the login message
    findLock    LockClientID                 the index, under client_idx_lck_
    lock        LockClientID                 the mutex of the id
    check       CheckFileStat
    rejected    SERVER_FILE_NON_EXIST, until the client closes the connection
    opening     ClientVar::ClientVar         the inform cache, the recipe
    upload      the four threads of an upload, one step at a time
    download    the two threads of a download, one step at a time
    findUnlock  UnlockClientID               the index
    unlock      UnlockClientID               the mutex
    returned

A step is one access to what connections share.  A thread that has pushed to a
queue goes on once the queue is back at its size (`Pushed`).  `Service` has sessions
that take and give back a flag instead, queues of any length, and only uploads.
-/
import EDRStore.Download
import EDRStore.Lib.KeyedLock

namespace EDRStore

inductive OptType where
  | uploadOpt
  | downloadOpt
deriving DecidableEq

/-- The login message; `optType` is `none` if `msg_type` is neither of the two. -/
structure Login where
  clientId : ClientId
  optType : Option OptType
  fileNameHash : Bytes

/-- Where `ServerOptThd::Run` stands. -/
inductive RunPc where
  | accepted
  | findLock (l : Login)
  | lock (l : Login) (m : Nat)
  | check (l : Login)
  | rejected (l : Login)
  | opening (l : Login) (opt : OptType)
  /-- `head` is what the client has sent with the end of the recipe. -/
  | upload (l : Login) (head : Option FileRecipeHead)
  | download (l : Login) (d : Download)
  | findUnlock (l : Login)
  | unlock (l : Login) (m : Nat)
  | returned

/-- What is in the recipe file when its stream is closed: the placeholder and the
batches that were written out, and the tail and the head if the end came. -/
def DataRecvThd.recipeFile (config : ServerConfig) (fps : List Fp) : Option FileRecipeHead → Bytes
  | none =>
      (fps.foldl (processRecipe config.sendRecipeBatchSize)
        ⟨⟨config.buf, 0⟩, config.unsetHead⟩).hdl
  | some head => (fileRecipe config.sendRecipeBatchSize config.unsetHead config.buf fps head).hdl

/-- The server: the indexes and the containers, the files of the inform caches and
of the recipes, `client_lck_idx_`, the connections, and the sessions of uploads. -/
structure ServerOptThd where
  srv : Server
  informFiles : ClientId → InformFiles
  recipes : Index Bytes Bytes
  clientLckIdx : KeyedLock ClientId
  runs : Index SessId RunPc
  clients : Index SessId ClientVar
  trace : List (SessId × Event)

namespace ServerOptThd

inductive Action where
  | accept (s : SessId)
  | login (s : SessId) (l : Login)
  | findLock (s : SessId)
  | lock (s : SessId)
  | check (s : SessId)
  /-- What a client does after `SERVER_FILE_NON_EXIST`. -/
  | answer (s : SessId) (closes : Bool)
  | opened (s : SessId)
  | thread (s : SessId) (a : ThreadAction)
  | recipeEnd (s : SessId) (head : FileRecipeHead)
  /-- Whatever of a recipe that is being written reaches the file before its stream
  is closed. -/
  | flush (s : SessId) (file : Bytes)
  | download (s : SessId) (a : DownloadAction)
  /-- The threads are joined and `ClientVar` is deleted: the inform cache is stored
  in the orders given, the recipe is closed. -/
  | join (s : SessId) (cntOrder : List (Fp × Nat)) (idxOrder : List (Feature × Fp))
  | findUnlock (s : SessId)
  | unlock (s : SessId)

def init : ServerOptThd where
  srv := .empty
  informFiles := fun _ => .none
  recipes := ∅
  clientLckIdx := .empty
  runs := ∅
  clients := ∅
  trace := []

/-- The sessions, under flags instead of mutexes. -/
def service (w : ServerOptThd) (locked : ClientId → Bool) : Service where
  srv := w.srv
  informFiles := w.informFiles
  locked := locked
  clients := w.clients
  trace := w.trace

/-- `CheckFileStat`. -/
def checkFileStat (w : ServerOptThd) (l : Login) : OptType → Bool
  | .uploadOpt => true
  | .downloadOpt => decide (l.fileNameHash ∈ w.recipes)

/-- All threads of an upload have come to their end. -/
def ThreadsEnded (t : ClientVar) : Prop :=
  t.recv2DualMq.done = true ∧ t.dual2CompMq.done = true ∧ t.comp2WriterMq.done = true ∧
    t.writer = .ended

instance (t : ClientVar) : Decidable (ThreadsEnded t) :=
  inferInstanceAs (Decidable (_ ∧ _ ∧ _ ∧ _))

/-- The last `Push` of the thread that takes the step has returned. -/
def Pushed (config : ServerConfig) (t : ClientVar) : ThreadAction → Prop
  | .dual => t.dual2CompMq.items.length ≤ config.chunkQueueSize
  | .comp => t.comp2WriterMq.items.length ≤ config.chunkQueueSize
  | .write => True
  | _ => t.recv2DualMq.items.length ≤ config.chunkQueueSize

instance (config : ServerConfig) (t : ClientVar) : ∀ a, Decidable (Pushed config t a)
  | .dual => inferInstanceAs (Decidable (_ ≤ _))
  | .comp => inferInstanceAs (Decidable (_ ≤ _))
  | .write => inferInstanceAs (Decidable True)
  | .recv _ _ => inferInstanceAs (Decidable (_ ≤ _))
  | .recvInsert => inferInstanceAs (Decidable (_ ≤ _))
  | .recvEvict _ _ => inferInstanceAs (Decidable (_ ≤ _))
  | .recvEnd => inferInstanceAs (Decidable (_ ≤ _))

/-- After the end of the recipe a client sends nothing more. -/
def sends : ThreadAction → Bool
  | .recv _ _ => true
  | .recvEvict _ _ => true
  | _ => false

variable (cfg : Components) (config : ServerConfig)

/-- `ClientVar::ClientVar`. -/
def openSession (w : ServerOptThd) (s : SessId) (l : Login) :
    OptType → Except RunStop ServerOptThd
  | .uploadOpt =>
      .ok { w with
        srv := { w.srv with storageCore := (w.srv.storageCore.openClient cfg).1 }
        recipes := w.recipes.insert l.fileNameHash []
        runs := w.runs.insert s (.upload l none)
        clients := w.clients.insert s ((w.service fun _ => false).openClient cfg l.clientId) }
  | .downloadOpt =>
      if l.fileNameHash ∈ w.recipes then
        .ok { w with
          runs := w.runs.insert s (.download l
            (.new cfg config (w.informFiles l.clientId))) }
      else .error .recipeOpen

/-- `InformCache::~InformCache`, for the client of `l`. -/
def storeInform (w : ServerOptThd) (l : Login) (c : InformCache) (cntOrder : List (Fp × Nat))
    (idxOrder : List (Feature × Fp)) : ClientId → InformFiles :=
  Function.update w.informFiles l.clientId (c.storeCntIdx cntOrder idxOrder)

/-- `ClientVar::~ClientVar`, for an upload. -/
def closeUpload (w : ServerOptThd) (s : SessId) (l : Login) (head : Option FileRecipeHead)
    (t : ClientVar) (cntOrder : List (Fp × Nat)) (idxOrder : List (Feature × Fp)) :
    ServerOptThd :=
  { w with
    informFiles := w.storeInform l t.informCache.deleteEvictChunk cntOrder idxOrder
    recipes := w.recipes.insert l.fileNameHash (DataRecvThd.recipeFile config t.fileRecipe head)
    runs := w.runs.insert s (.findUnlock l)
    clients := w.clients.insert s { t with deleted := true } }

/-- `ClientVar::~ClientVar`, for a download. -/
def closeDownload (w : ServerOptThd) (s : SessId) (l : Login) (d : Download)
    (cntOrder : List (Fp × Nat)) (idxOrder : List (Feature × Fp)) : ServerOptThd :=
  { w with
    informFiles := w.storeInform l d.informCache.deleteEvictChunk cntOrder idxOrder
    runs := w.runs.insert s (.findUnlock l) }

def step (w : ServerOptThd) : Action → Except RunStop ServerOptThd
  | .accept s =>
      if s ∉ w.runs then .ok { w with runs := w.runs.insert s .accepted } else .error .disabled
  | .login s l =>
      match w.runs.lookup s with
      | some .accepted => .ok { w with runs := w.runs.insert s (.findLock l) }
      | _ => .error .disabled
  | .findLock s =>
      match w.runs.lookup s with
      | some (.findLock l) =>
          let r := w.clientLckIdx.find l.clientId
          .ok { w with clientLckIdx := r.2, runs := w.runs.insert s (.lock l r.1) }
      | _ => .error .disabled
  | .lock s =>
      match w.runs.lookup s with
      | some (.lock l m) =>
          if w.clientLckIdx.held m = false then
            .ok { w with
              clientLckIdx := w.clientLckIdx.set m true
              runs := w.runs.insert s (.check l) }
          else .error .disabled
      | _ => .error .disabled
  | .check s =>
      match w.runs.lookup s with
      | some (.check l) =>
          match l.optType with
          | none => .error .loginType
          | some opt =>
              let next := if w.checkFileStat l opt = true then .opening l opt else .rejected l
              .ok { w with runs := w.runs.insert s next }
      | _ => .error .disabled
  | .answer s closes =>
      match w.runs.lookup s with
      | some (.rejected l) =>
          if closes = true then .ok { w with runs := w.runs.insert s (.findUnlock l) }
          else .error .notClosed
      | _ => .error .disabled
  | .opened s =>
      match w.runs.lookup s with
      | some (.opening l opt) => w.openSession cfg config s l opt
      | _ => .error .disabled
  | .thread s a =>
      match w.runs.lookup s, w.clients.lookup s with
      | some (.upload _ head), some t =>
          if (sends a = true ∧ head ≠ none) ∨ ¬ Pushed config t a then .error .disabled
          else
            match t.step cfg w.srv a with
            | .ok r =>
                .ok { w with
                  srv := r.1
                  clients := w.clients.insert s r.2.1
                  trace := w.trace ++ r.2.2.map (s, ·) }
            | .error e => .error (.ofStop e)
      | _, _ => .error .disabled
  | .recipeEnd s head =>
      match w.runs.lookup s with
      | some (.upload l none) => .ok { w with runs := w.runs.insert s (.upload l (some head)) }
      | _ => .error .disabled
  | .flush s file =>
      match w.runs.lookup s with
      | some (.upload l _) => .ok { w with recipes := w.recipes.insert l.fileNameHash file }
      | _ => .error .disabled
  | .download s a =>
      match w.runs.lookup s with
      | some (.download l d) =>
          let file := (w.recipes.lookup l.fileNameHash).getD []
          match d.step cfg config l.clientId w.srv file a with
          | .ok d' => .ok { w with runs := w.runs.insert s (.download l d') }
          | .error e => .error e
      | _ => .error .disabled
  | .join s cntOrder idxOrder =>
      match w.runs.lookup s, w.clients.lookup s with
      | some (.upload l head), some t =>
          let informCache := t.informCache.deleteEvictChunk
          if ThreadsEnded t ∧ Index.Lists informCache.base2CntIdx cntOrder ∧
              Index.Lists informCache.localFeature2FpDb idxOrder then
            .ok (w.closeUpload config s l head t cntOrder idxOrder)
          else .error .disabled
      | some (.download l d), _ =>
          let informCache := d.informCache.deleteEvictChunk
          if d.Ended ∧ Index.Lists informCache.base2CntIdx cntOrder ∧
              Index.Lists informCache.localFeature2FpDb idxOrder then
            .ok (w.closeDownload s l d cntOrder idxOrder)
          else .error .disabled
      | _, _ => .error .disabled
  | .findUnlock s =>
      match w.runs.lookup s with
      | some (.findUnlock l) =>
          match w.clientLckIdx.table l.clientId with
          | some m => .ok { w with runs := w.runs.insert s (.unlock l m) }
          | none => .error .nullMutex
      | _ => .error .disabled
  | .unlock s =>
      match w.runs.lookup s with
      | some (.unlock _ m) =>
          .ok { w with
            clientLckIdx := w.clientLckIdx.set m false
            runs := w.runs.insert s .returned }
      | _ => .error .disabled

/-! ## What a step can do -/

/-- The steps of the server, with all they read and change. -/
inductive Stepped (w : ServerOptThd) : Action → ServerOptThd → Prop
  | accept {s} (hs : s ∉ w.runs) :
      Stepped w (.accept s) { w with runs := w.runs.insert s .accepted }
  | login {s l} (hs : w.runs.lookup s = some .accepted) :
      Stepped w (.login s l) { w with runs := w.runs.insert s (.findLock l) }
  | findLock {s l} (hs : w.runs.lookup s = some (.findLock l)) :
      Stepped w (.findLock s) { w with
        clientLckIdx := (w.clientLckIdx.find l.clientId).2
        runs := w.runs.insert s (.lock l (w.clientLckIdx.find l.clientId).1) }
  | lock {s l m} (hs : w.runs.lookup s = some (.lock l m)) (hfree : w.clientLckIdx.held m = false) :
      Stepped w (.lock s) { w with
        clientLckIdx := w.clientLckIdx.set m true
        runs := w.runs.insert s (.check l) }
  | accepts {s l opt} (hs : w.runs.lookup s = some (.check l)) (ho : l.optType = some opt)
      (hf : w.checkFileStat l opt = true) :
      Stepped w (.check s) { w with runs := w.runs.insert s (.opening l opt) }
  | rejects {s l opt} (hs : w.runs.lookup s = some (.check l)) (ho : l.optType = some opt)
      (hf : w.checkFileStat l opt = false) :
      Stepped w (.check s) { w with runs := w.runs.insert s (.rejected l) }
  | answer {s l} (hs : w.runs.lookup s = some (.rejected l)) :
      Stepped w (.answer s true) { w with runs := w.runs.insert s (.findUnlock l) }
  | openUpload {s l} (hs : w.runs.lookup s = some (.opening l .uploadOpt)) :
      Stepped w (.opened s) { w with
        srv := { w.srv with storageCore := (w.srv.storageCore.openClient cfg).1 }
        recipes := w.recipes.insert l.fileNameHash []
        runs := w.runs.insert s (.upload l none)
        clients := w.clients.insert s ((w.service fun _ => false).openClient cfg l.clientId) }
  | openDownload {s l} (hs : w.runs.lookup s = some (.opening l .downloadOpt))
      (hf : l.fileNameHash ∈ w.recipes) :
      Stepped w (.opened s) { w with
        runs := w.runs.insert s (.download l (.new cfg config (w.informFiles l.clientId))) }
  | thread {s a l head t r} (hs : w.runs.lookup s = some (.upload l head))
      (ht : w.clients.lookup s = some t) (hq : sends a = true → head = none)
      (hp : Pushed config t a)
      (hstep : t.step cfg w.srv a = .ok r) :
      Stepped w (.thread s a) { w with
        srv := r.1
        clients := w.clients.insert s r.2.1
        trace := w.trace ++ r.2.2.map (s, ·) }
  | recipeEnd {s l head} (hs : w.runs.lookup s = some (.upload l none)) :
      Stepped w (.recipeEnd s head) { w with runs := w.runs.insert s (.upload l (some head)) }
  | flush {s l head file} (hs : w.runs.lookup s = some (.upload l head)) :
      Stepped w (.flush s file) { w with recipes := w.recipes.insert l.fileNameHash file }
  | download {s a l d d'} (hs : w.runs.lookup s = some (.download l d))
      (hstep : d.step cfg config l.clientId w.srv ((w.recipes.lookup l.fileNameHash).getD []) a =
        .ok d') :
      Stepped w (.download s a) { w with runs := w.runs.insert s (.download l d') }
  | joinUpload {s l head t cntOrder idxOrder} (hs : w.runs.lookup s = some (.upload l head))
      (ht : w.clients.lookup s = some t) (he : ThreadsEnded t)
      (hc : Index.Lists t.informCache.deleteEvictChunk.base2CntIdx cntOrder)
      (hi : Index.Lists t.informCache.deleteEvictChunk.localFeature2FpDb idxOrder) :
      Stepped w (.join s cntOrder idxOrder) (w.closeUpload config s l head t cntOrder idxOrder)
  | joinDownload {s l d cntOrder idxOrder} (hs : w.runs.lookup s = some (.download l d))
      (he : d.Ended)
      (hc : Index.Lists d.informCache.deleteEvictChunk.base2CntIdx cntOrder)
      (hi : Index.Lists d.informCache.deleteEvictChunk.localFeature2FpDb idxOrder) :
      Stepped w (.join s cntOrder idxOrder) (w.closeDownload s l d cntOrder idxOrder)
  | findUnlock {s l m} (hs : w.runs.lookup s = some (.findUnlock l))
      (hm : w.clientLckIdx.table l.clientId = some m) :
      Stepped w (.findUnlock s) { w with runs := w.runs.insert s (.unlock l m) }
  | unlock {s l m} (hs : w.runs.lookup s = some (.unlock l m)) :
      Stepped w (.unlock s) { w with
        clientLckIdx := w.clientLckIdx.set m false
        runs := w.runs.insert s .returned }

variable {cfg config} {w w' : ServerOptThd} {a : Action}

theorem step_stepped (h : w.step cfg config a = .ok w') : Stepped cfg config w a w' := by
  cases a with
  | accept s =>
      simp only [step] at h
      split at h
      · rename_i hs
        cases h
        exact .accept hs
      · cases h
  | login s l =>
      simp only [step] at h
      split at h
      · rename_i hs
        cases h
        exact .login hs
      · cases h
  | findLock s =>
      simp only [step] at h
      split at h
      · rename_i l hs
        cases h
        exact .findLock hs
      · cases h
  | lock s =>
      simp only [step] at h
      split at h
      · rename_i l m hs
        split at h
        · rename_i hfree
          cases h
          exact .lock hs hfree
        · cases h
      · cases h
  | check s =>
      simp only [step] at h
      split at h
      · rename_i l hs
        split at h
        · cases h
        · rename_i opt ho
          split at h
          · rename_i hf
            cases h
            exact .accepts hs ho hf
          · rename_i hf
            cases h
            exact .rejects hs ho (Bool.eq_false_iff.mpr hf)
      · cases h
  | answer s closes =>
      simp only [step] at h
      split at h
      · rename_i l hs
        split at h
        · rename_i hc
          cases h
          subst hc
          exact .answer hs
        · cases h
      · cases h
  | opened s =>
      simp only [step] at h
      split at h
      · rename_i l opt hs
        cases opt with
        | uploadOpt =>
            cases h
            exact .openUpload hs
        | downloadOpt =>
            simp only [openSession] at h
            split at h
            · rename_i hf
              cases h
              exact .openDownload hs hf
            · cases h
      · cases h
  | thread s a =>
      simp only [step] at h
      split at h
      · rename_i l head t hs ht
        split at h
        · cases h
        · rename_i hq
          split at h
          · rename_i r hstep
            cases h
            rw [not_or, Decidable.not_not] at hq
            exact .thread hs ht (fun hr => Decidable.of_not_not fun hn => hq.1 ⟨hr, hn⟩) hq.2
              hstep
          · cases h
      · cases h
  | recipeEnd s head =>
      simp only [step] at h
      split at h
      · rename_i l hs
        cases h
        exact .recipeEnd hs
      · cases h
  | flush s file =>
      simp only [step] at h
      split at h
      · rename_i l head hs
        cases h
        exact .flush hs
      · cases h
  | download s a =>
      simp only [step] at h
      split at h
      · rename_i l d hs
        split at h
        · rename_i d' hstep
          cases h
          exact .download hs hstep
        · cases h
      · cases h
  | join s cntOrder idxOrder =>
      simp only [step] at h
      split at h
      · rename_i l head t hs ht
        split at h
        · rename_i hc
          cases h
          exact .joinUpload hs ht hc.1 hc.2.1 hc.2.2
        · cases h
      · rename_i l d hs
        split at h
        · rename_i hc
          cases h
          exact .joinDownload hs hc.1 hc.2.1 hc.2.2
        · cases h
      · cases h
  | findUnlock s =>
      simp only [step] at h
      split at h
      · rename_i l hs
        split at h
        · rename_i m hm
          cases h
          exact .findUnlock hs hm
        · cases h
      · cases h
  | unlock s =>
      simp only [step] at h
      split at h
      · rename_i l m hs
        cases h
        exact .unlock hs
      · cases h

end ServerOptThd

end EDRStore
