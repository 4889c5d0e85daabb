/-
# `EDRStore.SessionLocks` — what the locks of the client ids give

In every interleaving of the connections at most one of them is in the section of
a client id (`Locked`).  So the files of a client's inform cache, which a session
loads when it opens and writes when it closes, do not change in between
(`inform_files_kept`), and a server with real mutexes, downloads and rejected
logins does what `Service` does with one flag per id (`refines_service`):

    opened, an upload    Service.login
    thread               Service.thread
    join, of an upload   Service.logout
    anything else        no step

A download stores the inform cache too, but it stores what it has loaded
(`load_store_settled`).
-/
import EDRStore.ServerOptThd
import EDRStore.SharedStore

namespace EDRStore

/-- Where a connection stands with respect to the lock of its client id. -/
def RunPc.lockPc : RunPc → LockPc ClientId
  | .accepted => .outside
  | .findLock _ => .outside
  | .lock l m => .found l.clientId m
  | .check l => .inside l.clientId
  | .rejected l => .inside l.clientId
  | .opening l _ => .inside l.clientId
  | .upload l _ => .inside l.clientId
  | .download l _ => .inside l.clientId
  | .findUnlock l => .inside l.clientId
  | .unlock l m => .leaving l.clientId m
  | .returned => .outside

/-- The client id whose inform files are the connection's own: it is in the section
and has not stored them yet. -/
def RunPc.owner? : RunPc → Option ClientId
  | .check l => some l.clientId
  | .rejected l => some l.clientId
  | .opening l _ => some l.clientId
  | .upload l _ => some l.clientId
  | .download l _ => some l.clientId
  | _ => none

theorem RunPc.key_of_owner {p : RunPc} {c : ClientId} (h : p.owner? = some c) :
    p.lockPc.key? = some c := by
  cases p <;> first | exact h | cases h

/-! ## Storing what has been loaded -/

namespace InformFiles

/-- No count is zero, and the features are read: what a session leaves behind. -/
structure Settled (f : InformFiles) : Prop where
  counts : ∀ fp, (InformCache.loadCntIdx f).base2CntIdx.lookup fp ≠ some 0
  features : (InformCache.loadCntIdx f).base2CntIdx = ∅ →
    (InformCache.loadCntIdx f).localFeature2FpDb = ∅

theorem settled_none : Settled .none where
  counts := by rintro fp ⟨⟩
  features := fun _ => rfl

end InformFiles

namespace InformCache

variable {c : InformCache} {cntOrder : List (Fp × Nat)} {idxOrder : List (Feature × Fp)}

theorem settled_store (hc : Index.Lists c.deleteEvictChunk.base2CntIdx cntOrder) :
    (c.deleteEvictChunk.storeCntIdx cntOrder idxOrder).Settled where
  counts := by
    intro fp h
    rw [(load_store_cnt idxOrder hc).1, lookup_deleteEvictChunk_cnt] at h
    obtain ⟨-, hne⟩ := Option.filter_eq_some_iff.mp h
    exact absurd hne (by decide)
  features := by
    intro h
    rw [(load_store_cnt idxOrder hc).1] at h
    cases cntOrder with
    | nil => rfl
    | cons e cntOrder =>
        have hmem : e.1 ∈ c.deleteEvictChunk.base2CntIdx :=
          hc.mem_keys.mp List.mem_cons_self
        rw [h] at hmem
        exact absurd hmem (Finmap.notMem_empty)

/-- Nothing is left to delete. -/
theorem deleteEvictChunk_eq (h : ∀ fp, c.base2CntIdx.lookup fp ≠ some 0) :
    c.deleteEvictChunk = c := by
  have hcnt : c.deleteEvictChunk.base2CntIdx = c.base2CntIdx := by
    refine Finmap.ext_lookup fun fp => ?_
    rw [lookup_deleteEvictChunk_cnt]
    cases hl : c.base2CntIdx.lookup fp with
    | none => rfl
    | some cnt =>
        have hne : cnt ≠ 0 := by
          rintro rfl
          exact h fp hl
        rw [Option.filter_some, if_pos (by simpa using hne)]
  have hdata : c.deleteEvictChunk.base2DataDb = c.base2DataDb := by
    refine Finmap.ext_lookup fun fp => ?_
    rw [lookup_deleteEvictChunk_data, if_neg (h fp)]
  obtain ⟨features, cnt, data⟩ := c
  rw [show deleteEvictChunk ⟨features, cnt, data⟩ =
    ⟨features, (deleteEvictChunk ⟨features, cnt, data⟩).base2CntIdx,
      (deleteEvictChunk ⟨features, cnt, data⟩).base2DataDb⟩ from rfl, hcnt, hdata]

/-- A session that changes nothing: the next one loads what this one has loaded. -/
theorem load_store_settled {f : InformFiles} (hf : f.Settled)
    (hc : Index.Lists (loadCntIdx f).deleteEvictChunk.base2CntIdx cntOrder)
    (hi : Index.Lists (loadCntIdx f).deleteEvictChunk.localFeature2FpDb idxOrder) :
    loadCntIdx ((loadCntIdx f).deleteEvictChunk.storeCntIdx cntOrder idxOrder) = loadCntIdx f := by
  rw [deleteEvictChunk_eq hf.counts] at hc hi ⊢
  exact load_store hc hi hf.features

end InformCache

/-- A thread does not touch the name of its session. -/
theorem ClientVar.Stepped.keeps {cfg : Components} {srv srv' : Server} {t t' : ClientVar}
    {a : ThreadAction} {evs : List Event} (h : Stepped cfg srv t a srv' t' evs) :
    t'.clientId = t.clientId ∧ t'.deleted = t.deleted := by
  cases h <;> exact ⟨rfl, rfl⟩

/-- Every step of a thread meets `H`. -/
def Service.Threads (H : ThreadAction → Prop) (_ : Service) : Service.Action → Prop
  | .thread _ x => H x
  | _ => True

namespace ServerOptThd

variable {cfg : Components} {config : ServerConfig} {w w' : ServerOptThd} {a : Action} {s : SessId}

/-! ## The lock -/

/-- Where all connections stand. -/
def lockPcs (w : ServerOptThd) (s : SessId) : LockPc ClientId :=
  ((w.runs.lookup s).map RunPc.lockPc).getD .outside

theorem lockPcs_of_lookup {p : RunPc} (h : w.runs.lookup s = some p) :
    w.lockPcs s = p.lockPc := by
  rw [lockPcs, h]
  rfl

/-- The connection that takes a step. -/
def Action.sess : Action → SessId
  | .accept s => s
  | .login s _ => s
  | .findLock s => s
  | .lock s => s
  | .check s => s
  | .answer s _ => s
  | .opened s => s
  | .thread s _ => s
  | .recipeEnd s _ => s
  | .flush s _ => s
  | .download s _ => s
  | .join s _ _ => s
  | .findUnlock s => s
  | .unlock s => s

/-- A step changes no other connection. -/
theorem Stepped.others (h : Stepped cfg config w a w') (hne : s ≠ a.sess) :
    w'.runs.lookup s = w.runs.lookup s ∧ w'.clients.lookup s = w.clients.lookup s := by
  have hins : ∀ {V : Type} (m : Index SessId V) (v : V),
      (m.insert a.sess v).lookup s = m.lookup s := fun m v => by
    rw [Index.lookup_insert_ite, if_neg hne]
  cases h with
  | accept hs => exact ⟨hins _ _, rfl⟩
  | login hs => exact ⟨hins _ _, rfl⟩
  | findLock hs => exact ⟨hins _ _, rfl⟩
  | lock hs hfree => exact ⟨hins _ _, rfl⟩
  | accepts hs ho hf => exact ⟨hins _ _, rfl⟩
  | rejects hs ho hf => exact ⟨hins _ _, rfl⟩
  | answer hs => exact ⟨hins _ _, rfl⟩
  | openUpload hs => exact ⟨hins _ _, hins _ _⟩
  | openDownload hs hf => exact ⟨hins _ _, rfl⟩
  | thread hs ht hq hpush hstep => exact ⟨rfl, hins _ _⟩
  | recipeEnd hs => exact ⟨hins _ _, rfl⟩
  | flush hs => exact ⟨rfl, rfl⟩
  | download hs hstep => exact ⟨hins _ _, rfl⟩
  | joinUpload hs ht he hc hi => exact ⟨hins _ _, hins _ _⟩
  | joinDownload hs he hc hi => exact ⟨hins _ _, rfl⟩
  | findUnlock hs hm => exact ⟨hins _ _, rfl⟩
  | unlock hs => exact ⟨hins _ _, rfl⟩

/-- What a step does to the connection that takes it. -/
theorem Stepped.lockPcs (h : Stepped cfg config w a w') {p' : RunPc}
    (hp' : w'.runs.lookup a.sess = some p') :
    w'.lockPcs = Function.update w.lockPcs a.sess p'.lockPc := by
  funext x
  rw [Function.update_apply]
  split
  · rename_i hx
    rw [hx, lockPcs_of_lookup hp']
  · rename_i hx
    rw [ServerOptThd.lockPcs, ServerOptThd.lockPcs, (h.others hx).1]

/-- A step of the server is a move of the lock, or the connection stays where it
stands with respect to it. -/
theorem Stepped.moves (h : Stepped cfg config w a w') : ∃ p', w'.runs.lookup a.sess = some p' ∧
    (KeyedLock.Moves w.clientLckIdx (w.lockPcs a.sess) w'.clientLckIdx p'.lockPc ∨
      (w'.clientLckIdx = w.clientLckIdx ∧ p'.lockPc = w.lockPcs a.sess)) := by
  have hself : ∀ {V : Type} (m : Index SessId V) (v : V),
      (m.insert a.sess v).lookup a.sess = some v := fun m v => Finmap.lookup_insert m
  cases h with
  | accept hs =>
      refine ⟨_, hself _ _, Or.inr ⟨rfl, ?_⟩⟩
      rw [ServerOptThd.lockPcs, Action.sess, Finmap.lookup_eq_none.mpr hs]
      rfl
  | login hs => exact ⟨_, hself _ _, Or.inr ⟨rfl, (lockPcs_of_lookup hs).symm⟩⟩
  | findLock hs =>
      refine ⟨_, hself _ _, Or.inl ?_⟩
      rw [Action.sess, lockPcs_of_lookup hs]
      exact .find
  | lock hs hfree =>
      refine ⟨_, hself _ _, Or.inl ?_⟩
      rw [Action.sess, lockPcs_of_lookup hs]
      exact .acquire hfree
  | accepts hs ho hf => exact ⟨_, hself _ _, Or.inr ⟨rfl, (lockPcs_of_lookup hs).symm⟩⟩
  | rejects hs ho hf => exact ⟨_, hself _ _, Or.inr ⟨rfl, (lockPcs_of_lookup hs).symm⟩⟩
  | answer hs => exact ⟨_, hself _ _, Or.inr ⟨rfl, (lockPcs_of_lookup hs).symm⟩⟩
  | openUpload hs => exact ⟨_, hself _ _, Or.inr ⟨rfl, (lockPcs_of_lookup hs).symm⟩⟩
  | openDownload hs hf => exact ⟨_, hself _ _, Or.inr ⟨rfl, (lockPcs_of_lookup hs).symm⟩⟩
  | thread hs ht hq hpush hstep => exact ⟨_, hs, Or.inr ⟨rfl, (lockPcs_of_lookup hs).symm⟩⟩
  | recipeEnd hs => exact ⟨_, hself _ _, Or.inr ⟨rfl, (lockPcs_of_lookup hs).symm⟩⟩
  | flush hs => exact ⟨_, hs, Or.inr ⟨rfl, (lockPcs_of_lookup hs).symm⟩⟩
  | download hs hstep => exact ⟨_, hself _ _, Or.inr ⟨rfl, (lockPcs_of_lookup hs).symm⟩⟩
  | joinUpload hs ht he hc hi => exact ⟨_, hself _ _, Or.inr ⟨rfl, (lockPcs_of_lookup hs).symm⟩⟩
  | joinDownload hs he hc hi => exact ⟨_, hself _ _, Or.inr ⟨rfl, (lockPcs_of_lookup hs).symm⟩⟩
  | findUnlock hs hm =>
      refine ⟨_, hself _ _, Or.inl ?_⟩
      rw [Action.sess, lockPcs_of_lookup hs]
      exact .refind hm
  | unlock hs =>
      refine ⟨_, hself _ _, Or.inl ?_⟩
      rw [Action.sess, lockPcs_of_lookup hs]
      exact .release

theorem sound_step (hk : w.clientLckIdx.Sound w.lockPcs) (h : Stepped cfg config w a w') :
    w'.clientLckIdx.Sound w'.lockPcs := by
  obtain ⟨p', hp', hm | ⟨hl, hp⟩⟩ := h.moves
  · rw [h.lockPcs hp']
    exact hk.moves hm
  · rw [h.lockPcs hp', hl, hp, Function.update_eq_self]
    exact hk

/-- The owner of a client id is the only one. -/
theorem owner_unique (hk : w.clientLckIdx.Sound w.lockPcs) {s s' : SessId} {p p' : RunPc}
    {c : ClientId} (hs : w.runs.lookup s = some p) (hs' : w.runs.lookup s' = some p')
    (hp : p.lockPc.key? = some c) (hp' : p'.lockPc.key? = some c) : s = s' := by
  refine hk.unique (k := c) ?_ ?_
  · rw [lockPcs_of_lookup hs, hp]
  · rw [lockPcs_of_lookup hs', hp']

/-! ## The files of the inform caches -/

/-- The files of a client id are written by its owner, which then is it no more. -/
theorem Stepped.informFiles (h : Stepped cfg config w a w') {c : ClientId}
    (hne : w'.informFiles c ≠ w.informFiles c) :
    (∃ p, w.runs.lookup a.sess = some p ∧ p.owner? = some c) ∧
      ∃ l, w'.runs.lookup a.sess = some (.findUnlock l) := by
  have hself : ∀ {V : Type} (m : Index SessId V) (v : V),
      (m.insert a.sess v).lookup a.sess = some v := fun m v => Finmap.lookup_insert m
  have hstore : ∀ {l : Login} {f : InformFiles},
      Function.update w.informFiles l.clientId f c ≠ w.informFiles c → l.clientId = c := by
    intro l f hu
    by_contra hn
    exact hu (Function.update_of_ne (Ne.symm hn) ..)
  cases h with
  | joinUpload hs ht he hc hi =>
      exact ⟨⟨_, hs, congrArg some (hstore hne)⟩, _, hself _ _⟩
  | joinDownload hs he hc hi =>
      exact ⟨⟨_, hs, congrArg some (hstore hne)⟩, _, hself _ _⟩
  | _ => exact absurd rfl hne

/-! ## The invariant -/

/-- A connection that has got its `ClientVar`. -/
def Opened : RunPc → Prop
  | .upload _ _ => True
  | .findUnlock _ => True
  | .unlock _ _ => True
  | .returned => True
  | _ => False

structure Locked (w : ServerOptThd) : Prop where
  sound : w.clientLckIdx.Sound w.lockPcs
  opened : ∀ {s t}, w.clients.lookup s = some t → ∃ p, w.runs.lookup s = some p ∧ Opened p
  upload : ∀ {s l head}, w.runs.lookup s = some (.upload l head) →
    ∃ t, w.clients.lookup s = some t ∧ t.clientId = l.clientId ∧ t.deleted = false
  /-- A download stores what it has loaded. -/
  download : ∀ {s l d}, w.runs.lookup s = some (.download l d) →
    d.informCache = InformCache.loadCntIdx (w.informFiles l.clientId)
  settled : ∀ c, (w.informFiles c).Settled

theorem locked_init : Locked init where
  sound := KeyedLock.sound_empty
  opened := by rintro s t ⟨⟩
  upload := by rintro s l head ⟨⟩
  download := by rintro s l d ⟨⟩
  settled := fun _ => InformFiles.settled_none

/-- As long as a connection is the owner of a client id, nobody writes the files. -/
theorem Locked.informFiles (h : w.Locked) (hst : Stepped cfg config w a w') {p p' : RunPc}
    {c : ClientId} (hs : w.runs.lookup s = some p) (hp : p.owner? = some c)
    (hs' : w'.runs.lookup s = some p') (hp' : p'.owner? = some c) :
    w'.informFiles c = w.informFiles c := by
  by_contra hne
  obtain ⟨⟨q, hq, hqc⟩, l, hl⟩ := hst.informFiles hne
  obtain rfl := owner_unique h.sound hs hq (RunPc.key_of_owner hp) (RunPc.key_of_owner hqc)
  obtain rfl := Option.some.inj (hs'.symm.trans hl)
  cases hp'

/-- Where an upload or a download comes from. -/
theorem Stepped.before (h : Stepped cfg config w a w') :
    (∀ {l head}, w'.runs.lookup a.sess = some (.upload l head) →
      (∃ head', w.runs.lookup a.sess = some (.upload l head')) ∨
        w.runs.lookup a.sess = some (.opening l .uploadOpt)) ∧
    (∀ {l d}, w'.runs.lookup a.sess = some (.download l d) →
      (∃ d', w.runs.lookup a.sess = some (.download l d') ∧ d.informCache = d'.informCache) ∨
        (w.runs.lookup a.sess = some (.opening l .downloadOpt) ∧
          d.informCache = InformCache.loadCntIdx (w.informFiles l.clientId))) := by
  have hself : ∀ {V : Type} (m : Index SessId V) (v : V),
      (m.insert a.sess v).lookup a.sess = some v := fun m v => Finmap.lookup_insert m
  have hother : ∀ {p q : RunPc}, (w.runs.insert a.sess p).lookup a.sess = some q → q = p :=
    fun hq => (Option.some.inj ((hself _ _).symm.trans hq)).symm
  constructor
  · intro l head hl
    cases h with
    | openUpload hs => cases hother hl; exact Or.inr hs
    | thread hs ht hq hpush hstep => exact Or.inl ⟨_, hl⟩
    | recipeEnd hs => cases hother hl; exact Or.inl ⟨_, hs⟩
    | flush hs => exact Or.inl ⟨_, hl⟩
    | _ => cases hother hl
  · intro l d hl
    cases h with
    | openDownload hs hf => cases hother hl; exact Or.inr ⟨hs, rfl⟩
    | download hs hstep =>
        cases hother hl
        exact Or.inl ⟨_, hs, (Download.step_stepped hstep).informCache⟩
    | thread hs ht hq hpush hstep => exact Or.inl ⟨_, hl, rfl⟩
    | flush hs => exact Or.inl ⟨_, hl, rfl⟩
    | _ => cases hother hl

/-- A connection that has opened a session stays so. -/
theorem Stepped.stays_opened (h : Stepped cfg config w a w') {p : RunPc}
    (hs : w.runs.lookup a.sess = some p) (hp : Opened p) :
    ∃ p', w'.runs.lookup a.sess = some p' ∧ Opened p' := by
  have hself : ∀ {V : Type} (m : Index SessId V) (v : V),
      (m.insert a.sess v).lookup a.sess = some v := fun m v => Finmap.lookup_insert m
  have hnot : ∀ {q : RunPc}, w.runs.lookup a.sess = some q → Opened q := by
    intro q hq
    obtain rfl := Option.some.inj (hs.symm.trans hq)
    exact hp
  cases h with
  | accept hn => exact absurd (Index.mem_of_lookup hs) hn
  | login hq => exact absurd (hnot hq) id
  | findLock hq => exact absurd (hnot hq) id
  | lock hq hfree => exact absurd (hnot hq) id
  | accepts hq ho hf => exact absurd (hnot hq) id
  | rejects hq ho hf => exact absurd (hnot hq) id
  | answer hq => exact absurd (hnot hq) id
  | openUpload hq => exact absurd (hnot hq) id
  | openDownload hq hf => exact absurd (hnot hq) id
  | thread hq ht hr hpush hstep => exact ⟨_, hs, hp⟩
  | recipeEnd hq => exact ⟨_, hself _ _, trivial⟩
  | flush hq => exact ⟨_, hs, hp⟩
  | download hq hstep => exact absurd (hnot hq) id
  | joinUpload hq ht he hc hi => exact ⟨_, hself _ _, trivial⟩
  | joinDownload hq he hc hi => exact absurd (hnot hq) id
  | findUnlock hq hm => exact ⟨_, hself _ _, trivial⟩
  | unlock hq => exact ⟨_, hself _ _, trivial⟩

theorem Locked.opened_step (hk : w.Locked) (h : Stepped cfg config w a w') {t : ClientVar}
    (ht : w'.clients.lookup s = some t) : ∃ p, w'.runs.lookup s = some p ∧ Opened p := by
  rcases eq_or_ne s a.sess with rfl | hne
  · cases hold : w.clients.lookup a.sess with
    | some t₀ =>
        obtain ⟨p, hp, hop⟩ := hk.opened hold
        exact h.stays_opened hp hop
    | none =>
        cases h with
        | openUpload hs => exact ⟨_, Finmap.lookup_insert _, trivial⟩
        | thread hs ht₀ hq hstep => cases ht₀.symm.trans hold
        | joinUpload hs ht₀ he hc hi => cases ht₀.symm.trans hold
        | _ => cases ht.symm.trans hold
  · rw [(h.others hne).1]
    exact hk.opened ((h.others hne).2.symm.trans ht)

theorem Locked.upload_step (hk : w.Locked) (h : Stepped cfg config w a w') {l : Login}
    {head : Option FileRecipeHead} (hl : w'.runs.lookup s = some (.upload l head)) :
    ∃ t, w'.clients.lookup s = some t ∧ t.clientId = l.clientId ∧ t.deleted = false := by
  rcases eq_or_ne s a.sess with rfl | hne
  · have hother : ∀ {p q : RunPc}, (w.runs.insert a.sess p).lookup a.sess = some q → q = p :=
      fun hq => (Option.some.inj ((Finmap.lookup_insert _).symm.trans hq)).symm
    cases h with
    | openUpload hs =>
        cases hother hl
        exact ⟨_, Finmap.lookup_insert _, rfl, rfl⟩
    | thread hs ht hq hpush hstep =>
        obtain ⟨t, ht', hid, hdel⟩ := hk.upload hl
        obtain rfl := Option.some.inj (ht.symm.trans ht')
        obtain ⟨hid', hdel'⟩ := (ClientVar.step_stepped hstep).keeps
        exact ⟨_, Finmap.lookup_insert _, hid'.trans hid, hdel'.trans hdel⟩
    | recipeEnd hs =>
        cases hother hl
        exact hk.upload hs
    | flush hs => exact hk.upload hl
    | _ => cases hother hl
  · rw [(h.others hne).2]
    exact hk.upload ((h.others hne).1.symm.trans hl)

theorem Locked.download_step (hk : w.Locked) (h : Stepped cfg config w a w') {l : Login}
    {d : Download} (hl : w'.runs.lookup s = some (.download l d)) :
    d.informCache = InformCache.loadCntIdx (w'.informFiles l.clientId) := by
  rcases eq_or_ne s a.sess with rfl | hne
  · rcases h.before.2 hl with ⟨d', hd', heq⟩ | ⟨hop, heq⟩
    · rw [heq, hk.download hd', hk.informFiles h hd' rfl hl rfl]
    · rw [heq, hk.informFiles h hop rfl hl rfl]
  · have hold := (h.others hne).1.symm.trans hl
    rw [hk.download hold, hk.informFiles h hold rfl hl rfl]

theorem Locked.settled_step (hk : w.Locked) (h : Stepped cfg config w a w') (c : ClientId) :
    (w'.informFiles c).Settled := by
  have hstore : ∀ {l : Login} {f : InformFiles}, f.Settled →
      (Function.update w.informFiles l.clientId f c).Settled := by
    intro l f hf
    rw [Function.update_apply]
    split
    · exact hf
    · exact hk.settled c
  cases h with
  | joinUpload hs ht he hc hi => exact hstore (InformCache.settled_store hc)
  | joinDownload hs he hc hi => exact hstore (InformCache.settled_store hc)
  | _ => exact hk.settled c

theorem locked_step (hk : w.Locked) (h : Stepped cfg config w a w') : w'.Locked where
  sound := sound_step hk.sound h
  opened := hk.opened_step h
  upload := hk.upload_step h
  download := hk.download_step h
  settled := hk.settled_step h

theorem locked_reach {G : ServerOptThd → Action → Prop} (h : Reach (step cfg config) G init w) :
    w.Locked :=
  h.inv Locked locked_init fun _ _ _ hk _ hs => locked_step hk (step_stepped hs)

/-! ## From one state of a session to a later one -/

/-- The connection has closed its session, or had none. -/
def Past : RunPc → Prop
  | .findUnlock _ => True
  | .unlock _ _ => True
  | .returned => True
  | _ => False

theorem Stepped.stays_past (h : Stepped cfg config w a w') {p : RunPc}
    (hs : w.runs.lookup s = some p) (hp : Past p) :
    ∃ p', w'.runs.lookup s = some p' ∧ Past p' := by
  rcases eq_or_ne s a.sess with rfl | hne
  · have hnot : ∀ {q : RunPc}, w.runs.lookup a.sess = some q → Past q := by
      intro q hq
      obtain rfl := Option.some.inj (hs.symm.trans hq)
      exact hp
    cases h with
    | accept hn => exact absurd (Index.mem_of_lookup hs) hn
    | login hq => exact absurd (hnot hq) id
    | findLock hq => exact absurd (hnot hq) id
    | lock hq hfree => exact absurd (hnot hq) id
    | accepts hq ho hf => exact absurd (hnot hq) id
    | rejects hq ho hf => exact absurd (hnot hq) id
    | answer hq => exact absurd (hnot hq) id
    | openUpload hq => exact absurd (hnot hq) id
    | openDownload hq hf => exact absurd (hnot hq) id
    | thread hq ht hr hpush hstep => exact absurd (hnot hq) id
    | recipeEnd hq => exact absurd (hnot hq) id
    | flush hq => exact absurd (hnot hq) id
    | download hq hstep => exact absurd (hnot hq) id
    | joinUpload hq ht he hc hi => exact absurd (hnot hq) id
    | joinDownload hq he hc hi => exact absurd (hnot hq) id
    | findUnlock hq hm => exact ⟨_, Finmap.lookup_insert _, trivial⟩
    | unlock hq => exact ⟨_, Finmap.lookup_insert _, trivial⟩
  · exact ⟨p, (h.others hne).1.trans hs, hp⟩

theorem Stepped.stays_owner (h : Stepped cfg config w a w') {p : RunPc} {c : ClientId}
    (hs : w.runs.lookup s = some p) (hp : p.owner? = some c) :
    ∃ p', w'.runs.lookup s = some p' ∧ (p'.owner? = some c ∨ Past p') := by
  rcases eq_or_ne s a.sess with rfl | hne
  · have hself : ∀ (q : RunPc), (w.runs.insert a.sess q).lookup a.sess = some q :=
      fun q => Finmap.lookup_insert _
    have hown : ∀ {q : RunPc}, w.runs.lookup a.sess = some q → q.owner? = some c := by
      intro q hq
      obtain rfl := Option.some.inj (hs.symm.trans hq)
      exact hp
    cases h with
    | accept hn => exact absurd (Index.mem_of_lookup hs) hn
    | login hq => cases hown hq
    | findLock hq => cases hown hq
    | lock hq hfree => cases hown hq
    | accepts hq ho hf => exact ⟨_, hself _, Or.inl (hown hq :)⟩
    | rejects hq ho hf => exact ⟨_, hself _, Or.inl (hown hq :)⟩
    | answer hq => exact ⟨_, hself _, Or.inr trivial⟩
    | openUpload hq => exact ⟨_, hself _, Or.inl (hown hq :)⟩
    | openDownload hq hf => exact ⟨_, hself _, Or.inl (hown hq :)⟩
    | thread hq ht hr hpush hstep => exact ⟨_, hs, Or.inl hp⟩
    | recipeEnd hq => exact ⟨_, hself _, Or.inl (hown hq :)⟩
    | flush hq => exact ⟨_, hs, Or.inl hp⟩
    | download hq hstep => exact ⟨_, hself _, Or.inl (hown hq :)⟩
    | joinUpload hq ht he hc hi => exact ⟨_, hself _, Or.inr trivial⟩
    | joinDownload hq he hc hi => exact ⟨_, hself _, Or.inr trivial⟩
    | findUnlock hq hm => cases hown hq
    | unlock hq => cases hown hq
  · exact ⟨p, (h.others hne).1.trans hs, Or.inl hp⟩

/-- Whatever the interleaving: as long as a connection is the owner of a client id,
nobody else is in the section of that id, and the files of its inform cache are
those it has found.  What the session itself puts into its `_db`, in place, is in the
cache it has loaded; `_cnt` and `_idx` are written when it closes, and only then is
anything deleted from `_db`. -/
theorem inform_files_kept (h : Reach (step cfg config) (fun _ _ => True) init w)
    (h' : Reach (step cfg config) (fun _ _ => True) w w') {p p' : RunPc} {c : ClientId}
    (hs : w.runs.lookup s = some p) (hp : p.owner? = some c)
    (hs' : w'.runs.lookup s = some p') (hp' : p'.owner? = some c) :
    w'.informFiles c = w.informFiles c ∧
      ∀ u q, w'.runs.lookup u = some q → q.lockPc.key? = some c → u = s := by
  have hkept : w'.Locked ∧ ((∃ q, w'.runs.lookup s = some q ∧ q.owner? = some c ∧
      w'.informFiles c = w.informFiles c) ∨ ∃ q, w'.runs.lookup s = some q ∧ Past q) := by
    refine h'.inv (fun u => u.Locked ∧ ((∃ q, u.runs.lookup s = some q ∧ q.owner? = some c ∧
      u.informFiles c = w.informFiles c) ∨ ∃ q, u.runs.lookup s = some q ∧ Past q))
      ⟨locked_reach h, Or.inl ⟨p, hs, hp, rfl⟩⟩ ?_
    rintro u a u' ⟨hk, hu⟩ - hstep
    have hst := step_stepped hstep
    refine ⟨locked_step hk hst, ?_⟩
    rcases hu with ⟨q, hq, hqc, hf⟩ | ⟨q, hq, hpast⟩
    · obtain ⟨q', hq', hown | hpast⟩ := hst.stays_owner hq hqc
      · exact Or.inl ⟨q', hq', hown, (hk.informFiles hst hq hqc hq' hown).trans hf⟩
      · exact Or.inr ⟨q', hq', hpast⟩
    · exact Or.inr (hst.stays_past hq hpast)
  obtain ⟨hk, ⟨q, hq, -, hf⟩ | ⟨q, hq, hpast⟩⟩ := hkept
  · exact ⟨hf, fun u r hu hr => owner_unique hk.sound hu hs' hr (RunPc.key_of_owner hp')⟩
  · -- who is past is the owner no more
    obtain rfl := Option.some.inj (hs'.symm.trans hq)
    cases p' <;> first | exact absurd hpast id | cases hp'

/-! ## The same server with flags -/

/-- Some upload of the client id is running. -/
def Uploading (w : ServerOptThd) (c : ClientId) : Prop :=
  ∃ s l head, w.runs.lookup s = some (.upload l head) ∧ l.clientId = c

/-- The sessions of uploads are the same, the flag of an id says whether there is
one, and a new session would load the same inform cache. -/
structure Simulates (w : ServerOptThd) (v : Service) : Prop where
  srv : v.srv = w.srv
  clients : v.clients = w.clients
  trace : v.trace = w.trace
  files : ∀ c, InformCache.loadCntIdx (v.informFiles c) =
    InformCache.loadCntIdx (w.informFiles c)
  locked : ∀ c, v.locked c = true ↔ w.Uploading c

variable {v : Service}

theorem simulates_init : Simulates init Service.init where
  srv := rfl
  clients := rfl
  trace := rfl
  files := fun _ => rfl
  locked := by
    intro c
    constructor
    · rintro ⟨⟩
    · rintro ⟨s, l, head, ⟨⟩, -⟩

/-- A connection that neither is nor becomes an upload. -/
theorem uploading_insert {p : RunPc} (hr : w'.runs = w.runs.insert s p)
    (hold : ∀ l head, w.runs.lookup s ≠ some (.upload l head))
    (hnew : ∀ l head, p ≠ .upload l head) (c : ClientId) : w'.Uploading c ↔ w.Uploading c := by
  have hlook : ∀ u l head, w'.runs.lookup u = some (.upload l head) ↔
      w.runs.lookup u = some (.upload l head) := by
    intro u l head
    rw [hr, Index.lookup_insert_ite]
    split
    · rename_i hu
      subst hu
      exact ⟨fun h => absurd (Option.some.inj h) (hnew l head), fun h => absurd h (hold l head)⟩
    · exact Iff.rfl
  unfold Uploading
  simp only [hlook]

/-- A step of which `Service` knows nothing. -/
theorem Simulates.idle (hR : Simulates w v) (hsrv : w'.srv = w.srv)
    (hclients : w'.clients = w.clients) (htrace : w'.trace = w.trace)
    (hfiles : ∀ c, InformCache.loadCntIdx (w'.informFiles c) =
      InformCache.loadCntIdx (w.informFiles c))
    (hup : ∀ c, w'.Uploading c ↔ w.Uploading c) : Simulates w' v where
  srv := hR.srv.trans hsrv.symm
  clients := hR.clients.trans hclients.symm
  trace := hR.trace.trans htrace.symm
  files := fun c => (hR.files c).trans (hfiles c).symm
  locked := fun c => (hR.locked c).trans (hup c).symm

theorem Simulates.openUpload (hR : Simulates w v) (hk : w.Locked) {l : Login}
    (hs : w.runs.lookup s = some (.opening l .uploadOpt))
    (hst : w.openSession cfg config s l .uploadOpt = .ok w') :
    ∃ v', v.step cfg (.login s l.clientId) = .ok v' ∧ Simulates w' v' := by
  cases hst
  -- nobody else is in the section of the id, and the session is a new one
  have hfree : v.locked l.clientId = false := by
    rw [← Bool.not_eq_true, hR.locked]
    rintro ⟨u, l', head, hu, hid⟩
    obtain rfl := owner_unique hk.sound hs hu rfl (congrArg some hid)
    cases hs.symm.trans hu
  have hnew : s ∉ v.clients := by
    intro hm
    obtain ⟨t, ht⟩ := Index.lookup_isSome_of_mem hm
    obtain ⟨p, hp, hop⟩ := hk.opened (hR.clients ▸ ht)
    obtain rfl := Option.some.inj (hs.symm.trans hp)
    exact hop
  refine ⟨_, if_pos ⟨hfree, hnew⟩, ?_⟩
  have hopen : v.openClient cfg l.clientId =
      (w.service fun _ => false).openClient cfg l.clientId := by
    unfold Service.openClient
    rw [hR.files, hR.srv]
    rfl
  refine ⟨?_, ?_, hR.trace, hR.files, ?_⟩
  · show { v.srv with storageCore := (v.srv.storageCore.openClient cfg).1 } = _
    rw [hR.srv]
  · show v.clients.insert s (v.openClient cfg l.clientId) = _
    rw [hopen, hR.clients]
  · intro c
    show Function.update v.locked l.clientId true c = true ↔ _
    rw [Function.update_apply]
    split
    · rename_i hc
      refine ⟨fun _ => ⟨s, l, none, Finmap.lookup_insert _, hc.symm⟩, fun _ => rfl⟩
    · rename_i hc
      rw [hR.locked]
      constructor
      · rintro ⟨u, l', head, hu, hid⟩
        refine ⟨u, l', head, ?_, hid⟩
        have hne : u ≠ s := by
          rintro rfl
          cases hs.symm.trans hu
        exact (Index.lookup_insert_ite ..).trans ((if_neg hne).trans hu)
      · rintro ⟨u, l', head, hu, hid⟩
        have hu : (w.runs.insert s (.upload l none)).lookup u = some (.upload l' head) := hu
        rw [Index.lookup_insert_ite] at hu
        split at hu
        · cases hu
          exact absurd hid.symm hc
        · exact ⟨u, l', head, hu, hid⟩

theorem Simulates.thread (hR : Simulates w v) {t : ClientVar} {x : ThreadAction}
    {r : ClientVar.Result} (ht : w.clients.lookup s = some t)
    (hstep : t.step cfg w.srv x = .ok r) :
    ∃ v', v.step cfg (.thread s x) = .ok v' ∧ Simulates { w with
      srv := r.1
      clients := w.clients.insert s r.2.1
      trace := w.trace ++ r.2.2.map (s, ·) } v' := by
  refine ⟨{ v with
    srv := r.1
    clients := v.clients.insert s r.2.1
    trace := v.trace ++ r.2.2.map (s, ·) }, ?_, rfl, ?_, ?_, hR.files, hR.locked⟩
  · simp only [Service.step, hR.clients, ht, hR.srv, hstep]
    rfl
  · rw [hR.clients]
  · rw [hR.trace]

theorem Simulates.joinUpload (hR : Simulates w v) (hk : w.Locked) {l : Login}
    {head : Option FileRecipeHead} {t : ClientVar} {cntOrder : List (Fp × Nat)}
    {idxOrder : List (Feature × Fp)} (hs : w.runs.lookup s = some (.upload l head))
    (ht : w.clients.lookup s = some t) (he : ThreadsEnded t)
    (hc : Index.Lists t.informCache.deleteEvictChunk.base2CntIdx cntOrder)
    (hi : Index.Lists t.informCache.deleteEvictChunk.localFeature2FpDb idxOrder) :
    ∃ v', v.step cfg (.logout s cntOrder idxOrder) = .ok v' ∧
      Simulates (w.closeUpload config s l head t cntOrder idxOrder) v' := by
  obtain ⟨t', ht', hid, hdel⟩ := hk.upload hs
  obtain rfl := Option.some.inj (ht.symm.trans ht')
  refine ⟨{ v with
    informFiles := Function.update v.informFiles t.clientId
      (t.informCache.deleteEvictChunk.storeCntIdx cntOrder idxOrder)
    locked := Function.update v.locked t.clientId false
    clients := v.clients.insert s { t with deleted := true } }, ?_, hR.srv, ?_, hR.trace, ?_, ?_⟩
  · simp only [Service.step, hR.clients, ht]
    exact if_pos ⟨he.2.2.2, hdel, hc, hi⟩
  · rw [hR.clients]
    rfl
  · intro c
    show InformCache.loadCntIdx (Function.update v.informFiles t.clientId _ c) =
      InformCache.loadCntIdx (Function.update w.informFiles l.clientId _ c)
    rw [hid, Function.update_apply, Function.update_apply]
    split
    · rfl
    · exact hR.files c
  · intro c
    show Function.update v.locked t.clientId false c = true ↔ _
    rw [hid, Function.update_apply]
    split
    · rename_i hcl
      refine ⟨fun h => (by cases h), ?_⟩
      rintro ⟨u, l', head', hu, hid'⟩
      -- the session was the only one of its id
      have hu : (w.runs.insert s (.findUnlock l)).lookup u = some (.upload l' head') := hu
      rw [Index.lookup_insert_ite] at hu
      split at hu
      · cases hu
      · rename_i hne
        exact absurd (owner_unique hk.sound hu hs (congrArg some (hid'.trans hcl)) rfl) hne
    · rename_i hcl
      rw [hR.locked]
      constructor
      · rintro ⟨u, l', head', hu, hid'⟩
        have hne : u ≠ s := by
          rintro rfl
          cases hs.symm.trans hu
          exact hcl hid'.symm
        exact ⟨u, l', head', (Index.lookup_insert_ite ..).trans ((if_neg hne).trans hu), hid'⟩
      · rintro ⟨u, l', head', hu, hid'⟩
        have hu : (w.runs.insert s (.findUnlock l)).lookup u = some (.upload l' head') := hu
        rw [Index.lookup_insert_ite] at hu
        split at hu
        · cases hu
        · exact ⟨u, l', head', hu, hid'⟩

/-- A download has loaded what it stores. -/
theorem Locked.files_closeDownload (hk : w.Locked) {l : Login} {d : Download}
    {cntOrder : List (Fp × Nat)} {idxOrder : List (Feature × Fp)}
    (hs : w.runs.lookup s = some (.download l d))
    (hc : Index.Lists d.informCache.deleteEvictChunk.base2CntIdx cntOrder)
    (hi : Index.Lists d.informCache.deleteEvictChunk.localFeature2FpDb idxOrder) (c : ClientId) :
    InformCache.loadCntIdx ((w.closeDownload s l d cntOrder idxOrder).informFiles c) =
      InformCache.loadCntIdx (w.informFiles c) := by
  show InformCache.loadCntIdx (Function.update w.informFiles l.clientId _ c) = _
  rw [Function.update_apply]
  split
  · rename_i hcl
    subst hcl
    rw [hk.download hs] at hc hi ⊢
    exact InformCache.load_store_settled (hk.settled _) hc hi
  · rfl

/-- The step of a thread of an upload. -/
def Action.thread? : Action → Option ThreadAction
  | .thread _ x => some x
  | _ => none

/-- Every step of a thread meets `H`. -/
def Threads (H : ThreadAction → Prop) (_ : ServerOptThd) (a : Action) : Prop :=
  ∀ x ∈ a.thread?, H x

instance (H : ThreadAction → Prop) [DecidablePred H] (w : ServerOptThd) (a : Action) :
    Decidable (Threads H w a) :=
  inferInstanceAs (Decidable (∀ x ∈ a.thread?, H x))

theorem simulates_step {H : ThreadAction → Prop} (hk : w.Locked) (hR : Simulates w v)
    (hH : Threads H w a) (h : Stepped cfg config w a w') :
    ∃ v', Simulates w' v' ∧ Reach (Service.step cfg) (Service.Threads H) v v' := by
  have hup : ∀ {s : SessId} {p q : RunPc}, w.runs.lookup s = some q →
      (∀ l head, q ≠ .upload l head) → (∀ l head, p ≠ .upload l head) → ∀ {u : ServerOptThd},
        u.runs = w.runs.insert s p → ∀ c, u.Uploading c ↔ w.Uploading c := by
    intro s p q hs hq hp u hu
    refine uploading_insert hu (fun l head hl => ?_) hp
    obtain rfl := Option.some.inj (hs.symm.trans hl)
    exact hq l head rfl
  have hidle : ∀ {u : ServerOptThd}, u.srv = w.srv → u.clients = w.clients → u.trace = w.trace →
      u.informFiles = w.informFiles → (∀ c, u.Uploading c ↔ w.Uploading c) →
        ∃ v', Simulates u v' ∧ Reach (Service.step cfg) (Service.Threads H) v v' :=
    fun h₁ h₂ h₃ h₄ h₅ => ⟨v, hR.idle h₁ h₂ h₃ (fun c => by rw [h₄]) h₅, .refl⟩
  cases h with
  | accept hs =>
      refine hidle rfl rfl rfl rfl (uploading_insert rfl (fun l head hl => ?_) (by rintro _ _ ⟨⟩))
      exact hs (Index.mem_of_lookup hl)
  | login hs => exact hidle rfl rfl rfl rfl (hup hs (by rintro _ _ ⟨⟩) (by rintro _ _ ⟨⟩) rfl)
  | findLock hs => exact hidle rfl rfl rfl rfl (hup hs (by rintro _ _ ⟨⟩) (by rintro _ _ ⟨⟩) rfl)
  | lock hs hfree =>
      exact hidle rfl rfl rfl rfl (hup hs (by rintro _ _ ⟨⟩) (by rintro _ _ ⟨⟩) rfl)
  | accepts hs ho hf =>
      exact hidle rfl rfl rfl rfl (hup hs (by rintro _ _ ⟨⟩) (by rintro _ _ ⟨⟩) rfl)
  | rejects hs ho hf =>
      exact hidle rfl rfl rfl rfl (hup hs (by rintro _ _ ⟨⟩) (by rintro _ _ ⟨⟩) rfl)
  | answer hs => exact hidle rfl rfl rfl rfl (hup hs (by rintro _ _ ⟨⟩) (by rintro _ _ ⟨⟩) rfl)
  | @openUpload s l hs =>
      obtain ⟨v', hv', hR'⟩ := hR.openUpload hk hs
        (show w.openSession cfg config s l .uploadOpt = .ok _ from rfl)
      exact ⟨v', hR', Reach.refl.tail (.login s l.clientId) trivial hv'⟩
  | openDownload hs hf =>
      exact hidle rfl rfl rfl rfl (hup hs (by rintro _ _ ⟨⟩) (by rintro _ _ ⟨⟩) rfl)
  | @thread s x l head t r hs ht hq hpush hstep =>
      obtain ⟨v', hv', hR'⟩ := hR.thread ht hstep
      exact ⟨v', hR', Reach.refl.tail (.thread s x) (hH x rfl) hv'⟩
  | @recipeEnd s l head hs =>
      refine hidle rfl rfl rfl rfl fun c => ⟨?_, ?_⟩
      · rintro ⟨u, l', head', hu, hid⟩
        have hu : (w.runs.insert s (.upload l (some head))).lookup u = some (.upload l' head') := hu
        rw [Index.lookup_insert_ite] at hu
        split at hu
        · cases hu
          exact ⟨s, l, none, hs, hid⟩
        · exact ⟨u, l', head', hu, hid⟩
      · rintro ⟨u, l', head', hu, hid⟩
        rcases eq_or_ne u s with rfl | hne
        · cases hs.symm.trans hu
          exact ⟨u, l, some head, Finmap.lookup_insert _, hid⟩
        · exact ⟨u, l', head', (Index.lookup_insert_ite ..).trans ((if_neg hne).trans hu), hid⟩
  | flush hs => exact hidle rfl rfl rfl rfl fun _ => Iff.rfl
  | download hs hstep =>
      exact hidle rfl rfl rfl rfl (hup hs (by rintro _ _ ⟨⟩) (by rintro _ _ ⟨⟩) rfl)
  | @joinUpload s l head t cntOrder idxOrder hs ht he hc hi =>
      obtain ⟨v', hv', hR'⟩ := hR.joinUpload hk hs ht he hc hi
      exact ⟨v', hR', Reach.refl.tail (.logout s cntOrder idxOrder) trivial hv'⟩
  | joinDownload hs he hc hi =>
      exact ⟨v, hR.idle rfl rfl rfl (hk.files_closeDownload hs hc hi)
        (hup hs (by rintro _ _ ⟨⟩) (by rintro _ _ ⟨⟩) rfl), .refl⟩
  | findUnlock hs hm =>
      exact hidle rfl rfl rfl rfl (hup hs (by rintro _ _ ⟨⟩) (by rintro _ _ ⟨⟩) rfl)
  | unlock hs => exact hidle rfl rfl rfl rfl (hup hs (by rintro _ _ ⟨⟩) (by rintro _ _ ⟨⟩) rfl)

/-- Every run of the server, downloads and rejected logins included, is a run of
`Service`: what holds of its uploads in every run holds of them here. -/
theorem refines_service {H : ThreadAction → Prop}
    (h : Reach (step cfg config) (Threads H) init w) :
    ∃ v, Simulates w v ∧ Reach (Service.step cfg) (Service.Threads H) Service.init v := by
  have hboth : ∃ v, (w.Locked ∧ Simulates w v) ∧
      Reach (Service.step cfg) (Service.Threads H) Service.init v := by
    refine h.simulated (fun w v => w.Locked ∧ Simulates w v) ⟨locked_init, simulates_init⟩ ?_
    rintro w a w' v ⟨hk, hR⟩ hH hs
    obtain ⟨v', hR', hv'⟩ := simulates_step hk hR hH (step_stepped hs)
    exact ⟨v', ⟨locked_step hk (step_stepped hs), hR'⟩, hv'⟩
  obtain ⟨v, ⟨-, hR⟩, hv⟩ := hboth
  exact ⟨v, hR, hv⟩

/-! ### An upload and a download of one client at once -/

def sampleConfig : ServerConfig where
  sendChunkBatchSize := 1
  sendRecipeBatchSize := 2
  chunkQueueSize := 1
  unsetHead := List.replicate 16 0
  buf := List.replicate 64 0
  sendBuf := []
  container := ⟨[], []⟩

/-- Both have found the mutex, and the upload has taken it. -/
def twoLogins : List Action :=
  [.accept 0, .accept 1, .login 0 ⟨7, some .uploadOpt, [1]⟩, .login 1 ⟨7, some .downloadOpt, [1]⟩,
    .findLock 0, .findLock 1, .lock 0, .check 0, .opened 0]

/-- One chunk, and the end of the recipe. -/
def oneChunk : List Action :=
  [.thread 0 (.recv ⟨.compBaseChunk, [], 0, 0, []⟩
    [⟨.fullEdrUncompressChunk, [7], ⟨1, 2, 3⟩, [2, 7]⟩]), .recipeEnd 0 ⟨1, 1⟩]

/-- The threads of the upload end. -/
def threadsEnd : List Action :=
  [.thread 0 .recvEnd, .thread 0 .dual, .thread 0 .dual, .thread 0 .dual, .thread 0 .comp,
    .thread 0 .comp] ++ List.replicate 12 (.thread 0 .write)

def uploadEnds : List Action := threadsEnd ++ [.join 0 [] [], .findUnlock 0, .unlock 0]

def noHeader : SendChunkHeader := ⟨0, 0, ⟨0, 0, 0⟩, []⟩

/-- The download has its turn. -/
def downloadEnds : List Action :=
  [.lock 1, .check 1, .opened 1] ++
    [.read, .fetch noHeader noHeader, .readEnd, .decode true, .decodeEnd true true].map
      (.download 1 ·) ++ [.join 1 [] [], .findUnlock 1, .unlock 1]

def uploadOpened : ServerOptThd := endOf (step Components.plain sampleConfig) init twoLogins

def chunkReceived : ServerOptThd :=
  endOf (step Components.plain sampleConfig) uploadOpened oneChunk

theorem inform_files_kept_twoLogins :
    chunkReceived.informFiles 7 = uploadOpened.informFiles 7 := by
  have hs : (uploadOpened.runs.lookup 0).bind RunPc.owner? = some 7 := by decide +kernel
  have hs' : (chunkReceived.runs.lookup 0).bind RunPc.owner? = some 7 := by decide +kernel
  obtain ⟨p, hs, hp⟩ := Option.bind_eq_some_iff.mp hs
  obtain ⟨p', hs', hp'⟩ := Option.bind_eq_some_iff.mp hs'
  have h : Reach (step Components.plain sampleConfig) (fun _ _ => True) init uploadOpened :=
    endOf_reach allowed_true (by decide +kernel)
  exact (inform_files_kept h (endOf_reach allowed_true (by decide +kernel)) hs hp hs' hp').1

theorem refines_service_twoLogins :
    ∃ v, Simulates (endOf (step Components.sized sampleConfig) init
        (twoLogins ++ oneChunk ++ uploadEnds ++ downloadEnds)) v ∧
      Reach (Service.step Components.sized) (Service.Threads ClientVar.Sized) Service.init v :=
  refines_service (endOf_reach (by decide +kernel) (by decide +kernel))

end ServerOptThd

end EDRStore
