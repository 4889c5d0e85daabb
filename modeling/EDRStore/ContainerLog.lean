/-
# `EDRStore.ContainerLog` — upload sessions over the containers

One session after another on the same container files: a login opens a
container, `WriteChunk` and `ReadChunk` follow in any order, and the tail save
ends the session.  Every address a `WriteChunk` returned stays valid: it lies
inside its container, overlaps no other, and reads back what was written.
-/
import EDRStore.StorageLog

namespace EDRStore

/-- What a session does to the storage. -/
inductive StoreOp where
  | login
  | write (addr : KeyForChunkHashDB) (data : Bytes)
  | read (addr : KeyForChunkHashDB)
  | tail
deriving DecidableEq

/-- The files, the running session, and every address returned so far with the
bytes it was returned for. -/
structure StoreRun where
  core : StorageCore
  session : Option ClientStore
  returned : List (KeyForChunkHashDB × Bytes)

namespace StoreRun

variable (cfg : Components)

def init : StoreRun := { core := .empty, session := none, returned := [] }

/-- One operation; the error is an operation with no session to do it in. -/
def step (s : StoreRun) : StoreOp → Except Unit StoreRun
  | .login =>
      match s.session with
      | some _ => .error ()
      | none =>
          let r := s.core.openClient cfg
          .ok { s with core := r.1, session := some r.2 }
  | .write addr data =>
      match s.session with
      | none => .error ()
      | some cur =>
          let r := s.core.writeChunk cfg addr data cur
          .ok { core := r.2.1, session := some r.2.2, returned := s.returned ++ [(r.1, data)] }
  | .read addr =>
      match s.session with
      | none => .error ()
      | some cur => .ok { s with session := some (s.core.readChunk addr cur).2 }
  | .tail =>
      match s.session with
      | none => .error ()
      | some cur => .ok { s with core := s.core.saveTail cur, session := none }

/-- The chunk buffers hold at most `ENC_MAX_CHUNK_SIZE` bytes. -/
def Sized (_ : StoreRun) : StoreOp → Prop
  | .write _ data => data.length ≤ encMaxChunkSize
  | _ => True

/-- The addresses returned, as a history of appends. -/
def history (s : StoreRun) : List (Extent ContainerId × Bytes) :=
  s.returned.map fun p => (p.1.extent, p.2)

/-- A byte was written to the container. -/
def Filled (s : StoreRun) (id : ContainerId) : Prop :=
  ∃ p ∈ s.returned, p.1.containerId = id ∧ p.2 ≠ []

/-- The container of a returned address has a file, or is the open one, or holds
nothing. -/
def Placed (log : Content) (s : StoreRun) (p : KeyForChunkHashDB × Bytes) : Prop :=
  p.1.containerId ∈ s.core.containers ∨
    (∃ cur, s.session = some cur ∧ cur.curContainer.id = p.1.containerId) ∨
    log p.1.containerId = []

structure Inv (log : Content) (s : StoreRun) : Prop where
  logOk : LogOk cfg log s.core
  openOk : ∀ {cur}, s.session = some cur → OpenOk cfg log s.core cur.curContainer
  cacheOk : ∀ {cur}, s.session = some cur → CacheOk s.core cur.containerCache
  bounded : ∀ id, (log id).length ≤ maxContainerSize
  recorded : Recorded log s.history
  placed : ∀ p ∈ s.returned, s.Placed log p
  filled : ∀ id, log id ≠ [] → s.Filled id
  filed : ∀ id ∈ s.core.containers, log id ≠ []

variable {cfg} {s s' : StoreRun} {log : Content}

theorem inv_init : Inv cfg (fun _ => []) init where
  logOk :=
    { saved := fun h => by simp [init, StorageCore.empty] at h
      undrawn := fun _ _ => rfl
      unsaved := fun _ _ h => Finmap.notMem_empty h }
  openOk := fun h => nomatch h
  cacheOk := fun h => nomatch h
  bounded := fun _ => Nat.zero_le _
  recorded := Recorded.nil _
  placed := fun _ h => absurd h List.not_mem_nil
  filled := fun _ h => absurd rfl h
  filed := fun _ h => absurd h Finmap.notMem_empty

theorem step_login (hid : cfg.FreshIds) (h : Inv cfg log s) (hs : s.step cfg .login = .ok s') :
    Inv cfg log s' := by
  simp only [step] at hs
  split at hs
  · exact nomatch hs
  · rename_i hnone
    cases hs
    obtain ⟨hlog, hopen, hcache, hfiles, -, -⟩ := openClient_spec hid h.logOk
    refine ⟨hlog, ?_, ?_, h.bounded, h.recorded, ?_, h.filled, ?_⟩
    · intro cur hcur; cases hcur; exact hopen
    · intro cur hcur; cases hcur; exact hcache
    · intro p hp
      rcases h.placed p hp with hm | ⟨cur, hcur, -⟩ | hnil
      · exact Or.inl (by rw [hfiles]; exact hm)
      · rw [hnone] at hcur; exact nomatch hcur
      · exact Or.inr (Or.inr hnil)
    · intro id hm
      rw [hfiles] at hm
      exact h.filed id hm

/-- Only a container that holds something is written out for want of room. -/
theorem writeChunk_files {st : StorageCore} {cur : ClientStore} (addr : KeyForChunkHashDB)
    {data : Bytes} (hsz : data.length ≤ encMaxChunkSize) {id : ContainerId}
    (hm : id ∈ (st.writeChunk cfg addr data cur).2.1.containers) :
    id ∈ st.containers ∨ id = cur.curContainer.id ∧ cur.curContainer.body ≠ [] := by
  simp only [StorageCore.writeChunk, StorageCore.makeRoom] at hm
  split at hm
  · rename_i hfull
    rcases Finmap.mem_insert.mp hm with heq | hm
    · refine Or.inr ⟨heq, fun hnil => ?_⟩
      have hmax : encMaxChunkSize ≤ maxContainerSize := by decide
      rw [Container.curSize, hnil, List.length_nil] at hfull
      omega
    · exact Or.inl hm
  · exact Or.inl hm

theorem saveTail_files {st : StorageCore} {cur : ClientStore} {id : ContainerId}
    (hm : id ∈ (st.saveTail cur).containers) :
    id ∈ st.containers ∨ id = cur.curContainer.id ∧ cur.curContainer.body ≠ [] := by
  rw [StorageCore.saveTail] at hm
  split at hm
  · rename_i hsize
    rcases Finmap.mem_insert.mp hm with heq | hm
    · refine Or.inr ⟨heq, fun hnil => hsize ?_⟩
      rw [Container.curSize, hnil, List.length_nil]
    · exact Or.inl hm
  · exact Or.inl hm

theorem step_write (hid : cfg.FreshIds) (h : Inv cfg log s) {addr : KeyForChunkHashDB}
    {data : Bytes} (hsz : data.length ≤ encMaxChunkSize)
    (hs : s.step cfg (.write addr data) = .ok s') : ∃ log', Inv cfg log' s' := by
  simp only [step] at hs
  split at hs
  · exact nomatch hs
  · rename_i cur hcur
    cases hs
    obtain ⟨log', hw⟩ := writeChunk_wrote hid h.logOk (h.openOk hcur) addr data
    have hother : ∀ {id}, id ≠ (s.core.writeChunk cfg addr data cur).2.2.curContainer.id →
        log' id = log id := by
      intro id hne
      rw [hw.segment, Function.update_of_ne hne]
    refine ⟨log', hw.logOk, ?_, ?_, ?_, ?_, ?_, ?_, ?_⟩
    · intro cur' hcur'; cases hcur'; exact hw.openOk
    · intro cur' hcur'
      cases hcur'
      rw [hw.cache]
      exact (h.cacheOk hcur).keeps hw.keeps
    · intro id
      by_cases hi : id = (s.core.writeChunk cfg addr data cur).2.2.curContainer.id
      · rw [hi]
        exact hw.fits (Nat.le_trans hsz (by decide))
      · rw [hother hi]
        exact h.bounded id
    · have := h.recorded.append (s.core.writeChunk cfg addr data cur).2.2.curContainer.id data
      rw [← hw.segment, ← hw.extent] at this
      simpa [history] using this
    · intro p hp
      rcases List.mem_append.mp hp with hp | hp
      · rcases h.placed p hp with hm | ⟨c, hc, hid'⟩ | hnil
        · exact Or.inl (Keeps.mem hw.keeps hm)
        · rw [hcur] at hc
          cases hc
          rcases hw.old with ho | ho
          · exact Or.inl (hid' ▸ ho)
          · exact Or.inr (Or.inl ⟨_, rfl, ho.trans hid'⟩)
        · -- a container without a file that is written to is the open one
          by_cases hi : p.1.containerId =
              (s.core.writeChunk cfg addr data cur).2.2.curContainer.id
          · exact Or.inr (Or.inl ⟨_, rfl, hi.symm⟩)
          · exact Or.inr (Or.inr ((hother hi).trans hnil))
      · cases List.mem_singleton.mp hp
        rcases hw.readable_new with hr | hr
        · exact Or.inl hr
        · exact Or.inr (Or.inl ⟨_, rfl, hr⟩)
    · intro id hne
      by_cases hold : log id = []
      · -- what the segment holds now is what was just written
        have hi : id = (s.core.writeChunk cfg addr data cur).2.2.curContainer.id := by
          by_contra hi
          exact hne ((hother hi).trans hold)
        refine ⟨_, List.mem_append_right _ (List.mem_singleton.mpr rfl), ?_, ?_⟩
        · exact (congrArg Extent.seg hw.extent).trans hi.symm
        · intro hnil
          rw [hw.segment, ← hi, Function.update_self, hold, List.nil_append] at hne
          exact hne hnil
      · obtain ⟨p, hp, hpid, hpne⟩ := h.filled id hold
        exact ⟨p, List.mem_append_left _ hp, hpid, hpne⟩
    · intro id hm hnil
      have hold : log id = [] := List.prefix_nil.mp (hnil ▸ hw.grows id)
      rcases writeChunk_files addr hsz hm with hm | ⟨rfl, hbody⟩
      · exact h.filed id hm hold
      · exact hbody ((h.openOk hcur).body.symm.trans hold)

theorem step_read (h : Inv cfg log s) {addr : KeyForChunkHashDB}
    (hs : s.step cfg (.read addr) = .ok s') : Inv cfg log s' := by
  simp only [step] at hs
  split at hs
  · exact nomatch hs
  · rename_i cur hcur
    cases hs
    obtain ⟨cache, heq, hcache⟩ := readChunk_frame (h.cacheOk hcur) addr
    refine ⟨h.logOk, ?_, ?_, h.bounded, h.recorded, ?_, h.filled, h.filed⟩
    · intro cur' hcur'
      cases hcur'
      rw [heq]
      have hopen := h.openOk hcur
      exact hopen
    · intro cur' hcur'
      cases hcur'
      rw [heq]
      exact hcache
    · intro p hp
      rcases h.placed p hp with hm | ⟨c, hc, hid⟩ | hnil
      · exact Or.inl hm
      · rw [hcur] at hc
        cases hc
        exact Or.inr (Or.inl ⟨_, rfl, by rw [heq]; exact hid⟩)
      · exact Or.inr (Or.inr hnil)

theorem step_tail (h : Inv cfg log s) (hs : s.step cfg .tail = .ok s') : Inv cfg log s' := by
  simp only [step] at hs
  split at hs
  · exact nomatch hs
  · rename_i cur hcur
    cases hs
    obtain ⟨hlog, hkeep, -, htail, -⟩ := saveTail_spec h.logOk (h.openOk hcur)
    refine ⟨hlog, (fun hc => nomatch hc), (fun hc => nomatch hc), h.bounded, h.recorded, ?_,
      h.filled, ?_⟩
    · intro p hp
      rcases h.placed p hp with hm | ⟨c, hc, hid⟩ | hnil
      · exact Or.inl (Keeps.mem hkeep hm)
      · rw [hcur] at hc
        cases hc
        rcases htail with ht | ht
        · exact Or.inl (hid ▸ ht)
        · exact Or.inr (Or.inr (hid ▸ ht))
      · exact Or.inr (Or.inr hnil)
    · intro id hm
      rcases saveTail_files hm with hm | ⟨rfl, hbody⟩
      · exact h.filed id hm
      · rw [(h.openOk hcur).body]
        exact hbody

theorem inv_reach (hid : cfg.FreshIds) (h : Reach (step cfg) Sized init s) :
    ∃ log, Inv cfg log s := by
  refine h.inv (fun s => ∃ log, Inv cfg log s) ⟨_, inv_init⟩ ?_
  rintro s op s' ⟨log, hi⟩ hg hs
  cases op with
  | login => exact ⟨log, step_login hid hi hs⟩
  | write addr data => exact step_write hid hi hg hs
  | read addr => exact ⟨log, step_read hi hs⟩
  | tail => exact ⟨log, step_tail hi hs⟩

theorem Inv.mem_history (_h : Inv cfg log s) {p : KeyForChunkHashDB × Bytes}
    (hp : p ∈ s.returned) : (p.1.extent, p.2) ∈ s.history := List.mem_map.mpr ⟨p, hp, rfl⟩

/-- A container that a byte was written to has a file or is open. -/
theorem Inv.kept (h : Inv cfg log s) {id : ContainerId} (hf : s.Filled id) :
    id ∈ s.core.containers ∨ ∃ cur, s.session = some cur ∧ cur.curContainer.id = id := by
  obtain ⟨p, hp, rfl, hne⟩ := hf
  rcases h.placed p hp with hm | ho | hnil
  · exact Or.inl hm
  · exact Or.inr ho
  · have hr : p.1.extent.read log = p.2 := h.recorded.reads _ (h.mem_history hp)
    rw [Extent.read, show log p.1.extent.seg = [] from hnil] at hr
    exact absurd (hr.symm.trans (by simp [slice])) hne

/-- Containers are an append-only log.  In every state of every run, each
address a `WriteChunk` returned lies inside its container and overlaps no other
one, and the running session, or a reader that comes when none is running,
reads from it the bytes written, wherever they lie by then.  A container that
holds no byte at the tail gets no file: its addresses, all of length 0, are
read as long as it is open and refused afterwards. -/
theorem containers_append_only (hid : cfg.FreshIds) (h : Reach (step cfg) Sized init s) :
    (∀ p ∈ s.returned, p.1.offset + p.1.len ≤ maxContainerSize) ∧
    s.returned.Pairwise (fun p q => p.1.extent.Disjoint q.1.extent) ∧
    (∀ p ∈ s.returned, ∀ cur, s.session = some cur →
      (s.Filled p.1.containerId ∨ cur.curContainer.id = p.1.containerId →
        (s.core.readChunk p.1 cur).1 = some p.2) ∧
      (¬ s.Filled p.1.containerId → cur.curContainer.id ≠ p.1.containerId →
        p.2 = [] ∧ (s.core.readChunk p.1 cur).1 = none)) ∧
    (s.session = none → ∀ p ∈ s.returned, s.Filled p.1.containerId → ∀ garbage,
      (s.core.readChunk p.1 (StorageCore.openReader cfg garbage)).1 = some p.2) := by
  obtain ⟨log, hi⟩ := inv_reach hid h
  have hwithin : ∀ p ∈ s.returned, p.1.extent.Within log :=
    fun p hp => hi.recorded.within _ (hi.mem_history hp)
  have hreads : ∀ p ∈ s.returned, p.1.extent.read log = p.2 :=
    fun p hp => hi.recorded.reads _ (hi.mem_history hp)
  refine ⟨?_, ?_, ?_, ?_⟩
  · intro p hp
    exact Nat.le_trans (hwithin p hp) (hi.bounded _)
  · have hd := hi.recorded.disjoint
    rw [history, List.pairwise_map] at hd
    exact hd
  · intro p hp cur hcur
    refine ⟨fun hplace => ?_, fun hempty hclosed => ?_⟩
    · have hr : Readable s.core cur p.1.containerId := by
        rcases hplace with hf | ho
        · rcases hi.kept hf with hm | ⟨c, hc, ho⟩
          · exact Or.inl hm
          · rw [hcur] at hc
            cases hc
            exact Or.inr ho
        · exact Or.inr ho
      obtain ⟨data, hread, hw⟩ :=
        readChunk_found hi.logOk (hi.cacheOk hcur) (hi.openOk hcur) hr
      rw [hread, hw (hwithin p hp), hreads p hp]
    · refine ⟨by_contra fun hne => hempty ⟨p, hp, rfl, hne⟩, ?_⟩
      have hno : ¬ Readable s.core cur p.1.containerId := by
        rintro (hm | ho)
        · exact hempty (hi.filled _ (hi.filed _ hm))
        · exact hclosed ho
      rw [readChunk_absent (hi.cacheOk hcur) hno]
  · intro hnone p hp hf garbage
    rcases hi.kept hf with hm | ⟨c, hc, -⟩
    · obtain ⟨data, cache, hread, -, hw⟩ := readChunk_saved hi.logOk
        (show CacheOk s.core (StorageCore.openReader cfg garbage).containerCache from
          cacheOk_new cfg s.core) hm
      rw [hread, hw (hwithin p hp), hreads p hp]
    · rw [hnone] at hc; exact nomatch hc

/-- Two sessions: one writes a chunk and an empty one and ends, the next is logged
in. -/
def sampleOps : List StoreOp :=
  [.login, .write ⟨.uniqueChunk, [], 0, 0, []⟩ [7, 8], .write ⟨.uniqueChunk, [], 0, 0, []⟩ [],
    .tail, .login]

def sampleClient : ClientStore :=
  ((StorageCore.empty.openClient Components.plain).1.openClient Components.plain).2

def sampleAddr : KeyForChunkHashDB := ⟨.uniqueChunk, [], 0, 2, []⟩

/-- The address of the empty chunk, behind the other one. -/
def sampleEmpty : KeyForChunkHashDB := ⟨.uniqueChunk, [], 2, 0, []⟩

/-- Where the two sessions lead. -/
def sampleEnd : StoreRun where
  core := { containers := Finmap.singleton [] [7, 8], uuidCnt := 2, writeChunkNum := 2 }
  session := some sampleClient
  returned := [(sampleAddr, [7, 8]), (sampleEmpty, [])]

theorem sample_reach : Reach (step Components.plain) Sized init sampleEnd :=
  runSteps_reach
    (show Allowed _ _ _ sampleOps by
      simp [Allowed, sampleOps, Sized, step, init, encMaxChunkSize]) rfl

theorem containers_append_only_sample :
    sampleAddr.offset + sampleAddr.len ≤ maxContainerSize ∧
    (sampleEnd.core.readChunk sampleAddr sampleClient).1 = some [7, 8] ∧
    (sampleEnd.core.readChunk sampleEmpty sampleClient).1 = some [] := by
  have h := containers_append_only Components.plain_freshIds sample_reach
  have hm : (sampleAddr, [7, 8]) ∈ sampleEnd.returned := List.mem_cons_self
  have hm' : (sampleEmpty, []) ∈ sampleEnd.returned := List.mem_cons_of_mem _ List.mem_cons_self
  have hf : sampleEnd.Filled [] := ⟨_, hm, rfl, by simp⟩
  exact ⟨h.1 _ hm, (h.2.2.1 _ hm sampleClient rfl).1 (Or.inl hf),
    (h.2.2.1 _ hm' sampleClient rfl).1 (Or.inl hf)⟩

/-- A session that writes nothing but an empty chunk, and the next one. -/
def emptyOps : List StoreOp :=
  [.login, .write ⟨.uniqueChunk, [], 0, 0, []⟩ [], .tail, .login]

def emptyEnd : StoreRun where
  core := { containers := ∅, uuidCnt := 2, writeChunkNum := 1 }
  session := some sampleClient
  returned := [(⟨.uniqueChunk, [], 0, 0, []⟩, [])]

/-- Its address cannot be read any more: the container got no file. -/
theorem empty_session_unreadable :
    ¬ ∀ (cfg : Components) (s : StoreRun), cfg.FreshIds → Reach (step cfg) Sized init s →
      ∀ p ∈ s.returned, ∀ cur, s.session = some cur →
        (s.core.readChunk p.1 cur).1 = some p.2 := by
  intro h
  have hreach : Reach (step Components.plain) Sized init emptyEnd :=
    runSteps_reach
      (show Allowed _ _ _ emptyOps by
        simp [Allowed, emptyOps, Sized, step, init, encMaxChunkSize]) rfl
  have hread := h Components.plain emptyEnd Components.plain_freshIds hreach
    (⟨.uniqueChunk, [], 0, 0, []⟩, []) (List.mem_singleton.mpr rfl) sampleClient rfl
  revert hread
  decide +kernel

end StoreRun

end EDRStore
