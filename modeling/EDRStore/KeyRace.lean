/-
# `EDRStore.KeyRace` — key manager threads that share the feature index

Each client has its own thread of `BasicKM::Run`.  The three queries of
`FindBaseChunk` and the three inserts of `UpdateFeatureIndex` take the lock of
the index one by one; nothing spans them, where the baseline's key manager
holds `index_lck_` over a whole message.  Two threads can so draw a seed each
for triples that share a feature:

    thread 0   query 1, 2, 3: absent             insert 1, 2, 3 ↦ A
    thread 1             query 3, 4, 5: absent               insert 3, 4, 5 ↦ B

Feature 3 is rebound, and the first triple is left with A, A and B.
-/
import EDRStore.KeyManager
import EDRStore.System

namespace EDRStore

open SimilarPolicy

abbrev ThreadId := Nat

/-- Where a thread is in the loop of `BasicKM::Run`. -/
inductive KmPc where
  /-- Before the next request. -/
  | recv
  /-- In the loop of `FindBaseChunk`, with the features not looked up yet. -/
  | find (tmpInfo : ChunkInfo) (m : FeatureMatch) (todo : List Feature)
  /-- In the loop of `UpdateFeatureIndex`, with the features not inserted yet. -/
  | update (tmpInfo : ChunkInfo) (keySeed : Key) (todo : List Feature)
deriving DecidableEq

/-- The features it is about to bind. -/
def KmPc.pending : KmPc → List Feature
  | .update _ _ todo => todo
  | _ => []

/-- What the threads do that others can tell. -/
inductive KmEvent where
  /-- `NON_SIMILAR_CHUNK`: a seed is drawn for the triple. -/
  | drawn (features : Features)
  /-- `InsertBothBuffer`. -/
  | bound (f : Feature) (keySeed : Key)
  | replied (features : Features) (keySeed : Key)
deriving DecidableEq

inductive KmAction where
  /-- A client connects. -/
  | accept (s : ThreadId)
  /-- The next request, its features copied to `tmp_info`. -/
  | request (s : ThreadId) (tmpInfo : ChunkInfo)
  /-- The thread goes on, past one access to the index. -/
  | advance (s : ThreadId)
  /-- The client closes its connection. -/
  | close (s : ThreadId)
deriving DecidableEq

/-- The key manager with the threads of its clients. -/
structure KmService where
  feature2KeyIndex : Index Feature Key
  threads : Index ThreadId KmPc
  trace : List KmEvent

namespace KmService

variable (cfg : Components)

def init : KmService := { feature2KeyIndex := ∅, threads := ∅, trace := [] }

/-- The thread `s` is at `pc` next, having done `evs`. -/
def goes (w : KmService) (s : ThreadId) (pc : KmPc) (evs : List KmEvent) : KmService :=
  { w with threads := w.threads.insert s pc, trace := w.trace ++ evs }

/-- One step of one thread. -/
def advance (w : KmService) (s : ThreadId) : KmPc → Except Stop KmService
  | .recv => .error .disabled
  | .find info m (f :: todo) =>
      .ok (w.goes s (.find info (countFeature m (w.feature2KeyIndex.lookup f)) todo) [])
  | .find info m [] =>
      let info := chooseBase m info
      match info.stat with
      | .similarChunk => .ok (w.goes s .recv [.replied info.features info.addr.baseFp])
      | .nonSimilarChunk =>
          .ok (w.goes s (.update info (BasicKM.generateSeed cfg info.features) info.features.toList)
            [.drawn info.features])
      | _ => .error (.exit .keyType)
  | .update info keySeed (f :: todo) =>
      .ok ({ w with feature2KeyIndex := w.feature2KeyIndex.insert f keySeed }.goes s
        (.update info keySeed todo) [.bound f keySeed])
  | .update info keySeed [] => .ok (w.goes s .recv [.replied info.features keySeed])

def step (w : KmService) : KmAction → Except Stop KmService
  | .accept s => if s ∈ w.threads then .error .disabled else .ok (w.goes s .recv [])
  | .request s info =>
      if w.threads.lookup s = some .recv then
        .ok (w.goes s (.find info noMatch info.features.toList) [])
      else .error .disabled
  | .advance s =>
      match w.threads.lookup s with
      | none => .error .disabled
      | some pc => advance cfg w s pc
  | .close s =>
      if w.threads.lookup s = some .recv then .ok { w with threads := w.threads.erase s }
      else .error .disabled

/-! ## What a step can do -/

/-- One constructor for each way a step ends. -/
inductive Stepped (w : KmService) : KmAction → KmService → Prop
  | accept {s} (hs : s ∉ w.threads) : Stepped w (.accept s) (w.goes s .recv [])
  | request {s info} (hs : w.threads.lookup s = some .recv) :
      Stepped w (.request s info) (w.goes s (.find info noMatch info.features.toList) [])
  | query {s info m f todo} (hs : w.threads.lookup s = some (.find info m (f :: todo))) :
      Stepped w (.advance s)
        (w.goes s (.find info (countFeature m (w.feature2KeyIndex.lookup f)) todo) [])
  | similar {s info m} (hs : w.threads.lookup s = some (.find info m []))
      (hm : (chooseBase m info).stat = .similarChunk) :
      Stepped w (.advance s)
        (w.goes s .recv [.replied info.features (chooseBase m info).addr.baseFp])
  | draw {s info m} (hs : w.threads.lookup s = some (.find info m []))
      (hm : (chooseBase m info).stat = .nonSimilarChunk) :
      Stepped w (.advance s)
        (w.goes s (.update (chooseBase m info) (BasicKM.generateSeed cfg info.features)
          info.features.toList) [.drawn info.features])
  | insert {s info keySeed f todo}
      (hs : w.threads.lookup s = some (.update info keySeed (f :: todo))) :
      Stepped w (.advance s)
        ({ w with feature2KeyIndex := w.feature2KeyIndex.insert f keySeed }.goes s
          (.update info keySeed todo) [.bound f keySeed])
  | updated {s info keySeed} (hs : w.threads.lookup s = some (.update info keySeed [])) :
      Stepped w (.advance s) (w.goes s .recv [.replied info.features keySeed])
  | close {s} (hs : w.threads.lookup s = some .recv) :
      Stepped w (.close s) { w with threads := w.threads.erase s }

variable {cfg} {w w' : KmService} {a : KmAction}

theorem step_stepped (h : step cfg w a = .ok w') : Stepped cfg w a w' := by
  cases a with
  | accept s =>
      simp only [step] at h
      split at h
      · exact nomatch h
      · rename_i hs
        cases h
        exact .accept hs
  | request s info =>
      simp only [step] at h
      split at h
      · rename_i hs
        cases h
        exact .request hs
      · exact nomatch h
  | close s =>
      simp only [step] at h
      split at h
      · rename_i hs
        cases h
        exact .close hs
      · exact nomatch h
  | advance s =>
      simp only [step] at h
      cases hs : w.threads.lookup s with
      | none => rw [hs] at h; exact nomatch h
      | some pc =>
          rw [hs] at h
          cases pc with
          | recv => exact nomatch h
          | find info m todo =>
              cases todo with
              | cons f todo => cases h; exact .query hs
              | nil =>
                  simp only [advance, chooseBase_features] at h
                  split at h
                  · rename_i hm
                    cases h
                    exact .similar hs hm
                  · rename_i hm
                    cases h
                    exact .draw hs hm
                  · exact nomatch h
          | update info keySeed todo =>
              cases todo with
              | cons f todo => cases h; exact .insert hs
              | nil => cases h; exact .updated hs

/-! ## What a thread is about to bind -/

/-- The seed that the thread `s` is going to bind the feature to. -/
def binds (w : KmService) (s : ThreadId) (f : Feature) : Option Key :=
  match w.threads.lookup s with
  | some (.update _ keySeed todo) => if f ∈ todo then some keySeed else none
  | _ => none

theorem binds_eq_some {s : ThreadId} {f : Feature} {k : Key} :
    w.binds s f = some k ↔ ∃ info todo, w.threads.lookup s = some (.update info k todo) ∧
      f ∈ todo := by
  unfold binds
  split
  · rename_i info keySeed todo hs
    rw [hs]
    constructor
    · intro h
      split at h
      · rename_i hf
        cases h
        exact ⟨info, todo, rfl, hf⟩
      · exact nomatch h
    · rintro ⟨info', todo', heq, hf⟩
      cases heq
      exact if_pos hf
  · rename_i hne
    constructor
    · exact fun h => nomatch h
    · rintro ⟨info, todo, heq, -⟩
      exact absurd heq (hne _ _ _)

/-- A thread that takes a step has other features to bind afterwards, the others
have the same ones. -/
theorem binds_goes (w : KmService) (s : ThreadId) (pc : KmPc) (evs : List KmEvent)
    (s' : ThreadId) (f : Feature) : (w.goes s pc evs).binds s' f =
      if s' = s then
        match pc with
        | .update _ keySeed todo => if f ∈ todo then some keySeed else none
        | _ => none
      else w.binds s' f := by
  unfold binds goes
  rw [Index.lookup_insert_ite]
  by_cases hs : s' = s
  · rw [if_pos hs, if_pos hs]
    cases pc <;> rfl
  · rw [if_neg hs, if_neg hs]

/-- The triple that the action draws a seed for. -/
def drawing (w : KmService) : KmAction → Option Features
  | .advance s =>
      match w.threads.lookup s with
      | some (.find info m []) =>
          if (chooseBase m info).stat = .nonSimilarChunk then some info.features else none
      | _ => none
  | _ => none

variable (cfg) in
/-- When a seed is drawn for a triple, none of its features has meanwhile been
bound to another seed, and no thread is about to bind one of them to another
seed. -/
def NoRace (w : KmService) (a : KmAction) : Prop :=
  ∀ t ∈ w.drawing a, ∀ f ∈ t.toList,
    (∀ k ∈ w.feature2KeyIndex.lookup f, k = BasicKM.generateSeed cfg t) ∧
    ∀ s ∈ w.threads.keys, ∀ k ∈ w.binds s f, k = BasicKM.generateSeed cfg t

instance (w : KmService) (a : KmAction) : Decidable (NoRace cfg w a) :=
  -- over the list: there are too many features to try them all
  have (t : Features) := List.decidableBAll (fun f =>
    (∀ k ∈ w.feature2KeyIndex.lookup f, k = BasicKM.generateSeed cfg t) ∧
    ∀ s ∈ w.threads.keys, ∀ k ∈ w.binds s f, k = BasicKM.generateSeed cfg t) t.toList
  inferInstanceAs (Decidable (∀ t ∈ w.drawing a, ∀ f ∈ t.toList,
    (∀ k ∈ w.feature2KeyIndex.lookup f, k = BasicKM.generateSeed cfg t) ∧
    ∀ s ∈ w.threads.keys, ∀ k ∈ w.binds s f, k = BasicKM.generateSeed cfg t))

variable (cfg) in
/-- A feature is bound to one seed, ever, and keeps it; and no triple that a seed
was drawn for has features bound to that seed and to the seed of another one. -/
structure WriteOnce (w : KmService) : Prop where
  once : ∀ f k k', .bound f k ∈ w.trace → .bound f k' ∈ w.trace → k = k'
  kept : ∀ f k, .bound f k ∈ w.trace → w.feature2KeyIndex.lookup f = some k
  unmixed : ∀ t t', .drawn t ∈ w.trace → .drawn t' ∈ w.trace → ∀ f ∈ t.toList, ∀ g ∈ t.toList,
    w.feature2KeyIndex.lookup f = some (BasicKM.generateSeed cfg t) →
    w.feature2KeyIndex.lookup g = some (BasicKM.generateSeed cfg t') →
    BasicKM.generateSeed cfg t = BasicKM.generateSeed cfg t'

variable (cfg) in
/-- What holds while no two threads race. -/
structure Claimed (w : KmService) : Prop where
  /-- A thread binds the features of a triple to the seed drawn for it. -/
  own : ∀ {s info k todo}, w.threads.lookup s = some (.update info k todo) →
    .drawn info.features ∈ w.trace ∧ k = BasicKM.generateSeed cfg info.features ∧
    ∀ f ∈ todo, f ∈ info.features.toList
  logged : ∀ {f k}, w.feature2KeyIndex.lookup f = some k ↔ .bound f k ∈ w.trace
  bound : ∀ {t f k}, .drawn t ∈ w.trace → f ∈ t.toList →
    w.feature2KeyIndex.lookup f = some k → k = BasicKM.generateSeed cfg t
  binding : ∀ {t f s k}, .drawn t ∈ w.trace → f ∈ t.toList → w.binds s f = some k →
    k = BasicKM.generateSeed cfg t
  /-- A feature of a triple with a seed is bound, or some thread is about to. -/
  taken : ∀ {t f}, .drawn t ∈ w.trace → f ∈ t.toList →
    (∃ k, w.feature2KeyIndex.lookup f = some k) ∨ ∃ s k, w.binds s f = some k

theorem claimed_init : Claimed cfg init where
  own := fun h => by simp [init] at h
  logged := by simp [init]
  bound := fun h => absurd h List.not_mem_nil
  binding := fun h => absurd h List.not_mem_nil
  taken := fun h => absurd h List.not_mem_nil

theorem Claimed.writeOnce (h : Claimed cfg w) : WriteOnce cfg w where
  once := by
    intro f k k' hk hk'
    exact Option.some.inj ((h.logged.mpr hk).symm.trans (h.logged.mpr hk'))
  kept := fun f k hk => h.logged.mpr hk
  unmixed := by
    intro t t' ht _ f _ g hg _ hgk
    exact (h.bound ht hg hgk).symm

/-- A thread that goes where nothing is bound, from where nothing was, changes
nothing of this. -/
theorem Claimed.goes (h : Claimed cfg w) {s : ThreadId} {pc : KmPc} {evs : List KmEvent}
    (hnone : ∀ f, w.binds s f = none) (hpc : ∀ info k todo, pc ≠ .update info k todo)
    (hevs : ∀ e ∈ evs, ∃ t k, e = .replied t k) : Claimed cfg (w.goes s pc evs) := by
  have hdrawn : ∀ {t}, .drawn t ∈ (w.goes s pc evs).trace → .drawn t ∈ w.trace := by
    intro t ht
    rcases List.mem_append.mp ht with ht | ht
    · exact ht
    · obtain ⟨_, _, heq⟩ := hevs _ ht
      exact nomatch heq
  have hbinds : ∀ s' f, (w.goes s pc evs).binds s' f = w.binds s' f := by
    intro s' f
    rw [binds_goes]
    split
    · rename_i heq
      rw [heq, hnone]
      cases pc with
      | update info k todo => exact absurd rfl (hpc info k todo)
      | recv => rfl
      | find info m todo => rfl
    · rfl
  refine ⟨?_, ?_, ?_, ?_, ?_⟩
  · intro s' info k todo hs'
    simp only [KmService.goes] at hs'
    rw [Index.lookup_insert_ite] at hs'
    split at hs'
    · exact absurd (Option.some.inj hs') (hpc info k todo)
    · obtain ⟨hd, hk, hsub⟩ := h.own hs'
      exact ⟨List.mem_append_left _ hd, hk, hsub⟩
  · intro f k
    refine h.logged.trans ⟨fun hb => List.mem_append_left _ hb, fun hb => ?_⟩
    rcases List.mem_append.mp hb with hb | hb
    · exact hb
    · obtain ⟨_, _, heq⟩ := hevs _ hb
      exact nomatch heq
  · exact fun ht hf hk => h.bound (hdrawn ht) hf hk
  · intro t f s' k ht hf hk
    rw [hbinds] at hk
    exact h.binding (hdrawn ht) hf hk
  · intro t f ht hf
    rcases h.taken (hdrawn ht) hf with hk | ⟨s', k, hk⟩
    · exact Or.inl hk
    · exact Or.inr ⟨s', k, (hbinds s' f).trans hk⟩

theorem Claimed.close (h : Claimed cfg w) {s : ThreadId} (hs : w.threads.lookup s = some .recv) :
    Claimed cfg { w with threads := w.threads.erase s } := by
  have hbinds : ∀ s' f, binds { w with threads := w.threads.erase s } s' f = w.binds s' f := by
    intro s' f
    unfold binds
    rw [Index.lookup_erase_ite]
    by_cases heq : s' = s
    · rw [if_pos heq, heq, hs]
    · rw [if_neg heq]
  refine ⟨?_, h.logged, h.bound, ?_, ?_⟩
  · intro s' info k todo hs'
    simp only [Index.lookup_erase_ite] at hs'
    split at hs'
    · exact nomatch hs'
    · exact h.own hs'
  · intro t f s' k ht hf hk
    rw [hbinds] at hk
    exact h.binding ht hf hk
  · intro t f ht hf
    rcases h.taken ht hf with hk | ⟨s', k, hk⟩
    · exact Or.inl hk
    · exact Or.inr ⟨s', k, (hbinds s' f).trans hk⟩

/-- Where a seed is drawn without a race, every feature of the triple is free or
goes to the same seed anyway. -/
theorem Claimed.draw (h : Claimed cfg w) {s : ThreadId} {info : ChunkInfo} {m : FeatureMatch}
    (hs : w.threads.lookup s = some (.find info m []))
    (hm : (chooseBase m info).stat = .nonSimilarChunk) (hn : NoRace cfg w (.advance s)) :
    Claimed cfg (w.goes s (.update (chooseBase m info) (BasicKM.generateSeed cfg info.features)
      info.features.toList) [.drawn info.features]) := by
  have hnone : ∀ f, w.binds s f = none := fun f => by simp [binds, hs]
  have hdraw : info.features ∈ w.drawing (.advance s) := by simp [drawing, hs, hm]
  have hfree : ∀ f ∈ info.features.toList, ∀ k, w.feature2KeyIndex.lookup f = some k →
      k = BasicKM.generateSeed cfg info.features :=
    fun f hf k hk => (hn _ hdraw f hf).1 k hk
  have hothers : ∀ f ∈ info.features.toList, ∀ s' k, w.binds s' f = some k →
      k = BasicKM.generateSeed cfg info.features := by
    intro f hf s' k hk
    obtain ⟨_, _, hs', -⟩ := binds_eq_some.mp hk
    exact (hn _ hdraw f hf).2 s' (Finmap.mem_keys.mpr (Index.mem_of_lookup hs')) k hk
  have hdrawn : ∀ {t}, .drawn t ∈ w.trace ++ [.drawn info.features] →
      .drawn t ∈ w.trace ∨ t = info.features := by
    intro t ht
    rcases List.mem_append.mp ht with ht | ht
    · exact Or.inl ht
    · cases List.mem_singleton.mp ht
      exact Or.inr rfl
  refine ⟨?_, ?_, ?_, ?_, ?_⟩
  · intro s' info' k todo hs'
    simp only [KmService.goes] at hs'
    rw [Index.lookup_insert_ite] at hs'
    split at hs'
    · cases hs'
      rw [chooseBase_features]
      exact ⟨List.mem_append_right _ List.mem_cons_self, rfl, fun f hf => hf⟩
    · obtain ⟨hd, hk, hsub⟩ := h.own hs'
      exact ⟨List.mem_append_left _ hd, hk, hsub⟩
  · intro f k
    refine h.logged.trans ⟨fun hb => List.mem_append_left _ hb, fun hb => ?_⟩
    rcases List.mem_append.mp hb with hb | hb
    · exact hb
    · exact nomatch List.mem_singleton.mp hb
  · intro t f k ht hf hk
    rcases hdrawn ht with ht | rfl
    · exact h.bound ht hf hk
    · exact hfree f hf k hk
  · intro t f s' k ht hf hk
    rw [binds_goes] at hk
    split at hk
    · -- the new claim agrees with an older one through whoever took the feature
      simp only at hk
      split at hk
      · rename_i hmem
        cases hk
        rcases hdrawn ht with ht | rfl
        · rcases h.taken ht hf with ⟨k', hk'⟩ | ⟨s'', k', hk'⟩
          · exact (hfree f hmem k' hk').symm.trans (h.bound ht hf hk')
          · exact (hothers f hmem s'' k' hk').symm.trans (h.binding ht hf hk')
        · rfl
      · exact nomatch hk
    · rcases hdrawn ht with ht | rfl
      · exact h.binding ht hf hk
      · exact hothers f hf s' k hk
  · intro t f ht hf
    rcases hdrawn ht with ht | rfl
    · rcases h.taken ht hf with hk | ⟨s', k, hk⟩
      · exact Or.inl hk
      · refine Or.inr ⟨s', k, ?_⟩
        rw [binds_goes, if_neg, hk]
        rintro rfl
        rw [hnone] at hk
        exact nomatch hk
    · refine Or.inr ⟨s, BasicKM.generateSeed cfg info.features, ?_⟩
      rw [binds_goes, if_pos rfl]
      exact if_pos hf

theorem Claimed.insert (h : Claimed cfg w) {s : ThreadId} {info : ChunkInfo} {k : Key}
    {f : Feature} {todo : List Feature}
    (hs : w.threads.lookup s = some (.update info k (f :: todo))) :
    Claimed cfg ({ w with feature2KeyIndex := w.feature2KeyIndex.insert f k }.goes s
      (.update info k todo) [.bound f k]) := by
  have hmine : ∀ g ∈ f :: todo, w.binds s g = some k :=
    fun g hg => binds_eq_some.mpr ⟨info, f :: todo, hs, hg⟩
  obtain ⟨hd, hseed, hsub⟩ := h.own hs
  have hbinds : ∀ {s' g k'}, ({ w with feature2KeyIndex := w.feature2KeyIndex.insert f k }.goes s
      (.update info k todo) [.bound f k]).binds s' g = some k' → w.binds s' g = some k' := by
    intro s' g k' hk'
    rw [binds_goes] at hk'
    split at hk'
    · rename_i heq
      simp only at hk'
      split at hk'
      · rename_i hmem
        cases hk'
        rw [heq]
        exact hmine g (List.mem_cons_of_mem _ hmem)
      · exact nomatch hk'
    · exact hk'
  have hdrawn : ∀ {t}, .drawn t ∈ w.trace ++ [.bound f k] → .drawn t ∈ w.trace := by
    intro t ht
    rcases List.mem_append.mp ht with ht | ht
    · exact ht
    · exact nomatch List.mem_singleton.mp ht
  refine ⟨?_, ?_, ?_, ?_, ?_⟩
  · intro s' info' k' todo' hs'
    simp only [KmService.goes] at hs'
    rw [Index.lookup_insert_ite] at hs'
    split at hs'
    · cases hs'
      exact ⟨List.mem_append_left _ hd, hseed, fun g hg => hsub g (List.mem_cons_of_mem _ hg)⟩
    · obtain ⟨hd', hk', hsub'⟩ := h.own hs'
      exact ⟨List.mem_append_left _ hd', hk', hsub'⟩
  · intro g k'
    simp only [KmService.goes]
    rw [Index.lookup_insert_ite, List.mem_append, List.mem_singleton, KmEvent.bound.injEq]
    by_cases hg : g = f
    · subst hg
      rw [if_pos rfl, Option.some.injEq]
      constructor
      · rintro rfl
        exact Or.inr ⟨rfl, rfl⟩
      · rintro (hb | ⟨-, rfl⟩)
        · rw [hseed]
          exact (h.bound hd (hsub g List.mem_cons_self) (h.logged.mpr hb)).symm
        · rfl
    · rw [if_neg hg, h.logged]
      exact ⟨Or.inl, fun hb => hb.resolve_right fun hb => hg hb.1⟩
  · intro t g k' ht hg hk'
    simp only [KmService.goes] at hk'
    rw [Index.lookup_insert_ite] at hk'
    split at hk'
    · rename_i heq
      cases hk'
      exact h.binding (hdrawn ht) hg (heq ▸ hmine f List.mem_cons_self)
    · exact h.bound (hdrawn ht) hg hk'
  · exact fun ht hg hk' => h.binding (hdrawn ht) hg (hbinds hk')
  · intro t g ht hg
    simp only [KmService.goes]
    rw [Index.lookup_insert_ite]
    split
    · exact Or.inl ⟨k, rfl⟩
    · rename_i hne
      rcases h.taken (hdrawn ht) hg with hk' | ⟨s', k', hk'⟩
      · exact Or.inl hk'
      · refine Or.inr ⟨s', k', ?_⟩
        have := binds_goes { w with feature2KeyIndex := w.feature2KeyIndex.insert f k } s
          (.update info k todo) [.bound f k] s' g
        simp only [KmService.goes] at this
        rw [this]
        split
        · rename_i heq
          rw [heq, binds_eq_some] at hk'
          obtain ⟨_, _, hs', hmem⟩ := hk'
          cases hs.symm.trans hs'
          exact if_pos ((List.mem_cons.mp hmem).resolve_left hne)
        · exact hk'

theorem claimed_step (h : Claimed cfg w) (hn : NoRace cfg w a) (hs : Stepped cfg w a w') :
    Claimed cfg w' := by
  cases hs with
  | @accept s hs =>
      refine h.goes (fun f => ?_) (fun _ _ _ => nofun) (fun e he => absurd he List.not_mem_nil)
      simp [binds, Finmap.lookup_eq_none.mpr hs]
  | @request s info hs =>
      refine h.goes (fun f => ?_) (fun _ _ _ => nofun) (fun e he => absurd he List.not_mem_nil)
      simp [binds, hs]
  | @query s info m f todo hs =>
      refine h.goes (fun f => ?_) (fun _ _ _ => nofun) (fun e he => absurd he List.not_mem_nil)
      simp [binds, hs]
  | @similar s info m hs hm =>
      refine h.goes (fun f => ?_) (fun _ _ _ => nofun)
        (fun e he => ⟨_, _, List.mem_singleton.mp he⟩)
      simp [binds, hs]
  | draw hs hm => exact h.draw hs hm hn
  | insert hs => exact h.insert hs
  | @updated s info k hs =>
      refine h.goes (fun f => ?_) (fun _ _ _ => nofun)
        (fun e he => ⟨_, _, List.mem_singleton.mp he⟩)
      simp [binds, hs]
  | close hs => exact h.close hs

theorem claimed_reach (h : Reach (step cfg) (NoRace cfg) init w) : Claimed cfg w :=
  h.inv (Claimed cfg) claimed_init fun _ _ _ hi hn hs => claimed_step hi hn (step_stepped hs)

/-! ## Runs that do race -/

/-- The trace only grows. -/
theorem Stepped.trace_grows (hs : Stepped cfg w a w') : ∃ evs, w'.trace = w.trace ++ evs := by
  cases hs with
  | close hs => exact ⟨[], (List.append_nil _).symm⟩
  | _ => exact ⟨_, rfl⟩

/-- What a thread is about to bind, it goes on to bind. -/
theorem Stepped.binds (hs : Stepped cfg w a w') {s : ThreadId} {f : Feature} {k : Key}
    (hb : w.binds s f = some k) : w'.binds s f = some k ∨ .bound f k ∈ w'.trace := by
  obtain ⟨info, todo, hl, hmem⟩ := binds_eq_some.mp hb
  -- a step of another thread, or one that cannot be taken from here
  have hother : ∀ {v : KmService} {s' pc evs}, v.threads = w.threads →
      w.threads.lookup s' ≠ some (.update info k todo) → (v.goes s' pc evs).binds s f = some k := by
    intro v s' pc evs hv hne
    rw [binds_goes, if_neg]
    · unfold KmService.binds
      rw [hv]
      exact hb
    · rintro rfl
      exact hne hl
  cases hs with
  | @accept s' hs =>
      refine Or.inl (hother rfl ?_)
      rw [Finmap.lookup_eq_none.mpr hs]
      exact nofun
  | request hs => exact Or.inl (hother rfl (by rw [hs]; exact nofun))
  | query hs => exact Or.inl (hother rfl (by rw [hs]; exact nofun))
  | similar hs hm => exact Or.inl (hother rfl (by rw [hs]; exact nofun))
  | draw hs hm => exact Or.inl (hother rfl (by rw [hs]; exact nofun))
  | @insert s' info' k' g todo' hs =>
      by_cases heq : s' = s
      · subst heq
        cases hl.symm.trans hs
        rcases List.mem_cons.mp hmem with rfl | hmem
        · exact Or.inr (List.mem_append_right _ List.mem_cons_self)
        · refine Or.inl ?_
          rw [binds_goes, if_pos rfl]
          exact if_pos hmem
      · refine Or.inl ?_
        rw [binds_goes, if_neg (Ne.symm heq)]
        exact hb
  | @updated s' info' k' hs =>
      refine Or.inl (hother rfl ?_)
      rw [hs]
      intro heq
      cases heq
      exact absurd hmem List.not_mem_nil
  | @close s' hs =>
      refine Or.inl (binds_eq_some.mpr ⟨info, todo, ?_, hmem⟩)
      simp only [Index.lookup_erase_ite]
      rw [if_neg, hl]
      rintro rfl
      rw [hl] at hs
      exact nomatch hs

/-- No thread is about to bind anything. -/
def Drained (w : KmService) : Prop :=
  ∀ s ∈ w.threads.keys, ∀ pc ∈ w.threads.lookup s, pc.pending = []

instance (w : KmService) : Decidable w.Drained :=
  inferInstanceAs (Decidable (∀ s ∈ w.threads.keys, ∀ pc ∈ w.threads.lookup s, pc.pending = []))

theorem Drained.binds (h : w.Drained) (s : ThreadId) (f : Feature) : w.binds s f = none := by
  cases hb : w.binds s f with
  | none => rfl
  | some k =>
      obtain ⟨info, todo, hs, hmem⟩ := binds_eq_some.mp hb
      have hnil : todo = [] := h s (Finmap.mem_keys.mpr (Index.mem_of_lookup hs)) _ hs
      rw [hnil] at hmem
      exact absurd hmem List.not_mem_nil

theorem mem_trace_of_run {as : List KmAction} {e : KmEvent}
    (h : runSteps (step cfg) w as = .ok w') (he : e ∈ w.trace) : e ∈ w'.trace := by
  refine runSteps_inv (fun v => e ∈ v.trace) ?_ he h
  intro v a v₁ he h₁
  obtain ⟨evs, heq⟩ := (step_stepped h₁).trace_grows
  rw [heq]
  exact List.mem_append_left evs he

theorem bound_of_drained {as : List KmAction} (h : runSteps (step cfg) w as = .ok w')
    (hd : w'.Drained) {s : ThreadId} {f : Feature} {k : Key} (hb : w.binds s f = some k) :
    .bound f k ∈ w'.trace := by
  -- a binding to be made is still to be made or is in the log
  have hrun : w'.binds s f = some k ∨ .bound f k ∈ w'.trace := by
    refine runSteps_inv (fun v => v.binds s f = some k ∨ .bound f k ∈ v.trace) ?_ (.inl hb) h
    rintro v a v₁ (hb | hm) h₁
    · exact (step_stepped h₁).binds hb
    · obtain ⟨evs, heq⟩ := (step_stepped h₁).trace_grows
      rw [heq]
      exact .inr (List.mem_append_left evs hm)
  rcases hrun with hb | hm
  · rw [hd.binds] at hb
    cases hb
  · exact hm

/-- The action that draws a seed leaves its thread about to bind all three
features. -/
theorem binds_of_drawing {t : Features} (hs : Stepped cfg w a w') (ht : t ∈ w.drawing a) :
    ∃ s, a = .advance s ∧ ∀ f ∈ t.toList, w'.binds s f = some (BasicKM.generateSeed cfg t) := by
  cases a with
  | advance s =>
      simp only [drawing] at ht
      split at ht
      · rename_i info m hl
        split at ht
        · rename_i hm
          cases ht
          refine ⟨s, rfl, fun f hf => ?_⟩
          cases hs with
          | query hs => cases hl.symm.trans hs
          | similar hs hm' =>
              cases hl.symm.trans hs
              rw [hm] at hm'
              exact nomatch hm'
          | draw hs hm' =>
              cases hl.symm.trans hs
              rw [binds_goes, if_pos rfl]
              exact if_pos hf
          | insert hs => cases hl.symm.trans hs
          | updated hs => cases hl.symm.trans hs
        · exact nomatch ht
      · exact nomatch ht
  | accept s => exact nomatch ht
  | request s info => exact nomatch ht
  | close s => exact nomatch ht

/-- Once all threads have bound what they set out to, each race has bound a feature
to two seeds. -/
theorem Claimed.allowed {as : List KmAction} (hc : Claimed cfg w)
    (h : runSteps (step cfg) w as = .ok w') (hd : w'.Drained) (ho : WriteOnce cfg w') :
    Allowed (step cfg) (NoRace cfg) w as := by
  refine allowed_of_end (Claimed cfg)
    (fun _ _ _ hc hn h₁ => claimed_step hc hn (step_stepped h₁)) ?_ hc h
  intro w a w₁ as hc h₁ hrun t ht f hf
  have hs := step_stepped h₁
  obtain ⟨s, rfl, hmine⟩ := binds_of_drawing hs ht
  have hdrawn := bound_of_drained hrun hd (hmine f hf)
  refine ⟨fun k hk => ?_, fun s' _ k hk => ?_⟩
  · obtain ⟨evs, heq⟩ := hs.trace_grows
    have hlog := heq ▸ List.mem_append_left evs (hc.logged.mp hk)
    exact ho.once f k _ (mem_trace_of_run hrun hlog) hdrawn
  · rcases hs.binds hk with hk | hk
    · exact ho.once f k _ (bound_of_drained hrun hd hk) hdrawn
    · exact ho.once f k _ (mem_trace_of_run hrun hk) hdrawn

/-- Bindings are write-once in every run without a race, whatever the threads and
their requests; and in a run that leaves no binding half done they are so only
there. -/
theorem write_once_iff {as : List KmAction} (h : runSteps (step cfg) init as = .ok w) :
    (Allowed (step cfg) (NoRace cfg) init as → WriteOnce cfg w) ∧
    (w.Drained → (WriteOnce cfg w ↔ Allowed (step cfg) (NoRace cfg) init as)) := by
  have hforward : Allowed (step cfg) (NoRace cfg) init as → WriteOnce cfg w :=
    fun hal => (claimed_reach (runSteps_reach hal h)).writeOnce
  exact ⟨hforward, fun hd => ⟨claimed_init.allowed h hd, hforward⟩⟩

/-! ### The race -/

/-- A request whose features are `t`. -/
def ask (t : Features) : ChunkInfo := ⟨[], t, ⟨.uniqueChunk, [], 0, 0, []⟩, .uniqueChunk⟩

/-- The thread goes on for `n` steps. -/
def goOn (s : ThreadId) (n : Nat) : List KmAction := List.replicate n (.advance s)

/-- Two triples that share the feature 3, each looked up before the other is bound. -/
def race : List KmAction :=
  [.accept 0, .accept 1, .request 0 (ask ⟨1, 2, 3⟩), .request 1 (ask ⟨3, 4, 5⟩)] ++
    goOn 0 3 ++ goOn 1 3 ++ goOn 0 5 ++ goOn 1 5

/-- The second triple looked up after the first is bound; a third one, which shares
nothing with it, in between. -/
def raceAvoided : List KmAction :=
  [.accept 0, .accept 1, .accept 2, .request 0 (ask ⟨1, 2, 3⟩), .request 2 (ask ⟨6, 7, 8⟩)] ++
    goOn 0 3 ++ goOn 2 3 ++ goOn 0 3 ++ goOn 2 5 ++ goOn 0 2 ++
    [.close 2, .request 1 (ask ⟨3, 4, 5⟩)] ++ goOn 1 4

def raceEnd : KmService := endOf (step Components.plain) init race

def raceAvoidedEnd : KmService := endOf (step Components.plain) init raceAvoided

/-- Feature 3 is bound to the seed of the first triple and then to that of the
second, and the first triple is left with a mixture. -/
theorem race_rebinds : runSteps (step Components.plain) init race = .ok raceEnd ∧
    raceEnd.Drained ∧
    .bound 3 (BasicKM.generateSeed .plain ⟨1, 2, 3⟩) ∈ raceEnd.trace ∧
    .bound 3 (BasicKM.generateSeed .plain ⟨3, 4, 5⟩) ∈ raceEnd.trace ∧
    raceEnd.feature2KeyIndex.lookup 1 = some (BasicKM.generateSeed .plain ⟨1, 2, 3⟩) ∧
    raceEnd.feature2KeyIndex.lookup 3 = some (BasicKM.generateSeed .plain ⟨3, 4, 5⟩) ∧
    ¬ WriteOnce Components.plain raceEnd := by
  refine ⟨runSteps_endOf (by decide +kernel), by decide +kernel, by decide +kernel,
    by decide +kernel, by decide +kernel, by decide +kernel, fun h => ?_⟩
  have hsame := h.once 3 (BasicKM.generateSeed .plain ⟨1, 2, 3⟩)
    (BasicKM.generateSeed .plain ⟨3, 4, 5⟩) (by decide +kernel) (by decide +kernel)
  revert hsame
  decide +kernel

theorem write_once_sample : raceAvoidedEnd.Drained ∧ WriteOnce Components.plain raceAvoidedEnd :=
  ⟨by decide +kernel, (@write_once_iff Components.plain raceAvoidedEnd raceAvoided
    (runSteps_endOf (by decide +kernel))).1 (by decide +kernel)⟩

/-! ## A request on its own

Where no other thread takes a step in between, the steps of one request do what
`processReq` does in one go. -/

theorem goes_goes (w : KmService) (s : ThreadId) (pc pc' : KmPc) (evs evs' : List KmEvent) :
    (w.goes s pc evs).goes s pc' evs' = w.goes s pc' (evs ++ evs') := by
  simp [goes, Finmap.insert_insert]

theorem step_goes (w : KmService) (s : ThreadId) (pc : KmPc) (evs : List KmEvent) :
    step cfg (w.goes s pc evs) (.advance s) = advance cfg (w.goes s pc evs) s pc := by
  simp [step, goes]

theorem run_queries (info : ChunkInfo) (s : ThreadId) (evs : List KmEvent) (todo : List Feature) :
    ∀ m, runSteps (step cfg) (w.goes s (.find info m todo) evs) (goOn s todo.length) =
      .ok (w.goes s (.find info ((todo.map w.feature2KeyIndex.lookup).foldl countFeature m) [])
        evs) := by
  induction todo with
  | nil => intro m; rfl
  | cons f todo ih =>
      intro m
      rw [List.length_cons, goOn, List.replicate_succ, runSteps, List.foldlM_cons, step_goes,
        advance, ok_bind, goes_goes, List.append_nil]
      exact ih (countFeature m (w.feature2KeyIndex.lookup f))

variable (cfg) in
theorem run_inserts (info : ChunkInfo) (s : ThreadId) (k : Key) (todo : List Feature) :
    ∀ (w : KmService) (evs : List KmEvent),
      runSteps (step cfg) (w.goes s (.update info k todo) evs) (goOn s todo.length) =
        .ok ({ w with feature2KeyIndex := w.feature2KeyIndex.insertAll todo k }.goes s
          (.update info k []) (evs ++ todo.map (KmEvent.bound · k))) := by
  induction todo with
  | nil => intro w evs; rw [List.map_nil, List.append_nil]; rfl
  | cons f todo ih =>
      intro w evs
      rw [List.length_cons, goOn, List.replicate_succ, runSteps, List.foldlM_cons, step_goes,
        advance, ok_bind]
      have hnext := ih { w with feature2KeyIndex := w.feature2KeyIndex.insert f k }
        (evs ++ [.bound f k])
      rw [List.append_assoc] at hnext
      rw [← goes_goes] at hnext
      exact hnext

theorem run_append_ok {as bs : List KmAction} {w₁ w₂ : KmService}
    (h : runSteps (step cfg) w as = .ok w₁) (h' : runSteps (step cfg) w₁ bs = .ok w₂) :
    runSteps (step cfg) w (as ++ bs) = .ok w₂ := by
  rw [runSteps_append, h]
  exact h'

variable (cfg) in
/-- The step after the last query goes by the verdict of `FindBaseChunk`. -/
theorem run_verdict (w : KmService) (s : ThreadId) (info : ChunkInfo) :
    runSteps (step cfg) (w.goes s (.find info
      ((info.features.toList.map w.feature2KeyIndex.lookup).foldl countFeature noMatch) []) [])
      (goOn s 1) =
    match electedSeed w.feature2KeyIndex info.features with
    | some base => .ok (w.goes s .recv [.replied info.features base])
    | none => .ok (w.goes s (.update { info with stat := .nonSimilarChunk }
        (BasicKM.generateSeed cfg info.features) info.features.toList) [.drawn info.features]) := by
  have hfind := findBaseChunkDb_eq w.feature2KeyIndex info
  rw [findBaseChunkDb, findBaseChunk] at hfind
  rw [goOn, List.replicate_one, runSteps, List.foldlM_cons, step_goes, advance, hfind]
  cases electedSeed w.feature2KeyIndex info.features with
  | none =>
      simp only [ok_bind, goes_goes, List.nil_append]
      rfl
  | some base =>
      simp only [ok_bind, goes_goes, List.nil_append]
      rfl

/-- The steps of a request that no other thread interrupts: its reply and the index
it leaves are those of the sequential key manager. -/
theorem lone_request {s : ThreadId} (hs : w.threads.lookup s = some .recv) (info : ChunkInfo) :
    ∃ n evs, runSteps (step cfg) w (.request s info :: goOn s n) =
      .ok ({ w with feature2KeyIndex := BasicKM.indexOf cfg w.feature2KeyIndex info.features }.goes
        s .recv (evs ++
          [KmEvent.replied info.features
            (BasicKM.seedOf cfg w.feature2KeyIndex info.features)])) := by
  have hrequest : ∀ n, KmAction.request s info :: goOn s (superFeaturePerChunk + n) =
      [.request s info] ++ (goOn s info.features.toList.length ++ goOn s n) := by
    intro n
    rw [Features.length_toList, goOn, List.replicate_add]
    rfl
  have hquery : runSteps (step cfg) w ([.request s info] ++ goOn s info.features.toList.length) =
      .ok (w.goes s (.find info
        ((info.features.toList.map w.feature2KeyIndex.lookup).foldl countFeature noMatch) []) []) :=
    run_append_ok (by simp [runSteps, step, hs]) (run_queries info s [] _ noMatch)
  have hverdict := run_verdict cfg w s info
  rcases BasicKM.indexOf_cases cfg w.feature2KeyIndex info.features with
    ⟨hnone, hseed, hidx⟩ | ⟨k, hk, hseed, hidx⟩
  · rw [electedSeed_eq_none.mpr hnone] at hverdict
    have hinsert := run_inserts cfg { info with stat := .nonSimilarChunk } s
      (BasicKM.generateSeed cfg info.features) info.features.toList w [.drawn info.features]
    refine ⟨superFeaturePerChunk + (1 + (superFeaturePerChunk + 1)), [.drawn info.features] ++
      info.features.toList.map (KmEvent.bound · (BasicKM.generateSeed cfg info.features)), ?_⟩
    rw [hrequest, ← List.append_assoc, hseed, hidx]
    refine run_append_ok hquery ?_
    rw [goOn, List.replicate_add, List.replicate_add]
    refine run_append_ok hverdict (run_append_ok hinsert ?_)
    rw [List.replicate_one, runSteps, List.foldlM_cons, step_goes, advance, ok_bind, goes_goes]
    rfl
  · rw [hk] at hverdict
    refine ⟨superFeaturePerChunk + 1, [], ?_⟩
    rw [hrequest, ← List.append_assoc, hseed, hidx]
    exact run_append_ok hquery hverdict

end KmService

end EDRStore
