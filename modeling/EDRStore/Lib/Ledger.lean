/-
# `EDRStore.Lib.Ledger` — keys entered before their value is known

Writers share a map.  A writer that finds a key absent admits it, enters a
placeholder for it, and publishes the value later.  Checking and entering are
two steps, and other writers may move in between:

    claimed s    found absent by `s`, not entered yet
    held s       entered by `s`, its value not published yet

`Balanced` holds in every run: what was admitted is under way or published, and
every entry is under way or published.  `Once` needs a discipline: no key is
checked while it is claimed.  Then, among the writers that act, every key is
admitted once and a published value is never replaced.
-/
import EDRStore.Lib.Index

namespace EDRStore

structure Ledger (S K V : Type) where
  db : Index K V
  claimed : S → Multiset K
  held : S → Multiset K
  admitted : List (S × K)
  published : List (S × K × V)

namespace Ledger

variable {S K V : Type} [DecidableEq S] [DecidableEq K]

inductive Move (K V : Type) where
  | idle
  | check (k : K)
  | enter (k : K) (v : V)
  | publish (k : K) (v : V)

/-- One move of the writer `s`. -/
inductive Step (l : Ledger S K V) (s : S) : Move K V → Ledger S K V → Prop
  | idle : Step l s .idle l
  | check {k} (h : k ∉ l.db) : Step l s (.check k)
      { l with
        claimed := Function.update l.claimed s (k ::ₘ l.claimed s)
        admitted := l.admitted ++ [(s, k)] }
  | enter {k v c} (h : l.claimed s = k ::ₘ c) : Step l s (.enter k v)
      { l with
        db := l.db.insert k v
        claimed := Function.update l.claimed s c
        held := Function.update l.held s (k ::ₘ l.held s) }
  | publish {k v c} (h : l.held s = k ::ₘ c) : Step l s (.publish k v)
      { l with
        db := l.db.insert k v
        held := Function.update l.held s c
        published := l.published ++ [(s, k, v)] }

/-- The keys that the log gives for `s`. -/
def keysOf (es : List (S × K)) (s : S) : Multiset K :=
  ((es.filter (·.1 = s)).map Prod.snd : List K)

omit [DecidableEq K] in
theorem mem_keysOf {es : List (S × K)} {s : S} {k : K} : k ∈ keysOf es s ↔ (s, k) ∈ es := by
  simp only [keysOf, Multiset.mem_coe, List.mem_map, List.mem_filter, decide_eq_true_eq]
  constructor
  · rintro ⟨⟨u, k'⟩, ⟨hm, rfl⟩, rfl⟩
    exact hm
  · intro h
    exact ⟨(s, k), ⟨h, rfl⟩, rfl⟩

omit [DecidableEq K] in
theorem keysOf_append (es : List (S × K)) (s u : S) (k : K) :
    keysOf (es ++ [(s, k)]) u = if u = s then k ::ₘ keysOf es u else keysOf es u := by
  by_cases hu : u = s
  · subst hu
    simp only [keysOf, List.filter_append, List.map_append, if_true]
    rw [← Multiset.coe_add, add_comm]
    simp
  · simp [keysOf, Ne.symm hu, hu]

/-- The published keys, with their writers. -/
def publishedKeys (es : List (S × K × V)) : List (S × K) := es.map fun e => (e.1, e.2.1)

omit [DecidableEq S] [DecidableEq K] in
theorem mem_publishedKeys {es : List (S × K × V)} {s : S} {k : K} :
    (s, k) ∈ publishedKeys es ↔ ∃ v, (s, k, v) ∈ es := by
  simp only [publishedKeys, List.mem_map]
  constructor
  · rintro ⟨⟨u, k', v⟩, hm, heq⟩
    cases heq
    exact ⟨v, hm⟩
  · rintro ⟨v, h⟩
    exact ⟨(s, k, v), h, rfl⟩

variable {l l' : Ledger S K V} {s : S} {m : Move K V}

/-! ## Every run -/

structure Balanced (l : Ledger S K V) : Prop where
  account : ∀ s, keysOf l.admitted s =
    keysOf (publishedKeys l.published) s + l.claimed s + l.held s
  held_mem : ∀ {s k}, k ∈ l.held s → k ∈ l.db
  published_mem : ∀ {s k v}, (s, k, v) ∈ l.published → k ∈ l.db
  record : ∀ {k v}, l.db.lookup k = some v → ∃ s, (s, k) ∈ l.admitted ∧
    (k ∈ l.claimed s ∨ k ∈ l.held s ∨ (s, k, v) ∈ l.published)

theorem Balanced.admitted_held (h : l.Balanced) {k : K} (hk : k ∈ l.held s) :
    (s, k) ∈ l.admitted := by
  rw [← mem_keysOf, h.account]
  exact Multiset.mem_add.mpr (Or.inr hk)

theorem Balanced.admitted_claimed (h : l.Balanced) {k : K} (hk : k ∈ l.claimed s) :
    (s, k) ∈ l.admitted := by
  rw [← mem_keysOf, h.account]
  exact Multiset.mem_add.mpr (Or.inl (Multiset.mem_add.mpr (Or.inr hk)))

theorem Balanced.admitted_published (h : l.Balanced) {k : K} {v : V}
    (hk : (s, k, v) ∈ l.published) : (s, k) ∈ l.admitted := by
  rw [← mem_keysOf, h.account]
  exact Multiset.mem_add.mpr
    (Or.inl (Multiset.mem_add.mpr (Or.inl (mem_keysOf.mpr (mem_publishedKeys.mpr ⟨v, hk⟩)))))

/-- What was admitted is in the map, or about to be entered. -/
theorem Balanced.admitted_cases (h : l.Balanced) {k : K} (hk : (s, k) ∈ l.admitted) :
    k ∈ l.claimed s ∨ k ∈ l.db := by
  rw [← mem_keysOf, h.account] at hk
  rcases Multiset.mem_add.mp hk with hk | hk
  · rcases Multiset.mem_add.mp hk with hk | hk
    · obtain ⟨v, hk⟩ := mem_publishedKeys.mp (mem_keysOf.mp hk)
      exact Or.inr (h.published_mem hk)
    · exact Or.inl hk
  · exact Or.inr (h.held_mem hk)

omit [DecidableEq K] in
theorem mem_update_cons {f : S → Multiset K} {s u : S} {k k' : K}
    (h : k' ∈ Function.update f s (k ::ₘ f s) u) : (u = s ∧ k' = k) ∨ k' ∈ f u := by
  by_cases hu : u = s
  · subst hu
    rw [Function.update_self] at h
    rcases Multiset.mem_cons.mp h with h | h
    · exact Or.inl ⟨rfl, h⟩
    · exact Or.inr h
  · rw [Function.update_of_ne hu] at h
    exact Or.inr h

omit [DecidableEq K] in
theorem mem_update_cons_of_mem {f : S → Multiset K} {s u : S} {k k' : K} (h : k' ∈ f u) :
    k' ∈ Function.update f s (k ::ₘ f s) u := by
  by_cases hu : u = s
  · subst hu
    rw [Function.update_self]
    exact Multiset.mem_cons_of_mem h
  · rw [Function.update_of_ne hu]
    exact h

omit [DecidableEq K] in
/-- Taking one `k` away from `s`. -/
theorem mem_update_tail {f : S → Multiset K} {s u : S} {k k' : K} {c : Multiset K}
    (hf : f s = k ::ₘ c) (h : k' ∈ Function.update f s c u) : k' ∈ f u := by
  by_cases hu : u = s
  · subst hu
    rw [Function.update_self] at h
    rw [hf]
    exact Multiset.mem_cons_of_mem h
  · rw [Function.update_of_ne hu] at h
    exact h

omit [DecidableEq K] in
theorem mem_update_tail_of_ne {f : S → Multiset K} {s u : S} {k k' : K} {c : Multiset K}
    (hf : f s = k ::ₘ c) (hk : k' ≠ k) (h : k' ∈ f u) : k' ∈ Function.update f s c u := by
  by_cases hu : u = s
  · subst hu
    rw [hf] at h
    rw [Function.update_self]
    exact (Multiset.mem_cons.mp h).resolve_left hk
  · rw [Function.update_of_ne hu]
    exact h

theorem Step.db_mem (h : Step l s m l') {k : K} (hk : k ∈ l.db) : k ∈ l'.db := by
  cases h with
  | idle => exact hk
  | check _ => exact hk
  | enter _ => exact Finmap.mem_insert.mpr (Or.inr hk)
  | publish _ => exact Finmap.mem_insert.mpr (Or.inr hk)

theorem Balanced.check (h : l.Balanced) (k : K) : Balanced { l with
    claimed := Function.update l.claimed s (k ::ₘ l.claimed s)
    admitted := l.admitted ++ [(s, k)] } where
  account := by
    intro u
    show keysOf (l.admitted ++ [(s, k)]) u =
      keysOf (publishedKeys l.published) u + Function.update l.claimed s (k ::ₘ l.claimed s) u +
        l.held u
    rw [keysOf_append]
    by_cases hu : u = s
    · subst hu
      rw [if_pos rfl, Function.update_self, h.account, Multiset.add_cons, Multiset.cons_add]
    · rw [if_neg hu, Function.update_of_ne hu, h.account]
  held_mem := h.held_mem
  published_mem := h.published_mem
  record := by
    intro k' v hl
    obtain ⟨u, hu, hc⟩ := h.record hl
    refine ⟨u, List.mem_append_left _ hu, ?_⟩
    rcases hc with hc | hc
    · exact Or.inl (mem_update_cons_of_mem hc)
    · exact Or.inr hc

theorem Balanced.enter (h : l.Balanced) {k : K} {v : V} {c : Multiset K}
    (hc : l.claimed s = k ::ₘ c) : Balanced { l with
    db := l.db.insert k v
    claimed := Function.update l.claimed s c
    held := Function.update l.held s (k ::ₘ l.held s) } where
  account := by
    intro u
    show keysOf l.admitted u =
      keysOf (publishedKeys l.published) u + Function.update l.claimed s c u +
        Function.update l.held s (k ::ₘ l.held s) u
    by_cases hu : u = s
    · subst hu
      rw [Function.update_self, Function.update_self, h.account, hc, Multiset.add_cons,
        Multiset.add_cons, Multiset.cons_add]
    · rw [Function.update_of_ne hu, Function.update_of_ne hu, h.account]
  held_mem := by
    intro u k' hk'
    rcases mem_update_cons hk' with ⟨-, rfl⟩ | hk'
    · exact Finmap.mem_insert.mpr (Or.inl rfl)
    · exact Finmap.mem_insert.mpr (Or.inr (h.held_mem hk'))
  published_mem := fun hk' => Finmap.mem_insert.mpr (Or.inr (h.published_mem hk'))
  record := by
    intro k' v' hl
    rw [Index.lookup_insert_ite] at hl
    split at hl
    · rename_i hk
      subst hk
      -- the entry is the placeholder of `s`
      refine ⟨s, h.admitted_claimed (hc ▸ Multiset.mem_cons_self _ _), Or.inr (Or.inl ?_)⟩
      show k' ∈ Function.update l.held s (k' ::ₘ l.held s) s
      rw [Function.update_self]
      exact Multiset.mem_cons_self _ _
    · rename_i hk
      obtain ⟨u, hu, hx⟩ := h.record hl
      refine ⟨u, hu, ?_⟩
      rcases hx with hx | hx | hx
      · exact Or.inl (mem_update_tail_of_ne hc hk hx)
      · exact Or.inr (Or.inl (mem_update_cons_of_mem hx))
      · exact Or.inr (Or.inr hx)

theorem Balanced.publish (h : l.Balanced) {k : K} {v : V} {c : Multiset K}
    (hc : l.held s = k ::ₘ c) : Balanced { l with
    db := l.db.insert k v
    held := Function.update l.held s c
    published := l.published ++ [(s, k, v)] } where
  account := by
    intro u
    show keysOf l.admitted u = keysOf (publishedKeys (l.published ++ [(s, k, v)])) u + l.claimed u +
        Function.update l.held s c u
    rw [show publishedKeys (l.published ++ [(s, k, v)]) = publishedKeys l.published ++ [(s, k)] from
      List.map_append, keysOf_append]
    by_cases hu : u = s
    · subst hu
      rw [if_pos rfl, Function.update_self, h.account, hc, Multiset.add_cons, Multiset.cons_add,
        Multiset.cons_add]
    · rw [if_neg hu, Function.update_of_ne hu, h.account]
  held_mem := fun hk' => Finmap.mem_insert.mpr (Or.inr (h.held_mem (mem_update_tail hc hk')))
  published_mem := by
    intro u k' v' hk'
    rcases List.mem_append.mp hk' with hk' | hk'
    · exact Finmap.mem_insert.mpr (Or.inr (h.published_mem hk'))
    · cases List.mem_singleton.mp hk'
      exact Finmap.mem_insert.mpr (Or.inl rfl)
  record := by
    intro k' v' hl
    rw [Index.lookup_insert_ite] at hl
    split at hl
    · rename_i hk
      subst hk
      cases hl
      exact ⟨s, h.admitted_held (hc ▸ Multiset.mem_cons_self _ _),
        Or.inr (Or.inr (List.mem_append_right _ (List.mem_singleton.mpr rfl)))⟩
    · rename_i hk
      obtain ⟨u, hu, hx⟩ := h.record hl
      refine ⟨u, hu, ?_⟩
      rcases hx with hx | hx | hx
      · exact Or.inl hx
      · exact Or.inr (Or.inl (mem_update_tail_of_ne hc hk hx))
      · exact Or.inr (Or.inr (List.mem_append_left _ hx))

theorem Balanced.step (h : l.Balanced) (hs : Step l s m l') : l'.Balanced := by
  cases hs with
  | idle => exact h
  | check _ => exact h.check _
  | enter hc => exact h.enter hc
  | publish hc => exact h.publish hc

/-! ## No key checked while it is claimed -/

/-- A check is made only of a key that nobody has claimed. -/
def Move.Disciplined (l : Ledger S K V) : Move K V → Prop
  | .check k => ∀ u, k ∉ l.claimed u
  | _ => True

/-- Among the writers `P`, since the map was `db₀`. -/
structure Once (db₀ : Index K V) (P : S → Prop) (l : Ledger S K V) : Prop where
  /-- What was in the map is left alone. -/
  old : ∀ {k}, k ∈ db₀ → l.db.lookup k = db₀.lookup k
  fresh : ∀ {s k}, P s → (s, k) ∈ l.admitted → k ∉ db₀
  absent : ∀ {s k}, P s → k ∈ l.claimed s → k ∉ l.db
  admitted_once : l.admitted.Pairwise (fun e e' => P e.1 → P e'.1 → e.2 ≠ e'.2)
  published_once : l.published.Pairwise (fun e e' => P e.1 → P e'.1 → e.2.1 ≠ e'.2.1)
  /-- A published value stays. -/
  final : ∀ {s k v}, P s → (s, k, v) ∈ l.published → l.db.lookup k = some v

variable {db₀ : Index K V} {P : S → Prop}

/-- A key was admitted by one writer only. -/
theorem Once.owner (h : l.Once db₀ P) {s u : S} {k : K} (hs : P s) (hu : P u)
    (hk : (s, k) ∈ l.admitted) (hk' : (u, k) ∈ l.admitted) : s = u := by
  by_contra hne
  let R : S × K → S × K → Prop := fun e e' => e ≠ e' → P e.1 → P e'.1 → e.2 ≠ e'.2
  have hR : l.admitted.Pairwise R := h.admitted_once.imp (by
    intro e e' hee _
    exact hee)
  have hR' : l.admitted.Pairwise (flip R) := h.admitted_once.imp (by
    intro e e' hee _ hp' hp
    exact (hee hp hp').symm)
  exact List.Pairwise.forall_of_forall_of_flip (fun e _ hee => absurd rfl hee) hR hR' hk hk'
    (fun heq => hne (congrArg Prod.fst heq)) hs hu rfl

/-- One writer's keys are all different. -/
theorem Once.nodup (h : l.Once db₀ P) (hs : P s) : (keysOf l.admitted s).Nodup := by
  rw [keysOf, Multiset.coe_nodup, List.Nodup, List.pairwise_map, List.pairwise_filter]
  refine h.admitted_once.imp ?_
  intro e e' hee he he'
  simp only [decide_eq_true_eq] at he he'
  exact hee (he ▸ hs) (he' ▸ hs)

/-- Published, claimed and held keys of one writer do not overlap. -/
theorem Once.split (h : l.Once db₀ P) (hb : l.Balanced) (hs : P s) :
    (l.held s).Nodup ∧ (l.claimed s).Nodup ∧
      Disjoint (keysOf (publishedKeys l.published) s + l.claimed s) (l.held s) := by
  have hn := h.nodup hs
  rw [hb.account] at hn
  obtain ⟨h1, h2, h3⟩ := Multiset.nodup_add.mp hn
  exact ⟨h2, (Multiset.nodup_add.mp h1).2.1, h3⟩

/-- A key that is still held has not been published, by anyone. -/
theorem Once.not_published (h : l.Once db₀ P) (hb : l.Balanced) {s u : S} {k : K} {v : V}
    (hs : P s) (hu : P u) (hk : k ∈ l.held s) : (u, k, v) ∉ l.published := by
  intro hm
  obtain rfl := h.owner hs hu (hb.admitted_held hk) (hb.admitted_published hm)
  have hd := (h.split hb hs).2.2
  exact Multiset.disjoint_left.mp hd
    (Multiset.mem_add.mpr (Or.inl (mem_keysOf.mpr (mem_publishedKeys.mpr ⟨v, hm⟩)))) hk

theorem Once.check (h : l.Once db₀ P) (hb : l.Balanced) {k : K} (hk : k ∉ l.db)
    (hfree : ∀ u, k ∉ l.claimed u) : Once db₀ P { l with
    claimed := Function.update l.claimed s (k ::ₘ l.claimed s)
    admitted := l.admitted ++ [(s, k)] } where
  old := h.old
  fresh := by
    intro u k' hu hk'
    rcases List.mem_append.mp hk' with hk' | hk'
    · exact h.fresh hu hk'
    · cases List.mem_singleton.mp hk'
      intro hm
      obtain ⟨v, hv⟩ := Index.lookup_isSome_of_mem hm
      exact hk (Index.mem_of_lookup ((h.old hm).trans hv))
  absent := by
    intro u k' hu hk'
    rcases mem_update_cons hk' with ⟨-, rfl⟩ | hk'
    · exact hk
    · exact h.absent hu hk'
  admitted_once := by
    refine List.pairwise_append.mpr ⟨h.admitted_once, List.pairwise_singleton _ _, ?_⟩
    intro e he e' he'
    cases List.mem_singleton.mp he'
    rintro - - rfl
    -- an earlier verdict on `k` is in the map or still claimed
    rcases hb.admitted_cases (s := e.1) he with hc | hd
    · exact hfree _ hc
    · exact hk hd
  published_once := h.published_once
  final := h.final

theorem Once.enter (h : l.Once db₀ P) (hb : l.Balanced) (hs : P s) {k : K} {v : V}
    {c : Multiset K} (hc : l.claimed s = k ::ₘ c) : Once db₀ P { l with
    db := l.db.insert k v
    claimed := Function.update l.claimed s c
    held := Function.update l.held s (k ::ₘ l.held s) } := by
  have hkc : k ∈ l.claimed s := hc ▸ Multiset.mem_cons_self _ _
  have hkdb : k ∉ l.db := h.absent hs hkc
  have hins : ∀ {k'}, k' ∈ l.db → (l.db.insert k v).lookup k' = l.db.lookup k' := by
    intro k' hk'
    rw [Index.lookup_insert_ite, if_neg]
    rintro rfl
    exact hkdb hk'
  exact
    { old := by
        intro k' hk'
        obtain ⟨v', hv'⟩ := Index.lookup_isSome_of_mem hk'
        exact (hins (Index.mem_of_lookup ((h.old hk').trans hv'))).trans (h.old hk')
      fresh := h.fresh
      absent := by
        intro u k' hu hk' hm
        have hold := mem_update_tail hc hk'
        rcases Finmap.mem_insert.mp hm with rfl | hm
        · obtain rfl := h.owner hs hu (hb.admitted_claimed hkc) (hb.admitted_claimed hold)
          have hk' : k' ∈ Function.update l.claimed s c s := hk'
          rw [Function.update_self] at hk'
          have hn := (h.split hb hs).2.1
          rw [hc] at hn
          exact (Multiset.nodup_cons.mp hn).1 hk'
        · exact h.absent hu hold hm
      admitted_once := h.admitted_once
      published_once := h.published_once
      final := fun hu hm => (hins (hb.published_mem hm)).trans (h.final hu hm) }

theorem Once.publish (h : l.Once db₀ P) (hb : l.Balanced) (hs : P s) {k : K} {v : V}
    {c : Multiset K} (hc : l.held s = k ::ₘ c) : Once db₀ P { l with
    db := l.db.insert k v
    held := Function.update l.held s c
    published := l.published ++ [(s, k, v)] } := by
  have hkh : k ∈ l.held s := hc ▸ Multiset.mem_cons_self _ _
  exact
    { old := by
        intro k' hk'
        rw [Index.lookup_insert_ite, if_neg]
        · exact h.old hk'
        · rintro rfl
          exact h.fresh hs (hb.admitted_held hkh) hk'
      fresh := h.fresh
      absent := by
        intro u k' hu hk' hm
        rcases Finmap.mem_insert.mp hm with rfl | hm
        · exact h.absent hu hk' (hb.held_mem hkh)
        · exact h.absent hu hk' hm
      admitted_once := h.admitted_once
      published_once := by
        refine List.pairwise_append.mpr ⟨h.published_once, List.pairwise_singleton _ _, ?_⟩
        intro e he e' he'
        cases List.mem_singleton.mp he'
        rintro hu - rfl
        exact h.not_published hb hs hu hkh he
      final := by
        intro u k' v' hu hm
        rw [Index.lookup_insert_ite]
        rcases List.mem_append.mp hm with hpub | hnew
        · rw [if_neg]
          · exact h.final hu hpub
          · rintro rfl
            exact h.not_published hb hs hu hkh hpub
        · cases List.mem_singleton.mp hnew
          rw [if_pos rfl] }

/-- The discipline keeps every key admitted once. -/
theorem Once.step (h : l.Once db₀ P) (hb : l.Balanced) (hs : P s) (hm : m.Disciplined l)
    (hst : Step l s m l') : l'.Once db₀ P := by
  cases hst with
  | idle => exact h
  | check hk => exact h.check hb hk hm
  | enter hc => exact h.enter hb hs hc
  | publish hc => exact h.publish hb hs hc

end Ledger

end EDRStore
