/-
# `EDRStore.Lib.KeyedLock` — a mutex for each key, made on demand

The mutexes are found through a table that a lock of its own protects.  A thread
that wants the section of a key goes through

    find      under the lock of the table: the mutex of the key, or a new one
    acquire   the mutex, once it is free
    refind    under the lock of the table: the mutex again
    release   the mutex

and others go between any two of these.  `Sound` is what holds of all threads
together: the mutex that a thread has found is still the key's, and it is held
just while one thread is in the section of the key (`Sound.moves`).
-/
import Mathlib.Logic.Function.Basic

namespace EDRStore

structure KeyedLock (K : Type) where
  table : K → Option Nat
  /-- The mutexes made so far are `0, …, made - 1`. -/
  made : Nat
  held : Nat → Bool

/-- Where a thread stands. -/
inductive LockPc (K : Type) where
  | outside
  /-- Before it acquires the mutex. -/
  | found (k : K) (m : Nat)
  | inside (k : K)
  /-- Before it releases the mutex. -/
  | leaving (k : K) (m : Nat)

/-- The key whose section the thread is in. -/
def LockPc.key? {K : Type} : LockPc K → Option K
  | .outside => none
  | .found _ _ => none
  | .inside k => some k
  | .leaving k _ => some k

namespace KeyedLock

variable {K T : Type}

def empty : KeyedLock K := ⟨fun _ => none, 0, fun _ => false⟩

def set (l : KeyedLock K) (m : Nat) (b : Bool) : KeyedLock K :=
  { l with held := Function.update l.held m b }

/-- The table, the mutexes and the threads agree. -/
structure Sound (l : KeyedLock K) (pc : T → LockPc K) : Prop where
  made : ∀ {k m}, l.table k = some m → m < l.made
  injective : ∀ {k k' m}, l.table k = some m → l.table k' = some m → k = k'
  found : ∀ {t k m}, pc t = .found k m → l.table k = some m
  leaving : ∀ {t k m}, pc t = .leaving k m → l.table k = some m
  inside : ∀ {t k}, (pc t).key? = some k → ∃ m, l.table k = some m ∧ l.held m = true
  holder : ∀ {m}, l.held m = true → ∃ t k, (pc t).key? = some k ∧ l.table k = some m
  unique : ∀ {t u k}, (pc t).key? = some k → (pc u).key? = some k → t = u

theorem sound_empty : Sound (empty : KeyedLock K) (fun _ : T => .outside) where
  made := by rintro _ _ ⟨⟩
  injective := by rintro _ _ _ ⟨⟩
  found := by rintro _ _ _ ⟨⟩
  leaving := by rintro _ _ _ ⟨⟩
  inside := by rintro _ _ ⟨⟩
  holder := by rintro _ ⟨⟩
  unique := by rintro _ _ _ ⟨⟩

variable {l l' : KeyedLock K} {pc : T → LockPc K} {t : T} {k : K} {m : Nat}

/-- A free mutex: nobody is in the section of its key. -/
theorem Sound.free (h : l.Sound pc) (hk : l.table k = some m) (hfree : l.held m = false) (u : T) :
    (pc u).key? ≠ some k := by
  intro hu
  obtain ⟨m', hm', hheld⟩ := h.inside hu
  obtain rfl := Option.some.inj (hk.symm.trans hm')
  rw [hfree] at hheld
  cases hheld

/-- A thread that cannot acquire its mutex waits for one in the section. -/
theorem Sound.blocked (h : l.Sound pc) (ht : pc t = .found k m) (hheld : l.held m = true) :
    ∃ u, u ≠ t ∧ (pc u).key? = some k := by
  obtain ⟨u, k', hu, hk'⟩ := h.holder hheld
  obtain rfl := h.injective (h.found ht) hk'
  refine ⟨u, ?_, hu⟩
  rintro rfl
  rw [ht] at hu
  cases hu

/-! ## Looking a key up -/

section Find

variable [DecidableEq K]

def find (l : KeyedLock K) (k : K) : Nat × KeyedLock K :=
  match l.table k with
  | some m => (m, l)
  | none =>
      (l.made, { l with table := Function.update l.table k (some l.made), made := l.made + 1 })

/-- What one thread can do to the lock. -/
inductive Moves : KeyedLock K → LockPc K → KeyedLock K → LockPc K → Prop
  | find {l : KeyedLock K} {k : K} : Moves l .outside (l.find k).2 (.found k (l.find k).1)
  | acquire {l : KeyedLock K} {k : K} {m : Nat} (hfree : l.held m = false) :
      Moves l (.found k m) (l.set m true) (.inside k)
  | refind {l : KeyedLock K} {k : K} {m : Nat} (hm : l.table k = some m) :
      Moves l (.inside k) l (.leaving k m)
  | release {l : KeyedLock K} {k : K} {m : Nat} :
      Moves l (.leaving k m) (l.set m false) .outside

/-- The mutex found is the key's from now on. -/
theorem table_find (l : KeyedLock K) (k : K) : (l.find k).2.table k = some (l.find k).1 := by
  unfold find
  split
  · assumption
  · exact Function.update_self ..

/-- A lookup keeps the mutex of every key that has one. -/
theorem table_find_of_some (k : K) {k' : K} (h : l.table k' = some m) :
    (l.find k).2.table k' = some m := by
  unfold find
  split
  · exact h
  · rename_i hn
    have hne : k' ≠ k := by
      rintro rfl
      rw [hn] at h
      cases h
    exact (Function.update_of_ne hne ..).trans h

theorem held_find (l : KeyedLock K) (k : K) : (l.find k).2.held = l.held := by
  unfold find
  split <;> rfl

/-- A key has got its mutex before the lookup or in it. -/
theorem table_find_cases {k' : K} (h : (l.find k).2.table k' = some m) :
    l.table k' = some m ∨ (k' = k ∧ m = l.made ∧ (l.find k).2.made = l.made + 1) := by
  unfold find at h ⊢
  split at h
  · exact Or.inl h
  · rcases eq_or_ne k' k with rfl | hne
    · have h : Function.update l.table k' (some l.made) k' = some m := h
      rw [Function.update_self] at h
      cases h
      exact Or.inr ⟨rfl, rfl, rfl⟩
    · exact Or.inl ((Function.update_of_ne hne ..).symm.trans h)

theorem made_le_find (l : KeyedLock K) (k : K) : l.made ≤ (l.find k).2.made := by
  unfold find
  split
  · exact Nat.le_refl _
  · exact Nat.le_succ _

end Find

/-! ## What every move keeps -/

variable [DecidableEq T]

/-- The sections after a move of `t`. -/
theorem key?_update {p : LockPc K} {u : T} :
    (Function.update pc t p u).key? = if u = t then p.key? else (pc u).key? := by
  rw [Function.update_apply]
  split <;> rfl

/-- A move that neither enters a section nor leaves one. -/
theorem key?_update_same {p : LockPc K} (h : p.key? = (pc t).key?) (u : T) :
    (Function.update pc t p u).key? = (pc u).key? := by
  rw [key?_update]
  split
  · rename_i hu
    rw [hu, h]
  · rfl

theorem Sound.acquire (h : l.Sound pc) (ht : pc t = .found k m) (hfree : l.held m = false) :
    (l.set m true).Sound (Function.update pc t (.inside k)) := by
  have hk := h.found ht
  have hnone := h.free hk hfree
  refine ⟨h.made, h.injective, ?_, ?_, ?_, ?_, ?_⟩
  · intro u k' m' hu
    rw [Function.update_apply] at hu
    split at hu
    · cases hu
    · exact h.found hu
  · intro u k' m' hu
    rw [Function.update_apply] at hu
    split at hu
    · cases hu
    · exact h.leaving hu
  · intro u k' hu
    rw [key?_update] at hu
    split at hu
    · cases hu
      exact ⟨m, hk, Function.update_self ..⟩
    · obtain ⟨m', hm', hheld⟩ := h.inside hu
      refine ⟨m', hm', ?_⟩
      have hne : m' ≠ m := by
        rintro rfl
        rw [hfree] at hheld
        cases hheld
      exact (Function.update_of_ne hne ..).trans hheld
  · intro m' hm'
    rcases eq_or_ne m' m with rfl | hne
    · exact ⟨t, k, by rw [key?_update, if_pos rfl]; rfl, hk⟩
    · obtain ⟨u, k', hu, hk'⟩ := h.holder ((Function.update_of_ne hne ..).symm.trans hm')
      refine ⟨u, k', ?_, hk'⟩
      rw [key?_update, if_neg]
      · exact hu
      · rintro rfl
        rw [ht] at hu
        cases hu
  · intro u v k' hu hv
    rw [key?_update] at hu hv
    split at hu <;> split at hv
    · rename_i hu' hv'
      exact hu'.trans hv'.symm
    · cases hu
      exact absurd hv (hnone v)
    · cases hv
      exact absurd hu (hnone u)
    · exact h.unique hu hv

theorem Sound.refind (h : l.Sound pc) (ht : pc t = .inside k) (hk : l.table k = some m) :
    l.Sound (Function.update pc t (.leaving k m)) := by
  have hkey : ∀ u, (Function.update pc t (.leaving k m) u).key? = (pc u).key? :=
    key?_update_same (by rw [ht]; rfl)
  refine ⟨h.made, h.injective, ?_, ?_, ?_, ?_, ?_⟩
  · intro u k' m' hu
    rw [Function.update_apply] at hu
    split at hu
    · cases hu
    · exact h.found hu
  · intro u k' m' hu
    rw [Function.update_apply] at hu
    split at hu
    · cases hu
      exact hk
    · exact h.leaving hu
  · intro u k' hu
    exact h.inside ((hkey u).symm.trans hu)
  · intro m' hm'
    obtain ⟨u, k', hu, hk'⟩ := h.holder hm'
    exact ⟨u, k', (hkey u).trans hu, hk'⟩
  · intro u v k' hu hv
    exact h.unique ((hkey u).symm.trans hu) ((hkey v).symm.trans hv)

theorem Sound.release (h : l.Sound pc) (ht : pc t = .leaving k m) :
    (l.set m false).Sound (Function.update pc t .outside) := by
  have hk := h.leaving ht
  have hself : (pc t).key? = some k := by rw [ht]; rfl
  refine ⟨h.made, h.injective, ?_, ?_, ?_, ?_, ?_⟩
  · intro u k' m' hu
    rw [Function.update_apply] at hu
    split at hu
    · cases hu
    · exact h.found hu
  · intro u k' m' hu
    rw [Function.update_apply] at hu
    split at hu
    · cases hu
    · exact h.leaving hu
  · intro u k' hu
    rw [key?_update] at hu
    split at hu
    · cases hu
    · rename_i hne
      obtain ⟨m', hm', hheld⟩ := h.inside hu
      refine ⟨m', hm', ?_⟩
      have hne' : m' ≠ m := by
        -- the same mutex is the same key, and that one is t's
        rintro rfl
        obtain rfl := h.injective hk hm'
        exact hne (h.unique hu hself)
      exact (Function.update_of_ne hne' ..).trans hheld
  · intro m' hm'
    rcases eq_or_ne m' m with rfl | hne
    · rw [show (l.set m' false).held m' = false from Function.update_self ..] at hm'
      cases hm'
    · obtain ⟨u, k', hu, hk'⟩ := h.holder ((Function.update_of_ne hne ..).symm.trans hm')
      refine ⟨u, k', ?_, hk'⟩
      rw [key?_update, if_neg]
      · exact hu
      · rintro rfl
        obtain rfl := Option.some.inj (hu.symm.trans hself)
        exact hne (Option.some.inj (hk'.symm.trans hk))
  · intro u v k' hu hv
    rw [key?_update] at hu hv
    split at hu
    · cases hu
    · split at hv
      · cases hv
      · exact h.unique hu hv

variable [DecidableEq K]

theorem Sound.find (h : l.Sound pc) (ht : pc t = .outside) (k : K) :
    (l.find k).2.Sound (Function.update pc t (.found k (l.find k).1)) := by
  have hkey : ∀ u, (Function.update pc t (.found k (l.find k).1) u).key? = (pc u).key? :=
    key?_update_same (by rw [ht]; rfl)
  refine ⟨?_, ?_, ?_, ?_, ?_, ?_, ?_⟩
  · intro k' m' hm
    rcases table_find_cases hm with hm | ⟨-, rfl, hmade⟩
    · exact Nat.lt_of_lt_of_le (h.made hm) (made_le_find l k)
    · rw [hmade]
      exact Nat.lt_succ_self _
  · intro k₁ k₂ m' h₁ h₂
    rcases table_find_cases h₁ with ho₁ | ⟨rfl, rfl, -⟩
    · rcases table_find_cases h₂ with ho₂ | ⟨-, rfl, -⟩
      · exact h.injective ho₁ ho₂
      · exact absurd (h.made ho₁) (Nat.lt_irrefl _)
    · rcases table_find_cases h₂ with ho₂ | ⟨rfl, -, -⟩
      · exact absurd (h.made ho₂) (Nat.lt_irrefl _)
      · rfl
  · intro u k' m' hu
    rw [Function.update_apply] at hu
    split at hu
    · cases hu
      exact table_find l k
    · exact table_find_of_some k (h.found hu)
  · intro u k' m' hu
    rw [Function.update_apply] at hu
    split at hu
    · cases hu
    · exact table_find_of_some k (h.leaving hu)
  · intro u k' hu
    rw [hkey] at hu
    obtain ⟨m', hm', hheld⟩ := h.inside hu
    exact ⟨m', table_find_of_some k hm', by rw [held_find]; exact hheld⟩
  · intro m' hm'
    rw [held_find] at hm'
    obtain ⟨u, k', hu, hk'⟩ := h.holder hm'
    exact ⟨u, k', (hkey u).trans hu, table_find_of_some k hk'⟩
  · intro u v k' hu hv
    rw [hkey] at hu hv
    exact h.unique hu hv

/-- Whatever a thread does to the lock. -/
theorem Sound.moves (h : l.Sound pc) {p : LockPc K} (hm : Moves l (pc t) l' p) :
    l'.Sound (Function.update pc t p) := by
  generalize hp : pc t = q at hm
  cases hm with
  | find => exact h.find hp _
  | acquire hfree => exact h.acquire hp hfree
  | refind hk => exact h.refind hp hk
  | release => exact h.release hp

end KeyedLock

end EDRStore
