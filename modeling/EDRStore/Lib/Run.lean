/-
# `EDRStore.Lib.Run` — runs of a program that may stop

A program is a step function into `Except E`: the error is the point at which
the program ends itself.  `Reach step G s₀ s` says that `s` is reached from
`s₀` by steps that all meet the guard `G`, a condition on the state *before*
the step and on the action taken; `G := fun _ _ => True` gives all runs.  An
invariant is proved once per step and holds of every reached state
(`Reach.inv`); what one schedule computes (`runSteps`) is one of the reached
states.
-/
import Mathlib.Logic.Relation
import Mathlib.Data.List.Basic

namespace EDRStore

/-- Peeling one computation off a sequence that succeeded. -/
theorem bind_ok {E α β : Type} {x : Except E α} {f : α → Except E β} {b : β}
    (h : (x >>= f) = .ok b) : ∃ a, x = .ok a ∧ f a = .ok b := by
  cases x with
  | error e => exact nomatch h
  | ok a => exact ⟨a, rfl, h⟩

/-- A sequence that stopped did so in its first computation or after it. -/
theorem bind_error {E α β : Type} {x : Except E α} {f : α → Except E β} {e : E}
    (h : (x >>= f) = .error e) : x = .error e ∨ ∃ a, x = .ok a ∧ f a = .error e := by
  cases x with
  | error e' => cases h; exact Or.inl rfl
  | ok a => exact Or.inr ⟨a, rfl, h⟩

@[simp] theorem ok_bind {E α β : Type} (a : α) (f : α → Except E β) :
    ((Except.ok a : Except E α) >>= f) = f a := rfl

@[simp] theorem error_bind {E α β : Type} (e : E) (f : α → Except E β) :
    ((Except.error e : Except E α) >>= f) = .error e := rfl

/-! ## Loops -/

section Loop

variable {E α β : Type} {f : β → α → Except E β}

/-- What every turn of a loop keeps, the loop keeps. -/
theorem foldlM_inv (I : β → Prop) {l : List α}
    (hstep : ∀ b a b', a ∈ l → I b → f b a = .ok b' → I b') :
    ∀ {b b' : β}, I b → l.foldlM f b = .ok b' → I b' := by
  induction l with
  | nil => intro b b' hb h; cases h; exact hb
  | cons a l ih =>
      intro b b' hb h
      rw [List.foldlM_cons] at h
      obtain ⟨c, hc, hl⟩ := bind_ok h
      exact ih (fun b a b' ha => hstep b a b' (List.mem_cons_of_mem _ ha))
        (hstep b a c List.mem_cons_self hb hc) hl

end Loop

/-! ## Errors that do not occur -/

section Avoids

variable {E α β : Type} {bad : List E}

/-- The program does not stop with one of the errors `bad`. -/
def Avoids (bad : List E) (x : Except E α) : Prop := ∀ e, x = .error e → e ∉ bad

theorem Avoids.ok (a : α) : Avoids bad (.ok a) := fun _ h => nomatch h

theorem Avoids.error {e : E} (h : e ∉ bad) : Avoids bad (.error e : Except E α) := by
  intro e' he
  cases he
  exact h

theorem Avoids.bind {x : Except E α} {f : α → Except E β} (hx : Avoids bad x)
    (hf : ∀ a, x = .ok a → Avoids bad (f a)) : Avoids bad (x >>= f) := by
  intro e he
  rcases bind_error he with h | ⟨a, ha, h⟩
  · exact hx e h
  · exact hf a ha e h

theorem Avoids.mono {bad' : List E} {x : Except E α} (hsub : ∀ e ∈ bad', e ∈ bad)
    (h : Avoids bad x) : Avoids bad' x :=
  fun e he hm => h e he (hsub e hm)

/-- A loop avoids what its turns avoid, as long as they keep `I`. -/
theorem Avoids.foldlM {f : β → α → Except E β} (I : β → Prop) {l : List α}
    (hf : ∀ b a, a ∈ l → I b → Avoids bad (f b a))
    (hI : ∀ b a b', a ∈ l → I b → f b a = .ok b' → I b') :
    ∀ {b : β}, I b → Avoids bad (l.foldlM f b) := by
  induction l with
  | nil => intro b _; exact Avoids.ok b
  | cons a l ih =>
      intro b hb
      rw [List.foldlM_cons]
      refine (hf b a List.mem_cons_self hb).bind fun b' hb' => ?_
      exact ih (fun b a ha => hf b a (List.mem_cons_of_mem _ ha))
        (fun b a b' ha => hI b a b' (List.mem_cons_of_mem _ ha))
        (hI b a b' List.mem_cons_self hb hb')

end Avoids

/-! ## Reached states -/

section Reach

variable {E S A : Type} {step : S → A → Except E S} {G H : S → A → Prop} {s₀ s s' : S}

/-- The states that runs from `s₀`, all of whose steps meet `G`, reach. -/
def Reach (step : S → A → Except E S) (G : S → A → Prop) : S → S → Prop :=
  Relation.ReflTransGen (fun s s' => ∃ a, G s a ∧ step s a = .ok s')

theorem Reach.refl : Reach step G s₀ s₀ := Relation.ReflTransGen.refl

theorem Reach.tail (h : Reach step G s₀ s) (a : A) (hg : G s a) (ha : step s a = .ok s') :
    Reach step G s₀ s' :=
  Relation.ReflTransGen.tail h ⟨a, hg, ha⟩

theorem Reach.trans (h : Reach step G s₀ s) (h' : Reach step G s s') : Reach step G s₀ s' :=
  Relation.ReflTransGen.trans h h'

/-- The invariant rule: what holds at the start and is kept by every guarded
step holds of every reached state. -/
theorem Reach.inv (I : S → Prop) (h : Reach step G s₀ s) (h0 : I s₀)
    (hstep : ∀ s a s', I s → G s a → step s a = .ok s' → I s') : I s := by
  induction h with
  | refl => exact h0
  | tail _ hs ih =>
      obtain ⟨a, hg, ha⟩ := hs
      exact hstep _ a _ ih hg ha

/-- Forward simulation: where every guarded step is matched by a run of another
program, from related states to related states, so is every run. -/
theorem Reach.simulated {E' S' A' : Type} {step' : S' → A' → Except E' S'} {G' : S' → A' → Prop}
    {t₀ : S'} (R : S → S' → Prop) (h : Reach step G s₀ s) (h0 : R s₀ t₀)
    (hstep : ∀ s a s' t, R s t → G s a → step s a = .ok s' → ∃ t', R s' t' ∧ Reach step' G' t t') :
    ∃ t, R s t ∧ Reach step' G' t₀ t := by
  refine h.inv (fun s => ∃ t, R s t ∧ Reach step' G' t₀ t) ⟨t₀, h0, .refl⟩ ?_
  rintro s a s' ⟨t, hR, ht⟩ hg ha
  obtain ⟨t', hR', ht'⟩ := hstep s a s' t hR hg ha
  exact ⟨t', hR', ht.trans ht'⟩

/-- The state one schedule leads to. -/
def runSteps (step : S → A → Except E S) (s : S) (as : List A) : Except E S :=
  as.foldlM step s

/-- Every action of the schedule meets `G` in the state it is taken in. -/
def Allowed (step : S → A → Except E S) (G : S → A → Prop) : S → List A → Prop
  | _, [] => True
  | s, a :: as => G s a ∧
      match step s a with
      | .ok s' => Allowed step G s' as
      | .error _ => True

instance decidableAllowed [∀ s a, Decidable (G s a)] :
    ∀ (as : List A) (s : S), Decidable (Allowed step G s as)
  | [], _ => inferInstanceAs (Decidable True)
  | a :: as, s =>
      have : Decidable (match step s a with
          | .ok s' => Allowed step G s' as
          | .error _ => True) :=
        match step s a with
        | .ok s' => decidableAllowed as s'
        | .error _ => inferInstanceAs (Decidable True)
      inferInstanceAs (Decidable (_ ∧ _))

theorem runSteps_cons_ok {a : A} {as : List A} (h : runSteps step s (a :: as) = .ok s') :
    ∃ t, step s a = .ok t ∧ runSteps step t as = .ok s' := by
  rw [runSteps, List.foldlM_cons] at h
  exact bind_ok h

/-- What every step keeps holds where the schedule ends. -/
theorem runSteps_inv (I : S → Prop) (hstep : ∀ s a t, I s → step s a = .ok t → I t)
    {as : List A} (hs : I s) (h : runSteps step s as = .ok s') : I s' :=
  foldlM_inv I (fun s a t _ => hstep s a t) hs h

theorem runSteps_reach : ∀ {as : List A} {s s' : S}, Allowed step G s as →
    runSteps step s as = .ok s' → Reach step G s s'
  | [], _, _, _, h => by cases h; exact .refl
  | a :: as, s, s', hg, h => by
      obtain ⟨t, ht, has⟩ := runSteps_cons_ok h
      have hgt : Allowed step G t as := by
        have := hg.2
        rw [ht] at this
        exact this
      exact (Reach.refl.tail a hg.1 ht).trans (runSteps_reach hgt has)

/-- Where a schedule ends; the start again if it stops on the way. -/
def endOf (step : S → A → Except E S) (s : S) (as : List A) : S :=
  match runSteps step s as with
  | .ok s' => s'
  | .error _ => s

theorem runSteps_endOf {as : List A} (hok : (runSteps step s as).isOk = true) :
    runSteps step s as = .ok (endOf step s as) := by
  unfold endOf
  cases h : runSteps step s as with
  | ok s' => rfl
  | error e => rw [h] at hok; exact nomatch hok

theorem endOf_reach {as : List A} (hg : Allowed step G s as)
    (hok : (runSteps step s as).isOk = true) : Reach step G s (endOf step s as) :=
  runSteps_reach hg (runSteps_endOf hok)

/-- What a computation stopped with. -/
def stopped {E α : Type} : Except E α → Option E
  | .ok _ => none
  | .error e => some e

theorem eq_error_of_stopped {E α : Type} {x : Except E α} {e : E} (h : stopped x = some e) :
    x = .error e := by
  cases x with
  | ok a => exact nomatch h
  | error e' => cases h; rfl

theorem allowed_true {as : List A} : ∀ {s : S}, Allowed step (fun _ _ => True) s as := by
  induction as with
  | nil => exact trivial
  | cons a as ih =>
      intro s
      refine ⟨trivial, ?_⟩
      cases step s a with
      | ok t => exact ih
      | error e => trivial

/-- The backward rule: where the end of a run shows of each of its steps from a
state of the invariant that the step meets `H`, all steps of the run meet it. -/
theorem allowed_of_end (I : S → Prop)
    (hkeep : ∀ s a t, I s → H s a → step s a = .ok t → I t)
    (hneed : ∀ s a t as, I s → step s a = .ok t → runSteps step t as = .ok s' → H s a)
    {as : List A} : ∀ {s : S}, I s → runSteps step s as = .ok s' → Allowed step H s as := by
  induction as with
  | nil => exact fun _ _ => trivial
  | cons a as ih =>
      intro s hI hrun
      obtain ⟨t, ht, hrun⟩ := runSteps_cons_ok hrun
      have hH := hneed s a t as hI ht hrun
      refine ⟨hH, ?_⟩
      rw [ht]
      exact ih (hkeep s a t hI hH ht) hrun

/-- Where a step from a good state leads to a good one just when it meets `H`, the
states of a run are good throughout just when all its steps meet `H`. -/
theorem allowed_iff (I P : S → Prop) (hIP : ∀ s, I s → P s)
    (hkeep : ∀ s a s', I s → G s a → H s a → step s a = .ok s' → I s')
    (hneed : ∀ s a s', I s → G s a → P s' → step s a = .ok s' → H s a) {as : List A} :
    ∀ {s s' : S}, I s → Allowed step G s as → runSteps step s as = .ok s' →
      ((Allowed step (fun s _ => P s) s as ∧ P s') ↔ Allowed step H s as) := by
  induction as with
  | nil =>
      intro s s' hI _ hrun
      cases hrun
      exact ⟨fun _ => trivial, fun _ => ⟨trivial, hIP s hI⟩⟩
  | cons a as ih =>
      intro s s' hI hG hrun
      obtain ⟨t, ht, hrun⟩ := runSteps_cons_ok hrun
      simp only [Allowed, ht] at hG ⊢
      constructor
      · rintro ⟨⟨-, hal⟩, hend⟩
        have hPt : P t := by
          -- the state after the step is one of the run, or its end
          cases as with
          | nil => cases hrun; exact hend
          | cons b bs => exact hal.1
        have hH := hneed s a t hI hG.1 hPt ht
        exact ⟨hH, (ih (hkeep s a t hI hG.1 hH ht) hG.2 hrun).mp ⟨hal, hend⟩⟩
      · rintro ⟨hH, hal⟩
        obtain ⟨hall, hend⟩ := (ih (hkeep s a t hI hG.1 hH ht) hG.2 hrun).mpr hal
        exact ⟨⟨hIP s hI, hall⟩, hend⟩

/-- The measure rule: where every state that is not done has a step of the kind `P`
that lowers `μ`, or stops for a reason in `Q`, some run of such steps is done or
stops so, after at most `μ` steps. -/
theorem exists_run {P : A → Prop} {Q : E → Prop} (I Done : S → Prop) (μ : S → Nat)
    (hgo : ∀ s, I s → ¬ Done s → ∃ a, P a ∧ 0 < μ s ∧
      ((∃ s', step s a = .ok s' ∧ I s' ∧ μ s' < μ s) ∨ ∃ e, step s a = .error e ∧ Q e))
    {n : Nat} : ∀ {s : S}, I s → μ s ≤ n → ∃ as : List A, as.length ≤ n ∧ (∀ a ∈ as, P a) ∧
      ((∃ s', runSteps step s as = .ok s' ∧ I s' ∧ Done s') ∨
        ∃ e, runSteps step s as = .error e ∧ Q e) := by
  induction n with
  | zero =>
      intro s hI hn
      refine ⟨[], Nat.le_refl _, fun a ha => absurd ha List.not_mem_nil, Or.inl ⟨s, rfl, hI, ?_⟩⟩
      by_contra hd
      obtain ⟨a, -, hpos, -⟩ := hgo s hI hd
      omega
  | succ n ih =>
      intro s hI hn
      by_cases hd : Done s
      · exact ⟨[], Nat.zero_le _, fun a ha => absurd ha List.not_mem_nil,
          Or.inl ⟨s, rfl, hI, hd⟩⟩
      obtain ⟨a, ha, -, ⟨s', hs', hI', hlt⟩ | ⟨e, he, hQ⟩⟩ := hgo s hI hd
      · obtain ⟨as, hlen, has, hrun⟩ := ih hI' (by omega)
        refine ⟨a :: as, Nat.succ_le_succ hlen, List.forall_mem_cons.mpr ⟨ha, has⟩, ?_⟩
        rw [runSteps, List.foldlM_cons, hs']
        exact hrun
      · refine ⟨[a], by simp, List.forall_mem_cons.mpr ⟨ha, by simp⟩, Or.inr ⟨e, ?_, hQ⟩⟩
        rw [runSteps, List.foldlM_cons, he]
        rfl

/-- A schedule that goes on as allowed from where it ended. -/
theorem allowed_append {as bs : List A} : ∀ {s : S}, Allowed step G s as →
    (∀ t, runSteps step s as = .ok t → Allowed step G t bs) → Allowed step G s (as ++ bs) := by
  induction as with
  | nil => exact fun _ h => h _ rfl
  | cons a as ih =>
      intro s hg h
      refine ⟨hg.1, ?_⟩
      have hrest := hg.2
      cases hs : step s a with
      | error e => trivial
      | ok t =>
          rw [hs] at hrest
          refine ih hrest fun t' ht' => h t' ?_
          rw [runSteps, List.foldlM_cons, hs]
          exact ht'

theorem runSteps_append {as bs : List A} {s : S} :
    runSteps step s (as ++ bs) = runSteps step s as >>= fun t => runSteps step t bs := by
  simp [runSteps]

end Reach

end EDRStore
