/-
# `EDRStore.SessionEnds` — the lock of a client id is given back

A connection that waits in `LockClientID` waits for one that is in the section,
and that one needs nobody else: with a client that takes what it is sent and then
closes the connection, its own threads bring it to `UnlockClientID`, in a number of
steps that `toGo` bounds (`lock_given_back`), however few elements a queue takes:
whoever pushes on this way finds its queue empty.  What can go wrong ends the whole
server: a login of neither type, or a thread that exits.

For an upload `work` counts what is still to be done, so that every step of one of
the four threads lowers it:

    recvPending      15      recv_2_dual_mq_    14 a chunk
    dualPending      13      dual_2_comp_mq_    12 a chunk
    the writer    ≤  11      comp_2_writer_mq_  11 a chunk

and one more for each flag that is not set yet; for a download see `Download.work`.
-/
import EDRStore.SessionLocks

namespace EDRStore

/-- The steps that the writer has still to take for the chunk in hand, and to end. -/
def WriterPc.toGo : WriterPc → Nat
  | .ended => 0
  | .pop => 1
  | .publish _ => 2
  | .cacheDelta _ => 3
  | .features _ todo => todo.length + 3
  | .plain _ => 7
  | .delta _ _ => 3
  | .avoid _ _ => 4
  | .read _ _ => 5
  | .fetch _ => 6
  | .find _ _ todo => todo.length + 8

/-- A chunk that is pending, of weight `n`. -/
def pending (n : Nat) : Option WrappedChunk → Nat
  | none => 0
  | some _ => n

namespace ClientVar

def work (t : ClientVar) : Nat :=
  pending 15 t.recvPending + unset t.recv2DualMq.done +
    14 * t.recv2DualMq.items.length + pending 13 t.dualPending +
    unset t.dual2CompMq.done + 12 * t.dual2CompMq.items.length +
    unset t.comp2WriterMq.done + 11 * t.comp2WriterMq.items.length + t.writer.toGo

variable {cfg : Components} {srv srv' : Server} {t t' : ClientVar} {evs : List Event}

@[simp] theorem length_push (q : MessageQueue) (c : WrappedChunk) :
    (q.push [c]).items.length = q.items.length + 1 := List.length_append

@[simp] theorem done_push (q : MessageQueue) (cs : List WrappedChunk) :
    (q.push cs).done = q.done := rfl

theorem length_features (fs : Features) : fs.toList.length = 3 := rfl

theorem recvInsert_work (h : Stepped cfg srv t .recvInsert srv' t' evs) : t'.work < t.work := by
  cases h with
  | recvInsert hp =>
      simp only [work, hp, pending, length_push, done_push]
      omega

theorem recvEnd_work (h : Stepped cfg srv t .recvEnd srv' t' evs) : t'.work < t.work := by
  cases h with
  | recvEnd hp hd =>
      simp only [work, hd, unset]
      omega

/-- A step of the dedup thread, where it has not set its flag again. -/
theorem dual_work (h : Stepped cfg srv t .dual srv' t' evs)
    (hn : t.dual2CompMq.done = false ∨ t.dualPending ≠ none ∨ t.recv2DualMq.items ≠ []) :
    t'.work < t.work := by
  cases h with
  | dualInsert hp =>
      simp only [work, hp, pending, length_push, done_push]
      omega
  | dualPass hp hq hs =>
      simp only [work, hq, length_push, done_push, List.length_cons]
      omega
  | dualKnown hp hq hs hm =>
      simp only [work, hq, List.length_cons]
      omega
  | dualUnique hp hq hs hm =>
      simp only [work, hp, hq, pending, List.length_cons]
      omega
  | dualEnd hp hq hd =>
      have hd' : t.dual2CompMq.done = false := by
        rcases hn with hn | hn | hn
        · exact hn
        · exact absurd hp hn
        · exact absurd hq hn
      simp only [work, hd', unset]
      omega

theorem comp_work (h : Stepped cfg srv t .comp srv' t' evs)
    (hn : t.comp2WriterMq.done = false ∨ t.dual2CompMq.items ≠ []) : t'.work < t.work := by
  cases h with
  | compNew hq hs =>
      simp only [work, hq, length_push, done_push, List.length_cons]
      omega
  | compDelta hq hs hf hb hd he =>
      simp only [work, hq, length_push, done_push, List.length_cons]
      omega
  | compPlain hq hs h0 =>
      simp only [work, hq, length_push, done_push, List.length_cons]
      omega
  | compInsert hq hs =>
      simp only [work, hq, List.length_cons]
      omega
  | compEvict hq hs he =>
      simp only [work, hq, List.length_cons]
      omega
  | compEnd hq hd =>
      have hd' : t.comp2WriterMq.done = false := hn.resolve_right fun hne => hne hq
      simp only [work, hd', unset]
      omega

/-- A step of the writer. -/
theorem write_work (h : Stepped cfg srv t .write srv' t' evs) : t'.work < t.work := by
  cases h with
  | popDelta hw hq hs =>
      simp only [work, hw, hq, List.length_cons, WriterPc.toGo]
      omega
  | popUnique hw hq hs =>
      simp only [work, hw, hq, List.length_cons, WriterPc.toGo, length_features]
      omega
  | find hw =>
      simp only [work, hw, List.length_cons, WriterPc.toGo]
      omega
  | similar hw hs =>
      simp only [work, hw, List.length_nil, WriterPc.toGo]
      omega
  | nonSimilar hw hs =>
      simp only [work, hw, List.length_nil, WriterPc.toGo]
      omega
  | fetch hw hl =>
      simp only [work, hw, WriterPc.toGo]
      omega
  | @read c baseAddr base cur hw hr =>
      have hgo : (if base.2 = 0 then WriterPc.avoid c base else .delta c base).toGo < 5 := by
        split <;> simp [WriterPc.toGo]
      simp only [work, hw, WriterPc.toGo] at hgo ⊢
      omega
  | @store c data mark next hs =>
      have hgo : (t.store cfg srv c data mark next).2.1.writer.toGo < t.writer.toGo := by
        generalize hw : t.writer = pc at hs
        cases hs with
        | avoid c base => simp [store, WriterPc.toGo]
        | delta c base he => simp [store, WriterPc.toGo]
        | plain c =>
            simp only [store, WriterPc.toGo, length_features]
            omega
        | cacheDelta c => simp [store, WriterPc.toGo]
      simp only [work, store] at hgo ⊢
      omega
  | feature hw =>
      simp only [work, hw, List.length_cons, WriterPc.toGo]
      omega
  | featuresEnd hw =>
      simp only [work, hw, List.length_nil, WriterPc.toGo]
      omega
  | publish hw =>
      simp only [work, hw, WriterPc.toGo]
      omega
  | writeEnd hw hq hd =>
      simp only [work, hw, WriterPc.toGo]
      omega

/-! ### Some thread goes on -/

/-- A thread waits in none of its computations. -/
theorem exits_bind_ne {α β : Type} {x : Except Exit α} {f : α → β} :
    (exits x >>= fun r => (.ok (f r) : Except Stop β)) ≠ .error .disabled := by
  cases x with
  | ok a => rintro ⟨⟩
  | error e => rintro ⟨⟩

theorem ok_or_exit {α : Type} {x : Except Stop α} (h : x ≠ .error .disabled) :
    (∃ a, x = .ok a) ∨ ∃ e, x = .error (.exit e) := by
  cases x with
  | ok a => exact Or.inl ⟨a, rfl⟩
  | error e =>
      cases e with
      | exit e => exact Or.inr ⟨e, rfl⟩
      | disabled => exact absurd rfl h

/-- Before the end: a pending chunk, an element, or the flag of the thread before. -/
theorem dual_enabled (h : t.dualPending ≠ none ∨ t.recv2DualMq.items ≠ [] ∨
    (t.recv2DualMq.done = true ∧ t.dual2CompMq.done = false)) :
    t.step cfg srv .dual ≠ .error .disabled := by
  show dualStep cfg srv t ≠ _
  unfold dualStep
  split
  · rintro ⟨⟩
  · rename_i hp
    split
    · rename_i hq
      have hd := (h.resolve_left fun hn => hn hp).resolve_left fun hn => hn hq
      rw [if_pos hd]
      rintro ⟨⟩
    · split
      · split <;> rintro ⟨⟩
      · exact exits_bind_ne

theorem comp_enabled (h : t.dual2CompMq.items ≠ [] ∨
    (t.dual2CompMq.done = true ∧ t.comp2WriterMq.done = false)) :
    t.step cfg srv .comp ≠ .error .disabled := by
  show compStep cfg srv t ≠ _
  unfold compStep
  split
  · rename_i hq
    rw [if_pos (h.resolve_left fun hn => hn hq)]
    rintro ⟨⟩
  · exact exits_bind_ne

theorem write_enabled (h : t.writer ≠ .ended) (hd : t.writer ≠ .pop ∨
    t.comp2WriterMq.items ≠ [] ∨ t.comp2WriterMq.done = true) :
    t.step cfg srv .write ≠ .error .disabled := by
  show writeStep cfg srv t ≠ _
  unfold writeStep
  split
  · rename_i hw
    split
    · rename_i hq
      rw [if_pos ((hd.resolve_left fun hn => hn hw).resolve_left fun hn => hn hq)]
      rintro ⟨⟩
    · split <;> rintro ⟨⟩
  · rintro ⟨⟩
  · simp only
    split <;> rintro ⟨⟩
  · split <;> rintro ⟨⟩
  · rintro ⟨⟩
  · rintro ⟨⟩
  · exact exits_bind_ne
  · rintro ⟨⟩
  · rintro ⟨⟩
  · rintro ⟨⟩
  · rintro ⟨⟩
  · rintro ⟨⟩
  · rename_i hw
    exact absurd hw h

end ClientVar

namespace ServerOptThd

/-- Until the threads of an upload have ended, one of them can go on, if the client
has closed its connection or closes it now. -/
theorem thread_goes (cfg : Components) (config : ServerConfig) (srv : Server) {t : ClientVar}
    (hwf : t.Wf) (h : ¬ ThreadsEnded t) :
    ∃ x, sends x = false ∧ Pushed config t x ∧
      ((∃ r, t.step cfg srv x = .ok r ∧ r.2.1.work < t.work) ∨
        ∃ e, t.step cfg srv x = .error (.exit e)) := by
  have hgo : ∀ {x}, sends x = false → Pushed config t x → t.step cfg srv x ≠ .error .disabled →
      (∀ {srv' t' evs}, ClientVar.Stepped cfg srv t x srv' t' evs → t'.work < t.work) →
      ∃ x, sends x = false ∧ Pushed config t x ∧
        ((∃ r, t.step cfg srv x = .ok r ∧ r.2.1.work < t.work) ∨
          ∃ e, t.step cfg srv x = .error (.exit e)) := by
    intro x hx hp hne hlt
    rcases ClientVar.ok_or_exit hne with ⟨r, hr⟩ | he
    · exact ⟨x, hx, hp, Or.inl ⟨r, hr, hlt (ClientVar.step_stepped hr)⟩⟩
    · exact ⟨x, hx, hp, Or.inr he⟩
  -- the writer first, then each thread once the one behind it waits for it
  by_cases hwrite : t.writer ≠ .ended ∧ (t.writer ≠ .pop ∨ t.comp2WriterMq.items ≠ [] ∨
      t.comp2WriterMq.done = true)
  · exact hgo (x := .write) rfl trivial (ClientVar.write_enabled hwrite.1 hwrite.2)
      ClientVar.write_work
  have hne : t.writer ≠ .ended := by
    intro hw
    obtain ⟨hdone, -⟩ := hwf.writeEnded hw
    obtain ⟨hdone', -⟩ := hwf.compEnded hdone
    exact h ⟨(hwf.dualEnded hdone').1, hdone', hdone, hw⟩
  simp only [not_and, not_or, not_not, Bool.not_eq_true] at hwrite
  obtain ⟨-, hq, hd⟩ := hwrite hne
  by_cases hcomp : t.dual2CompMq.items ≠ [] ∨ t.dual2CompMq.done = true
  · refine hgo (x := .comp) rfl ?_ (ClientVar.comp_enabled ?_)
      fun hs => ClientVar.comp_work hs (Or.inl hd)
    · rw [Pushed, hq]
      exact Nat.zero_le _
    · exact hcomp.imp id fun hdone => ⟨hdone, hd⟩
  simp only [not_or, not_not, Bool.not_eq_true] at hcomp
  obtain ⟨hq, hd⟩ := hcomp
  by_cases hdual : t.dualPending ≠ none ∨ t.recv2DualMq.items ≠ [] ∨ t.recv2DualMq.done = true
  · refine hgo (x := .dual) rfl ?_ (ClientVar.dual_enabled ?_)
      fun hs => ClientVar.dual_work hs (Or.inl hd)
    · rw [Pushed, hq]
      exact Nat.zero_le _
    · exact hdual.imp id fun hn => hn.imp id fun hdone => ⟨hdone, hd⟩
  simp only [not_or, not_not, Bool.not_eq_true] at hdual
  obtain ⟨-, hq, hd⟩ := hdual
  have hroom : t.recv2DualMq.items.length ≤ config.chunkQueueSize := by
    rw [hq]
    exact Nat.zero_le _
  cases hp : t.recvPending with
  | some c =>
      refine hgo (x := .recvInsert) rfl hroom ?_ ClientVar.recvInsert_work
      simp only [ClientVar.step, hp]
      rintro ⟨⟩
  | none =>
      refine hgo (x := .recvEnd) rfl hroom ?_ ClientVar.recvEnd_work
      simp only [ClientVar.step, hp, hd, and_self, if_true]
      rintro ⟨⟩

/-! ## One connection on its own -/

/-- The bytes of the recipe that the connection names. -/
def recipeLength (w : ServerOptThd) (l : Login) : Nat :=
  ((w.recipes.lookup l.fileNameHash).getD []).length

/-- The steps a connection has still to take in the section of its client id. -/
def stepsLeft (w : ServerOptThd) (s : SessId) : RunPc → Nat
  | .check l => 2 * w.recipeLength l + 10
  | .rejected _ => 3
  | .opening l _ => 2 * w.recipeLength l + 9
  | .upload _ _ => ((w.clients.lookup s).map ClientVar.work).getD 0 + 3
  | .download l d => d.work (w.recipeLength l) + 3
  | .findUnlock _ => 2
  | .unlock _ _ => 1
  | _ => 0

def toGo (w : ServerOptThd) (s : SessId) : Nat :=
  ((w.runs.lookup s).map (w.stepsLeft s)).getD 0

/-- Why the server may exit on the way. -/
def OnTheWay : RunStop → Prop
  | .loginType => True
  | .thread _ => True
  | _ => False

variable {cfg : Components} {config : ServerConfig} {w w' : ServerOptThd} {a : Action} {s : SessId}

/-- Recipes are never removed, so that a download finds the one it has looked for. -/
def RecipesFound (w : ServerOptThd) : Prop :=
  ∀ s l, w.runs.lookup s = some (.opening l .downloadOpt) → l.fileNameHash ∈ w.recipes

theorem Stepped.recipes (h : Stepped cfg config w a w') {name : Bytes} (hn : name ∈ w.recipes) :
    name ∈ w'.recipes := by
  cases h with
  | openUpload hs => exact Finmap.mem_insert.mpr (Or.inr hn)
  | flush hs => exact Finmap.mem_insert.mpr (Or.inr hn)
  | joinUpload hs ht he hc hi => exact Finmap.mem_insert.mpr (Or.inr hn)
  | _ => exact hn

theorem recipesFound_step (hf : w.RecipesFound) (h : Stepped cfg config w a w') :
    w'.RecipesFound := by
  intro s l hl
  by_cases hold : w.runs.lookup s = some (.opening l .downloadOpt)
  · exact h.recipes (hf s l hold)
  · have hs : s = a.sess := by
      by_contra hne
      exact hold ((h.others hne).1.symm.trans hl)
    subst hs
    have hother : ∀ {p q : RunPc}, (w.runs.insert a.sess p).lookup a.sess = some q → q = p :=
      fun hq => (Option.some.inj ((Finmap.lookup_insert _).symm.trans hq)).symm
    cases h with
    | accepts hs ho hfile =>
        cases hother hl
        exact of_decide_eq_true hfile
    | thread hs ht hq hpush hstep => exact absurd hl hold
    | flush hs => exact absurd hl hold
    | _ => cases hother hl

/-- Every session of an upload is well formed. -/
def ClientsWf (w : ServerOptThd) : Prop := (w.service fun _ => false).Wf

theorem clientsWf_step (hwf : w.ClientsWf) (h : Stepped cfg config w a w') : w'.ClientsWf := by
  cases h with
  | openUpload hs => exact Service.Wf.insert hwf (Service.wf_openClient _ _) rfl
  | thread hs ht hq hpush hstep =>
      exact Service.Wf.insert hwf
        (ClientVar.wf_step (hwf _ _ ht) (ClientVar.step_stepped hstep)) rfl
  | @joinUpload s l head t cntOrder idxOrder hs ht he hc hi =>
      have hdel : ClientVar.Wf { t with deleted := true } := { hwf s t ht with }
      exact Service.Wf.insert hwf hdel rfl
  | _ => exact hwf

/-- The connection is in the section of the client id. -/
def InSection (w : ServerOptThd) (s : SessId) (c : ClientId) : Prop :=
  (w.lockPcs s).key? = some c

theorem inSection_of_lookup {p : RunPc} {c : ClientId} (hs : w.runs.lookup s = some p)
    (hp : p.lockPc.key? = some c) : w.InSection s c := by
  rw [InSection, lockPcs_of_lookup hs]
  exact hp

/-- The server takes this step by itself, whatever else the client sends. -/
def Action.own : Action → Bool
  | .accept _ => false
  | .login _ _ => false
  | .recipeEnd _ _ => false
  | .flush _ _ => false
  | .thread _ a => !sends a
  | _ => true

/-- A step of the connection `s` itself. -/
def OwnStep (s : SessId) (a : Action) : Prop := a.sess = s ∧ a.own = true

/-- A step of `s` that brings it nearer to the end of the section. -/
def Nearer (cfg : Components) (config : ServerConfig) (w : ServerOptThd) (s : SessId) (c : ClientId)
    (a : Action) : Prop :=
  (∃ w', w.step cfg config a = .ok w' ∧ w'.toGo s < w.toGo s ∧
    (w'.InSection s c ∨ w'.runs.lookup s = some .returned)) ∨
  ∃ e, w.step cfg config a = .error e ∧ OnTheWay e

theorem toGo_of_lookup {p : RunPc} (hs : w.runs.lookup s = some p) :
    w.toGo s = w.stepsLeft s p := by
  rw [toGo, hs]
  rfl

theorem nearer_upload (hk : w.Locked) (hwf : w.ClientsWf) {l : Login}
    {head : Option FileRecipeHead}
    (hs : w.runs.lookup s = some (.upload l head)) :
    ∃ a, OwnStep s a ∧ Nearer cfg config w s l.clientId a := by
  obtain ⟨t, ht, -, -⟩ := hk.upload hs
  have hgo : w.toGo s = t.work + 3 := by rw [toGo_of_lookup hs, stepsLeft, ht]; rfl
  by_cases hend : ThreadsEnded t
  · -- the maps are written out in some order
    obtain ⟨cntOrder, hc⟩ := Index.exists_lists t.informCache.deleteEvictChunk.base2CntIdx
    obtain ⟨idxOrder, hi⟩ := Index.exists_lists t.informCache.deleteEvictChunk.localFeature2FpDb
    have hnew : (w.closeUpload config s l head t cntOrder idxOrder).runs.lookup s =
        some (.findUnlock l) := Finmap.lookup_insert _
    refine ⟨.join s cntOrder idxOrder, ⟨rfl, rfl⟩,
      Or.inl ⟨w.closeUpload config s l head t cntOrder idxOrder, ?_, ?_, Or.inl ?_⟩⟩
    · simp only [step, hs, ht]
      exact if_pos ⟨hend, hc, hi⟩
    · rw [hgo, toGo_of_lookup hnew, stepsLeft]
      omega
    · exact inSection_of_lookup hnew rfl
  · obtain ⟨x, hx, hpush, hgo'⟩ := thread_goes cfg config w.srv (hwf s t ht) hend
    have hown : OwnStep s (.thread s x) := ⟨rfl, by rw [Action.own, hx]; rfl⟩
    have hcan : ¬ ((sends x = true ∧ head ≠ none) ∨ ¬ Pushed config t x) := by
      rintro (⟨hsend, -⟩ | hn)
      · rw [hx] at hsend
        cases hsend
      · exact hn hpush
    rcases hgo' with ⟨r, hr, hlt⟩ | ⟨e, he⟩
    · have hstep : w.step cfg config (.thread s x) = .ok { w with
          srv := r.1
          clients := w.clients.insert s r.2.1
          trace := w.trace ++ r.2.2.map (s, ·) } := by
        simp only [step, hs, ht, if_neg hcan, hr]
      refine ⟨.thread s x, hown, Or.inl ⟨_, hstep, ?_, Or.inl (inSection_of_lookup hs rfl)⟩⟩
      rw [hgo, toGo_of_lookup (w := { w with
        srv := r.1
        clients := w.clients.insert s r.2.1
        trace := w.trace ++ r.2.2.map (s, ·) }) hs]
      show ((Finmap.lookup s (w.clients.insert s r.2.1)).map ClientVar.work).getD 0 + 3 < _
      rw [Finmap.lookup_insert]
      exact Nat.add_lt_add_right hlt 3
    · refine ⟨.thread s x, hown, Or.inr ⟨.thread e, ?_, trivial⟩⟩
      simp only [step, hs, ht, if_neg hcan, he]
      rfl

theorem nearer_download {l : Login} {d : Download}
    (hs : w.runs.lookup s = some (.download l d)) :
    ∃ a, OwnStep s a ∧ Nearer cfg config w s l.clientId a := by
  by_cases hend : d.Ended
  · obtain ⟨cntOrder, hc⟩ := Index.exists_lists d.informCache.deleteEvictChunk.base2CntIdx
    obtain ⟨idxOrder, hi⟩ := Index.exists_lists d.informCache.deleteEvictChunk.localFeature2FpDb
    have hnew : (w.closeDownload s l d cntOrder idxOrder).runs.lookup s =
        some (.findUnlock l) := Finmap.lookup_insert _
    refine ⟨.join s cntOrder idxOrder, ⟨rfl, rfl⟩,
      Or.inl ⟨w.closeDownload s l d cntOrder idxOrder, ?_, ?_, Or.inl ?_⟩⟩
    · simp only [step, hs]
      exact if_pos ⟨hend, hc, hi⟩
    · rw [toGo_of_lookup hnew, toGo_of_lookup hs, stepsLeft, stepsLeft]
      omega
    · exact inSection_of_lookup hnew rfl
  · obtain ⟨x, ⟨d', hd'⟩ | ⟨e, he⟩⟩ := Download.goes cfg config l.clientId w.srv
      ((w.recipes.lookup l.fileNameHash).getD []) hend
    · have hstep : w.step cfg config (.download s x) = .ok { w with
          runs := w.runs.insert s (.download l d') } := by
        simp only [step, hs, hd']
      refine ⟨.download s x, ⟨rfl, rfl⟩, Or.inl ⟨_, hstep, ?_, Or.inl ?_⟩⟩
      · rw [toGo_of_lookup (Finmap.lookup_insert _), toGo_of_lookup hs]
        exact Nat.add_lt_add_right (Download.step_stepped hd').work 3
      · exact inSection_of_lookup (Finmap.lookup_insert _) rfl
    · refine ⟨.download s x, ⟨rfl, rfl⟩, Or.inr ⟨.thread e, ?_, trivial⟩⟩
      simp only [step, hs, he]

theorem nearer_opening (hf : w.RecipesFound) {l : Login} {opt : OptType}
    (hs : w.runs.lookup s = some (.opening l opt)) :
    ∃ a, OwnStep s a ∧ Nearer cfg config w s l.clientId a := by
  refine ⟨.opened s, ⟨rfl, rfl⟩, ?_⟩
  cases opt with
  | uploadOpt =>
      refine Or.inl ⟨_, by simp only [step, hs]; rfl, ?_, Or.inl ?_⟩
      · rw [toGo_of_lookup (Finmap.lookup_insert _), toGo_of_lookup hs, stepsLeft, stepsLeft,
          Finmap.lookup_insert]
        -- a new session: four flags and nothing else
        show 4 + 3 < _
        omega
      · exact inSection_of_lookup (Finmap.lookup_insert _) rfl
  | downloadOpt =>
      refine Or.inl ⟨_, by simp only [step, hs, openSession]; exact if_pos (hf s l hs), ?_,
        Or.inl ?_⟩
      · rw [toGo_of_lookup (Finmap.lookup_insert _), toGo_of_lookup hs, stepsLeft, stepsLeft]
        -- nothing is read but the head, and no flag is set
        show 2 * (w.recipeLength l - fileRecipeHeadSize) + 1 + 2 * 0 + 1 + 0 + 1 + 3 < _
        omega
      · exact inSection_of_lookup (Finmap.lookup_insert _) rfl

theorem nearer_check {l : Login} (hs : w.runs.lookup s = some (.check l)) :
    ∃ a, OwnStep s a ∧ Nearer cfg config w s l.clientId a := by
  refine ⟨.check s, ⟨rfl, rfl⟩, ?_⟩
  cases ho : l.optType with
  | none => exact Or.inr ⟨.loginType, by simp only [step, hs, ho], trivial⟩
  | some opt =>
      refine Or.inl ⟨_, by simp only [step, hs, ho]; rfl, ?_, Or.inl ?_⟩
      · rw [toGo_of_lookup (Finmap.lookup_insert _), toGo_of_lookup hs, stepsLeft]
        split
        · show 2 * w.recipeLength l + 9 < _
          omega
        · show 3 < _
          omega
      · refine inSection_of_lookup (Finmap.lookup_insert _) ?_
        split <;> rfl

variable (cfg config) in
/-- In the section a connection can always go on by itself. -/
theorem nearer (hk : w.Locked) (hf : w.RecipesFound) (hwf : w.ClientsWf) {c : ClientId}
    (hc : w.InSection s c) :
    ∃ a, OwnStep s a ∧ Nearer cfg config w s c a := by
  cases hs : w.runs.lookup s with
  | none =>
      rw [InSection, lockPcs, hs] at hc
      cases hc
  | some p =>
  rw [InSection, lockPcs_of_lookup hs] at hc
  cases p with
  | accepted => cases hc
  | findLock l => cases hc
  | lock l m => cases hc
  | check l => cases hc; exact nearer_check hs
  | rejected l =>
      cases hc
      refine ⟨.answer s true, ⟨rfl, rfl⟩, Or.inl ⟨_, by simp only [step, hs]; rfl, ?_, Or.inl ?_⟩⟩
      · rw [toGo_of_lookup (Finmap.lookup_insert _), toGo_of_lookup hs, stepsLeft, stepsLeft]
        omega
      · exact inSection_of_lookup (Finmap.lookup_insert _) rfl
  | opening l opt => cases hc; exact nearer_opening hf hs
  | upload l head => cases hc; exact nearer_upload hk hwf hs
  | download l d => cases hc; exact nearer_download hs
  | findUnlock l =>
      cases hc
      obtain ⟨m, hm, -⟩ := hk.sound.inside (t := s) (k := l.clientId)
        (by rw [lockPcs_of_lookup hs]; rfl)
      refine ⟨.findUnlock s, ⟨rfl, rfl⟩,
        Or.inl ⟨_, by simp only [step, hs, hm]; rfl, ?_, Or.inl ?_⟩⟩
      · rw [toGo_of_lookup (Finmap.lookup_insert _), toGo_of_lookup hs, stepsLeft, stepsLeft]
        omega
      · exact inSection_of_lookup (Finmap.lookup_insert _) rfl
  | unlock l m =>
      cases hc
      refine ⟨.unlock s, ⟨rfl, rfl⟩, Or.inl ⟨_, by simp only [step, hs]; rfl, ?_, Or.inr ?_⟩⟩
      · rw [toGo_of_lookup (Finmap.lookup_insert _), toGo_of_lookup hs]
        exact Nat.one_pos
      · exact Finmap.lookup_insert _
  | returned => cases hc

theorem toGo_pos {c : ClientId} (hc : w.InSection s c) : 0 < w.toGo s := by
  cases hs : w.runs.lookup s with
  | none =>
      rw [InSection, lockPcs, hs] at hc
      cases hc
  | some p =>
      rw [InSection, lockPcs_of_lookup hs] at hc
      rw [toGo_of_lookup hs]
      cases p with
      | accepted => cases hc
      | findLock l => cases hc
      | lock l m => cases hc
      | returned => cases hc
      | _ => rw [stepsLeft]; omega

/-- Only `s` has moved. -/
def OnlyMoved (w : ServerOptThd) (s : SessId) (u : ServerOptThd) : Prop :=
  ∀ x, x ≠ s → u.runs.lookup x = w.runs.lookup x

/-- Whatever the interleaving so far, and however few elements a queue takes: a
connection that cannot acquire its mutex waits for another one in the section.  That
one, an upload, a download or rejected, comes to the end of the section in at most
`toGo` steps of its own, its client taking what it is sent and closing the connection,
and then the mutex is free; or the server exits on the way. -/
theorem lock_given_back (h : Reach (step cfg config) (fun _ _ => True) init w) {l : Login}
    {m : Nat} (hs : w.runs.lookup s = some (.lock l m)) (hheld : w.clientLckIdx.held m = true) :
    ∃ u as, u ≠ s ∧ w.InSection u l.clientId ∧ as.length ≤ w.toGo u ∧ (∀ a ∈ as, OwnStep u a) ∧
      ((∃ w', runSteps (step cfg config) w as = .ok w' ∧ w'.runs.lookup u = some .returned ∧
          w'.runs.lookup s = some (.lock l m) ∧ w'.clientLckIdx.held m = false) ∨
        ∃ e, runSteps (step cfg config) w as = .error e ∧ OnTheWay e) := by
  have hk := locked_reach h
  have hf : w.RecipesFound := h.inv RecipesFound (by rintro _ _ ⟨⟩)
    fun _ _ _ hf _ hs => recipesFound_step hf (step_stepped hs)
  have hwf : w.ClientsWf := h.inv ClientsWf Service.wf_init
    fun _ _ _ hwf _ hs => clientsWf_step hwf (step_stepped hs)
  have hpc : w.lockPcs s = .found l.clientId m := lockPcs_of_lookup hs
  obtain ⟨u, hne, hu⟩ := hk.sound.blocked hpc hheld
  refine ⟨u, ?_⟩
  have hrun : ∃ as : List Action, as.length ≤ w.toGo u ∧ (∀ a ∈ as, OwnStep u a) ∧
      ((∃ w', runSteps (step cfg config) w as = .ok w' ∧ (w'.Locked ∧ w'.RecipesFound ∧
        w'.ClientsWf ∧ w.OnlyMoved u w' ∧
        (w'.InSection u l.clientId ∨ w'.runs.lookup u = some .returned)) ∧
          w'.runs.lookup u = some .returned) ∨
        ∃ e, runSteps (step cfg config) w as = .error e ∧ OnTheWay e) := by
    refine exists_run _ _ (fun w' => w'.toGo u) ?_ ⟨hk, hf, hwf, fun _ _ => rfl, Or.inl hu⟩
      (Nat.le_refl _)
    rintro w' ⟨hk', hf', hwf', hmoved, hin⟩ hd
    have hin := hin.resolve_right hd
    obtain ⟨a, ha, hgo⟩ := nearer cfg config hk' hf' hwf' hin
    refine ⟨a, ha, toGo_pos hin, hgo.imp ?_ id⟩
    rintro ⟨w'', hw'', hlt, hin''⟩
    have hst := step_stepped hw''
    refine ⟨w'', hw'', ⟨locked_step hk' hst, recipesFound_step hf' hst, clientsWf_step hwf' hst,
      fun x hx => ?_, hin''⟩, hlt⟩
    exact (hst.others (by rw [ha.1]; exact hx)).1.trans (hmoved x hx)
  obtain ⟨as, hlen, has, hrun⟩ := hrun
  refine ⟨as, hne, hu, hlen, has, hrun.imp ?_ id⟩
  rintro ⟨w', hw', ⟨hk', -, -, hmoved, -⟩, hret⟩
  have hs' : w'.runs.lookup s = some (.lock l m) := (hmoved s hne.symm).trans hs
  refine ⟨w', hw', hret, hs', Bool.eq_false_iff.mpr fun hheld' => ?_⟩
  -- whoever holds it now has held it before
  obtain ⟨x, hxs, hx⟩ := hk'.sound.blocked (lockPcs_of_lookup hs') hheld'
  have hxu : x ≠ u := by
    rintro rfl
    rw [lockPcs_of_lookup hret] at hx
    cases hx
  have hx₀ : (w.lockPcs x).key? = some l.clientId := by
    rw [← hx, lockPcs, lockPcs, hmoved x hxu]
  exact hxu (hk.sound.unique hx₀ hu)

/-- The download waits for the upload, which can end. -/
theorem lock_given_back_twoLogins : uploadOpened.clientLckIdx.held 0 = true ∧
    ∃ u as, u ≠ 1 ∧ uploadOpened.InSection u 7 ∧ as.length ≤ uploadOpened.toGo u ∧
      (∀ a ∈ as, OwnStep u a) ∧
      ((∃ w', runSteps (step Components.plain sampleConfig) uploadOpened as = .ok w' ∧
          w'.runs.lookup u = some .returned ∧
          w'.runs.lookup 1 = some (.lock ⟨7, some .downloadOpt, [1]⟩ 0) ∧
          w'.clientLckIdx.held 0 = false) ∨
        ∃ e, runSteps (step Components.plain sampleConfig) uploadOpened as = .error e ∧
          OnTheWay e) := by
  have hheld : uploadOpened.clientLckIdx.held 0 = true := by decide +kernel
  have hs : uploadOpened.runs.lookup 1 = some (.lock ⟨7, some .downloadOpt, [1]⟩ 0) := rfl
  exact ⟨hheld, lock_given_back (endOf_reach allowed_true (by decide +kernel)) hs hheld⟩

end ServerOptThd

end EDRStore
