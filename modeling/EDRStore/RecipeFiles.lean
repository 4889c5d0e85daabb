/-
# `EDRStore.RecipeFiles` — what a download reads of a recipe

A recipe is written through a stream, is truncated when its upload opens, and is
read in batches: only the lock keeps a reader from a recipe that is half written.
The lock is that of the client id, while the file has a name of its own,

    GenerateHash(input_file_path + to_string(client_id))

so that it protects a recipe as long as clients that are logged in at the same time
with different ids do not name the same file (`Named`).  Then whoever downloads the
file after an upload, and before the next one opens, gets the fingerprints of that
upload, whatever else happens at the server (`download_gets_recipe`).
-/
import EDRStore.SessionLocks

namespace EDRStore

/-- `full_name` of `client_main.cc`, which is hashed. -/
def fullName (inputFilePath : String) (clientId : ClientId) : String :=
  inputFilePath ++ toString clientId

/-- Different clients can have one name: nothing separates the path from the id. -/
theorem fullName_collides (path : String) : fullName (path ++ "1") 2 = fullName path 12 := by
  show path ++ "1" ++ "2" = path ++ "12"
  rw [String.append_assoc]
  rfl

/-! ## Reading in batches -/

namespace DataReaderThd

/-- A turn takes at least one record, so that as many turns as bytes are enough. -/
theorem readRecipe_fuel (n : Nat) {k : Nat} : ∀ {k' : Nat} {hdl : Bytes}, hdl.length ≤ k →
    hdl.length ≤ k' → readRecipe n k hdl = readRecipe n k' hdl := by
  have hempty : ∀ k (hdl : Bytes), hdl.length = 0 → readRecipe n k hdl = [] := by
    intro k hdl h0
    rw [List.length_eq_zero_iff.mp h0]
    cases k with
    | zero => rfl
    | succ k => simp [readRecipe]
  induction k with
  | zero =>
      intro k' hdl hk _
      rw [hempty 0 hdl (by omega), hempty k' hdl (by omega)]
  | succ k ih =>
      intro k' hdl hk hk'
      cases k' with
      | zero => rw [hempty (k + 1) hdl (by omega), hempty 0 hdl (by omega)]
      | succ k' =>
          rw [readRecipe, readRecipe]
          split
          · rfl
          · rename_i hn
            split
            · rfl
            · rename_i hge
              have hpos : 0 < (hdl.take n).length := by
                refine Nat.pos_of_ne_zero fun h0 => hn ?_
                rw [h0]
                rfl
              have hdrop : (hdl.drop n).length + 1 ≤ hdl.length := by
                rw [List.length_take] at hpos hge
                rw [List.length_drop]
                omega
              rw [ih (by omega) (by omega : (hdl.drop n).length ≤ k')]

/-- What has been read and what is still to be read is what the whole file gives. -/
def Consistent (config : ServerConfig) (file : Bytes) (d : Download) : Prop :=
  d.fps ++ (if d.isEnd = true then []
    else readRecipe (recipeBatchBytes config.sendRecipeBatchSize) (file.drop d.recipeReadHdl).length
      (file.drop d.recipeReadHdl)) =
    fingerprints config.sendRecipeBatchSize file

variable {config : ServerConfig} {file : Bytes} {d : Download}

theorem consistent_open (cfg : Components) (config : ServerConfig) (file : Bytes)
    (files : InformFiles) :
    Consistent config file (.new cfg config files) := by
  show [] ++ readRecipe _ _ _ = _
  rw [List.nil_append, fingerprints]
  refine readRecipe_fuel _ (Nat.le_refl _) ?_
  rw [List.length_drop]
  exact Nat.sub_le _ _

theorem Consistent.readBatch (h : Consistent config file d) (he : d.isEnd = false) :
    Consistent config file (readBatch config file d) := by
  rw [Consistent, he, if_neg Bool.false_ne_true] at h
  rw [Consistent, ← h]
  generalize hrest : file.drop d.recipeReadHdl = rest
  generalize hn : recipeBatchBytes config.sendRecipeBatchSize = n
  simp only [DataReaderThd.readBatch, hrest, hn]
  cases hlen : rest.length with
  | zero =>
      rw [List.length_eq_zero_iff.mp hlen]
      simp [readRecipe]
  | succ k =>
      rw [readRecipe]
      split
      · simp
      · rename_i hne
        simp only [decide_eq_true_eq]
        split
        · simp
        · rename_i hge
          have hdrop : file.drop (d.recipeReadHdl + n) = rest.drop n := by
            rw [← List.drop_drop, hrest]
          have hpos : 0 < (rest.take n).length := by
            refine Nat.pos_of_ne_zero fun h0 => hne ?_
            rw [h0]
            rfl
          rw [List.length_take] at hpos hge
          rw [hdrop, List.append_assoc, readRecipe_fuel n (Nat.le_refl _)
            (by rw [List.length_drop]; omega : (rest.drop n).length ≤ k)]

/-- Only the reader looks at the recipe. -/
theorem Consistent.step {cfg : Components} {clientId : ClientId} {srv : Server} {d' : Download}
    {a : DownloadAction} (h : Consistent config file d)
    (hs : Download.Stepped cfg config clientId srv file d a d') : Consistent config file d' := by
  cases hs with
  | read hp hf he => exact h.readBatch he
  | fetch hf hp hr => exact h
  | readEnd hp hf he hd => exact h
  | decode hq hr => exact h
  | decodeEnd hq hd he => exact h

/-- At the end all has been read. -/
theorem Consistent.ended (h : Consistent config file d) (he : d.isEnd = true) :
    d.fps = fingerprints config.sendRecipeBatchSize file := by
  rw [← h, if_pos he, List.append_nil]

end DataReaderThd

/-! ## Who writes a recipe -/

/-- The login of a connection whose `Run` has not returned. -/
def RunPc.login? : RunPc → Option Login
  | .accepted => none
  | .findLock l => some l
  | .lock l _ => some l
  | .check l => some l
  | .rejected l => some l
  | .opening l _ => some l
  | .upload l _ => some l
  | .download l _ => some l
  | .findUnlock l => some l
  | .unlock l _ => some l
  | .returned => none

/-- The login of an upload about to open. -/
def RunPc.opensUpload? : RunPc → Option Login
  | .opening l .uploadOpt => some l
  | _ => none

namespace ServerOptThd

variable {cfg : Components} {config : ServerConfig} {w w' : ServerOptThd} {a : Action} {s : SessId}
  {name : Bytes}

/-- Clients with different ids that are logged in at the same time name different
files. -/
def NamesApart (w : ServerOptThd) : Prop :=
  ∀ s s' p p' l l', w.runs.lookup s = some p → w.runs.lookup s' = some p' →
    p.login? = some l → p'.login? = some l' →
      l.fileNameHash = l'.fileNameHash → l.clientId = l'.clientId

def Action.login? : Action → Option Login
  | .login _ l => some l
  | _ => none

/-- A login keeps the names apart. -/
def Named (w : ServerOptThd) (a : Action) : Prop :=
  ∀ l ∈ a.login?, ∀ e ∈ w.runs.entries, ∀ l' ∈ e.2.login?,
    l.fileNameHash = l'.fileNameHash → l.clientId = l'.clientId

instance (w : ServerOptThd) (a : Action) : Decidable (Named w a) :=
  inferInstanceAs (Decidable (∀ l ∈ a.login?, ∀ e ∈ w.runs.entries, ∀ l' ∈ e.2.login?, _ → _))

theorem Named.login {l : Login} (h : Named w (.login s l)) {u : SessId} {p : RunPc} {l' : Login}
    (hp : w.runs.lookup u = some p) (hl : p.login? = some l')
    (hname : l.fileNameHash = l'.fileNameHash) : l.clientId = l'.clientId :=
  h l rfl ⟨u, p⟩ (Finmap.lookup_eq_some_iff.mp hp) l' hl hname

/-- After its login a connection keeps it. -/
theorem Stepped.login_self (h : Stepped cfg config w a w') {p' : RunPc} {l : Login}
    (hp' : w'.runs.lookup a.sess = some p') (hl : p'.login? = some l) :
    (∃ p, w.runs.lookup a.sess = some p ∧ p.login? = some l) ∨ a = .login a.sess l := by
  have hother : ∀ {p : RunPc}, (w.runs.insert a.sess p).lookup a.sess = some p' → p' = p :=
    fun hq => (Option.some.inj ((Finmap.lookup_insert _).symm.trans hq)).symm
  cases h with
  | accept hs => cases hother hp'; cases hl
  | login hs => cases hother hp'; cases hl; exact Or.inr rfl
  | findLock hs => cases hother hp'; exact Or.inl ⟨_, hs, hl⟩
  | lock hs hfree => cases hother hp'; exact Or.inl ⟨_, hs, hl⟩
  | accepts hs ho hf => cases hother hp'; exact Or.inl ⟨_, hs, hl⟩
  | rejects hs ho hf => cases hother hp'; exact Or.inl ⟨_, hs, hl⟩
  | answer hs => cases hother hp'; exact Or.inl ⟨_, hs, hl⟩
  | openUpload hs => cases hother hp'; exact Or.inl ⟨_, hs, hl⟩
  | openDownload hs hf => cases hother hp'; exact Or.inl ⟨_, hs, hl⟩
  | thread hs ht hq hpush hstep => exact Or.inl ⟨_, hp', hl⟩
  | recipeEnd hs => cases hother hp'; exact Or.inl ⟨_, hs, hl⟩
  | flush hs => exact Or.inl ⟨_, hp', hl⟩
  | download hs hstep => cases hother hp'; exact Or.inl ⟨_, hs, hl⟩
  | joinUpload hs ht he hc hi => cases hother hp'; exact Or.inl ⟨_, hs, hl⟩
  | joinDownload hs he hc hi => cases hother hp'; exact Or.inl ⟨_, hs, hl⟩
  | findUnlock hs hm => cases hother hp'; exact Or.inl ⟨_, hs, hl⟩
  | unlock hs => cases hother hp'; cases hl

/-- Where a login comes from: it was there, or it comes now. -/
theorem Stepped.logins (h : Stepped cfg config w a w') {p' : RunPc} {l : Login}
    (hp' : w'.runs.lookup s = some p') (hl : p'.login? = some l) :
    (∃ p, w.runs.lookup s = some p ∧ p.login? = some l) ∨ (s = a.sess ∧ a = .login s l) := by
  rcases eq_or_ne s a.sess with rfl | hne
  · exact (h.login_self hp' hl).imp_right fun ha => ⟨rfl, ha⟩
  · exact Or.inl ⟨p', (h.others hne).1.symm.trans hp', hl⟩

theorem namesApart_step (hn : w.NamesApart) (hg : Named w a) (h : Stepped cfg config w a w') :
    w'.NamesApart := by
  intro s s' p p' l l' hs hs' hl hl' hname
  rcases h.logins hs hl with ⟨q, hq, hql⟩ | ⟨hsa, ha⟩ <;>
    rcases h.logins hs' hl' with ⟨q', hq', hql'⟩ | ⟨hsa', ha'⟩
  · exact hn s s' q q' l l' hq hq' hql hql' hname
  · rw [ha'] at hg
    exact (hg.login hq hql hname.symm).symm
  · rw [ha] at hg
    exact hg.login hq' hql' hname
  · rw [ha] at ha'
    cases ha'
    rfl

/-- The recipe is only changed by an upload of its name, or as one opens. -/
theorem Stepped.recipe_kept (h : Stepped cfg config w a w')
    (hopen : ∀ l, w.runs.lookup a.sess = some (.opening l .uploadOpt) → l.fileNameHash ≠ name ∨
      a ≠ .opened a.sess)
    (hup : ∀ l head, w.runs.lookup a.sess = some (.upload l head) → l.fileNameHash ≠ name) :
    w'.recipes.lookup name = w.recipes.lookup name := by
  have hins : ∀ {l : Login} {file : Bytes}, l.fileNameHash ≠ name →
      (w.recipes.insert l.fileNameHash file).lookup name = w.recipes.lookup name := by
    intro l file hne
    rw [Index.lookup_insert_ite, if_neg (Ne.symm hne)]
  cases h with
  | openUpload hs => exact hins ((hopen _ hs).resolve_right fun hn => hn rfl)
  | flush hs => exact hins (hup _ _ hs)
  | joinUpload hs ht he hc hi => exact hins (hup _ _ hs)
  | _ => rfl

/-! ## A download after an upload -/

/-- What a step opens as an upload. -/
def Action.opensUpload? (w : ServerOptThd) : Action → Option Login
  | .opened s => (w.runs.lookup s).bind RunPc.opensUpload?
  | _ => none

/-- No upload of the name opens. -/
def NotOpened (name : Bytes) (w : ServerOptThd) (a : Action) : Prop :=
  ∀ l ∈ a.opensUpload? w, l.fileNameHash ≠ name

instance (name : Bytes) (w : ServerOptThd) (a : Action) : Decidable (NotOpened name w a) :=
  inferInstanceAs (Decidable (∀ l ∈ a.opensUpload? w, _ ≠ _))

theorem NotOpened.opened {l : Login} (h : NotOpened name w (.opened s))
    (hs : w.runs.lookup s = some (.opening l .uploadOpt)) : l.fileNameHash ≠ name :=
  h l (by rw [Action.opensUpload?, hs]; rfl)

/-- The recipe is complete, and whoever reads it reads this. -/
structure RecipeIs (config : ServerConfig) (name file : Bytes) (w : ServerOptThd) : Prop where
  content : w.recipes.lookup name = some file
  noUpload : ∀ s l head, w.runs.lookup s = some (.upload l head) → l.fileNameHash ≠ name
  downloads : ∀ s l d, w.runs.lookup s = some (.download l d) → l.fileNameHash = name →
    DataReaderThd.Consistent config file d

theorem RecipeIs.step {file : Bytes} (hr : RecipeIs config name file w) (hg : NotOpened name w a)
    (h : Stepped cfg config w a w') : RecipeIs config name file w' := by
  have hother : ∀ {p q : RunPc}, (w.runs.insert a.sess p).lookup a.sess = some q → q = p :=
    fun hq => (Option.some.inj ((Finmap.lookup_insert _).symm.trans hq)).symm
  refine ⟨?_, ?_, ?_⟩
  · refine (h.recipe_kept (fun l hl => ?_) (hr.noUpload _)).trans hr.content
    by_cases ha : a = .opened a.sess
    · rw [ha] at hg
      exact Or.inl (hg.opened hl)
    · exact Or.inr ha
  · intro s l head hl
    rcases eq_or_ne s a.sess with rfl | hne
    · cases h with
      | openUpload hs => cases hother hl; exact hg.opened hs
      | thread hs ht hq hpush hstep => exact hr.noUpload _ _ _ hl
      | recipeEnd hs => cases hother hl; exact hr.noUpload _ _ _ hs
      | flush hs => exact hr.noUpload _ _ _ hl
      | _ => cases hother hl
    · exact hr.noUpload s l head ((h.others hne).1.symm.trans hl)
  · intro s l d hl hname
    rcases eq_or_ne s a.sess with rfl | hne
    · cases h with
      | openDownload hs hf => cases hother hl; exact DataReaderThd.consistent_open ..
      | thread hs ht hq hpush hstep => exact hr.downloads _ _ _ hl hname
      | flush hs => exact hr.downloads _ _ _ hl hname
      | download hs hstep =>
          cases hother hl
          have hd := hr.downloads _ _ _ hs hname
          subst hname
          rw [hr.content] at hstep
          exact hd.step (Download.step_stepped hstep)
      | _ => cases hother hl
    · exact hr.downloads s l d ((h.others hne).1.symm.trans hl) hname

/-- An upload that closes its recipe is the only one at work on it. -/
theorem recipeIs_closed (hk : w.Locked) (hn : w.NamesApart) {l : Login}
    {head : Option FileRecipeHead} {t : ClientVar} {cntOrder : List (Fp × Nat)}
    {idxOrder : List (Feature × Fp)} (hs : w.runs.lookup s = some (.upload l head)) :
    RecipeIs config l.fileNameHash (DataRecvThd.recipeFile config t.fileRecipe head)
      (w.closeUpload config s l head t cntOrder idxOrder) := by
  have hold : ∀ {x : SessId} {p : RunPc}, p ≠ .findUnlock l →
      (w.closeUpload config s l head t cntOrder idxOrder).runs.lookup x = some p →
        x ≠ s ∧ w.runs.lookup x = some p := by
    intro x p hp hx
    have hx : (w.runs.insert s (.findUnlock l)).lookup x = some p := hx
    rw [Index.lookup_insert_ite] at hx
    split at hx
    · exact absurd (Option.some.inj hx).symm hp
    · rename_i hne
      exact ⟨hne, hx⟩
  refine ⟨Finmap.lookup_insert _, fun x l' head' hx hname => ?_, fun x l' d hx hname => ?_⟩
  · obtain ⟨hne, hx⟩ := hold (by rintro ⟨⟩) hx
    have hid := hn x s _ _ l' l hx hs rfl rfl hname
    exact hne (owner_unique hk.sound hx hs rfl (congrArg some hid.symm))
  · obtain ⟨hne, hx⟩ := hold (by rintro ⟨⟩) hx
    have hid := hn x s _ _ l' l hx hs rfl rfl hname
    exact absurd (owner_unique hk.sound hx hs rfl (congrArg some hid.symm)) hne

/-- Whatever the interleaving: after an upload has closed its recipe, and until another
upload of the name opens, every download of the name gets its fingerprints.  They are
those of the whole upload if the client has sent the end of the recipe, and the batch
size is positive and the batches within the 32 bits of `ProcessRecipe` (`RecipesFit`). -/
theorem download_gets_recipe (h : Reach (step cfg config) Named init w) {w₁ w₂ : ServerOptThd}
    {l : Login} {head : Option FileRecipeHead} {t : ClientVar}
    {cntOrder : List (Fp × Nat)} {idxOrder : List (Feature × Fp)}
    (hs : w.runs.lookup s = some (.upload l head)) (ht : w.clients.lookup s = some t)
    (hjoin : w.step cfg config (.join s cntOrder idxOrder) = .ok w₁)
    (h' : Reach (step cfg config) (NotOpened l.fileNameHash) w₁ w₂) {u : SessId} {lu : Login}
    {d : Download} (hu : w₂.runs.lookup u = some (.download lu d))
    (hname : lu.fileNameHash = l.fileNameHash) (hend : d.isEnd = true) :
    d.fps = DataReaderThd.fingerprints config.sendRecipeBatchSize
        (DataRecvThd.recipeFile config t.fileRecipe head) ∧
      ∀ hd, head = some hd → 0 < config.sendRecipeBatchSize →
        (∀ fp ∈ t.fileRecipe, fp.length = chunkHashSize) →
        config.unsetHead.length = fileRecipeHeadSize →
        config.buf.length = recipeBatchBytes config.sendRecipeBatchSize →
        RecipesFit config.sendRecipeBatchSize t.fileRecipe.length → d.fps = t.fileRecipe := by
  have hinv : w.Locked ∧ w.NamesApart := by
    refine h.inv (fun w => w.Locked ∧ w.NamesApart) ⟨locked_init, ?_⟩ ?_
    · rintro s s' p p' l l' ⟨⟩
    · rintro w a w' ⟨hk, hn⟩ hg hst
      exact ⟨locked_step hk (step_stepped hst), namesApart_step hn hg (step_stepped hst)⟩
  have hclose : w₁ = w.closeUpload config s l head t cntOrder idxOrder := by
    simp only [step, hs, ht] at hjoin
    split at hjoin
    · exact (Except.ok.inj hjoin).symm
    · cases hjoin
  have hr : RecipeIs config l.fileNameHash (DataRecvThd.recipeFile config t.fileRecipe head) w₂ := by
    refine h'.inv (RecipeIs config l.fileNameHash _) ?_
      fun _ _ _ hr hg hst => hr.step hg (step_stepped hst)
    rw [hclose]
    exact recipeIs_closed hinv.1 hinv.2 hs
  have hfps := (hr.downloads u lu d hu hname).ended hend
  refine ⟨hfps, ?_⟩
  rintro hd rfl hpos hsize hunset hbuf hfit
  rw [hfps, DataRecvThd.recipeFile, (fileRecipe_spec hpos hsize hunset hbuf hfit hd).1]
  exact fingerprints_spec hpos hsize hfit hd

/-! ### One client's upload, and then its download -/

/-- The upload is about to be joined. -/
def beforeJoin : ServerOptThd :=
  endOf (step Components.sized sampleConfig) init (twoLogins ++ oneChunk ++ threadsEnd)

def afterJoin : ServerOptThd :=
  endOf (step Components.sized sampleConfig) beforeJoin [.join 0 [] []]

/-- The download has read the recipe. -/
def recipeRead : ServerOptThd :=
  endOf (step Components.sized sampleConfig) afterJoin
    [.findUnlock 0, .unlock 0, .lock 1, .check 1, .opened 1, .download 1 .read]

theorem download_gets_recipe_sample : ∃ t lu d, beforeJoin.clients.lookup 0 = some t ∧
    recipeRead.runs.lookup 1 = some (.download lu d) ∧ d.fps = t.fileRecipe ∧
      t.fileRecipe.length = 1 := by
  have hs : beforeJoin.runs.lookup 0 =
    some (.upload ⟨7, some .uploadOpt, [1]⟩ (some ⟨1, 1⟩)) := rfl
  have hrecipe : (beforeJoin.clients.lookup 0).map ClientVar.fileRecipe =
      some [7 :: List.replicate 31 0] := by decide +kernel
  obtain ⟨t, ht, hfps⟩ := Option.map_eq_some_iff.mp hrecipe
  obtain ⟨d, hd, hend⟩ : ∃ d, recipeRead.runs.lookup 1 =
      some (.download ⟨7, some .downloadOpt, [1]⟩ d) ∧ d.isEnd = true := ⟨_, rfl, rfl⟩
  have hjoin : beforeJoin.step Components.sized sampleConfig (.join 0 [] []) = .ok afterJoin := by
    have hrun : runSteps (step Components.sized sampleConfig) beforeJoin [.join 0 [] []] =
      .ok afterJoin := runSteps_endOf (by decide +kernel)
    obtain ⟨w₁, h₁, h₂⟩ := runSteps_cons_ok hrun
    cases h₂
    exact h₁
  refine ⟨t, _, d, ht, hd, ?_, by rw [hfps]; rfl⟩
  exact (download_gets_recipe (endOf_reach (by decide +kernel) (by decide +kernel)) hs ht hjoin
    (endOf_reach (by decide +kernel) (by decide +kernel)) hd rfl hend).2 _ rfl (by decide)
    (by rw [hfps]; decide) rfl rfl (by rw [hfps]; exact ⟨by decide, by decide⟩)

end ServerOptThd

end EDRStore
