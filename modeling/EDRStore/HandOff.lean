/-
# `EDRStore.HandOff` — how one worker thread knows that the other is done

A worker leaves its loop when it has read `_done` of its input as true and
found the input empty, in two reads that the producer can come between:

    consumer    _done?  false                       pop: nothing       _done?  true    empty?
    producer                    push x   _done :=

The order of the two reads carries the argument.  Once `_done` is true its
producer has left, nothing more is pushed, and what `IsEmpty` then sees stays
so; a `Pop` that finds nothing only goes round again.
-/
import EDRStore.Lib.Run
import EDRStore.Lib.Spsc
import EDRStore.Stages
import Mathlib.Logic.Function.Basic

namespace EDRStore

variable {α : Type}

/-- `LckFreeMQ` over a third-party queue. -/
structure AbsMQ (S : Spsc α) where
  lockFreeQueue : S.Logged
  done : Bool

namespace AbsMQ

variable {S : Spsc α}

def new (S : Spsc α) : AbsMQ S := { lockFreeQueue := .empty S, done := false }

/-- One turn of the loop of `Push`. -/
def push (mq : AbsMQ S) (data : α) : Option (AbsMQ S) :=
  (mq.lockFreeQueue.enqueue data).map fun q => { mq with lockFreeQueue := q }

def pop (mq : AbsMQ S) : Option (α × AbsMQ S) :=
  mq.lockFreeQueue.dequeue.map fun r => (r.1, { mq with lockFreeQueue := r.2 })

def isEmpty (mq : AbsMQ S) : Bool := S.sizeApprox mq.lockFreeQueue.queue = 0

/-- All that was ever pushed, in order. -/
def pushed (mq : AbsMQ S) : List α := mq.lockFreeQueue.pushed

/-- All that was ever popped, in order. -/
def popped (mq : AbsMQ S) : List α := mq.lockFreeQueue.popped

end AbsMQ

/-- Where a worker is in its `Run`. -/
inductive WorkerPc (α : Type) where
  /-- Before it reads `_done` of its input. -/
  | loop
  /-- It has read true, and is before `IsEmpty`. -/
  | sawDone
  /-- Before `Pop`. -/
  | pop
  /-- In its switch, with the items it has still to push. -/
  | push (todo : List α)
  /-- Out of its loop, before it sets `_done` of its output. -/
  | leave
  | ended

/-- The items in hand. -/
def WorkerPc.todo : WorkerPc α → List α
  | .push todo => todo
  | _ => []

/-- Out of the loop. -/
def WorkerPc.Exited : WorkerPc α → Prop
  | .leave => True
  | .ended => True
  | _ => False

instance WorkerPc.decidableExited : (pc : WorkerPc α) → Decidable pc.Exited
  | .leave => inferInstanceAs (Decidable True)
  | .ended => inferInstanceAs (Decidable True)
  | .loop => inferInstanceAs (Decidable False)
  | .sawDone => inferInstanceAs (Decidable False)
  | .pop => inferInstanceAs (Decidable False)
  | .push _ => inferInstanceAs (Decidable False)

/-- A chain of workers: the worker `i` takes from the queue `i` and gives to the
next one; the first queue is filled by the receiver.  `handled` logs what each
worker popped, with what it pushes for it. -/
structure Pipeline (S : Spsc α) where
  recvEnded : Bool
  mqs : Nat → AbsMQ S
  workers : Nat → WorkerPc α
  handled : Nat → List (α × List α)

inductive PipelineAction (α : Type) where
  /-- The receiver pushes an item. -/
  | recv (x : α)
  /-- The receiver sets `_done`. -/
  | recvEnd
  /-- The worker `i` goes on; if it pops an item, it will push `out` for it. -/
  | work (i : Nat) (out : List α)

namespace Pipeline

variable {S : Spsc α}

def init (S : Spsc α) : Pipeline S where
  recvEnded := false
  mqs := fun _ => .new S
  workers := fun _ => .loop
  handled := fun _ => []

/-- The worker `i` is at `pc` next. -/
def goto (w : Pipeline S) (i : Nat) (pc : WorkerPc α) : Pipeline S :=
  { w with workers := Function.update w.workers i pc }

def setMq (w : Pipeline S) (i : Nat) (mq : AbsMQ S) : Pipeline S :=
  { w with mqs := Function.update w.mqs i mq }

def setDone (w : Pipeline S) (i : Nat) : Pipeline S :=
  w.setMq i { w.mqs i with done := true }

/-- One step of the `Run` of the worker `i`. -/
def work (w : Pipeline S) (i : Nat) (out : List α) : Except Stop (Pipeline S) :=
  match w.workers i with
  | .loop => .ok (w.goto i (if (w.mqs i).done then .sawDone else .pop))
  | .sawDone => .ok (w.goto i (if (w.mqs i).isEmpty then .leave else .pop))
  | .pop =>
      match (w.mqs i).pop with
      | none => .ok (w.goto i .loop)
      | some (x, mq) =>
          .ok { (w.setMq i mq).goto i (.push out) with
            handled := Function.update w.handled i (w.handled i ++ [(x, out)]) }
  | .push [] => .ok (w.goto i .loop)
  | .push (x :: todo) =>
      match (w.mqs (i + 1)).push x with
      | none => .ok w
      | some mq => .ok ((w.setMq (i + 1) mq).goto i (.push todo))
  | .leave => .ok ((w.setDone (i + 1)).goto i .ended)
  | .ended => .error .disabled

/-- One step of a chain of `n` workers. -/
def step (n : Nat) (w : Pipeline S) : PipelineAction α → Except Stop (Pipeline S)
  | .recv x =>
      if w.recvEnded then .error .disabled
      else match (w.mqs 0).push x with
        | none => .ok w
        | some mq => .ok (w.setMq 0 mq)
  | .recvEnd =>
      if w.recvEnded then .error .disabled
      else .ok { w.setDone 0 with recvEnded := true }
  | .work i out => if i < n then w.work i out else .error .disabled

/-! ## What a step can do -/

/-- One constructor for each way a step ends. -/
inductive Stepped (w : Pipeline S) : PipelineAction α → Pipeline S → Prop
  | recv {x mq} (hr : w.recvEnded = false) (hm : (w.mqs 0).push x = some mq) :
      Stepped w (.recv x) (w.setMq 0 mq)
  | recvEnd (hr : w.recvEnded = false) :
      Stepped w .recvEnd { w.setDone 0 with recvEnded := true }
  /-- A push into a full queue is tried again. -/
  | spin (a) : Stepped w a w
  | readDone {i out} (hw : w.workers i = .loop) (hd : (w.mqs i).done = true) :
      Stepped w (.work i out) (w.goto i .sawDone)
  | empty {i out} (hw : w.workers i = .sawDone) (he : (w.mqs i).isEmpty = true) :
      Stepped w (.work i out) (w.goto i .leave)
  /-- To `Pop`, or round the loop again. -/
  | goOn {i out pc} (hw : (w.workers i).todo = []) (hx : ¬ (w.workers i).Exited)
      (hpc : pc = .pop ∨ pc = .loop) : Stepped w (.work i out) (w.goto i pc)
  | pop {i out x mq} (hw : w.workers i = .pop) (hm : (w.mqs i).pop = some (x, mq)) :
      Stepped w (.work i out) { (w.setMq i mq).goto i (.push out) with
        handled := Function.update w.handled i (w.handled i ++ [(x, out)]) }
  | push {i out x todo mq} (hw : w.workers i = .push (x :: todo))
      (hm : (w.mqs (i + 1)).push x = some mq) :
      Stepped w (.work i out) ((w.setMq (i + 1) mq).goto i (.push todo))
  | leave {i out} (hw : w.workers i = .leave) :
      Stepped w (.work i out) ((w.setDone (i + 1)).goto i .ended)

variable {n : Nat} {w w' : Pipeline S} {a : PipelineAction α}

theorem work_stepped {i : Nat} {out : List α} (h : w.work i out = .ok w') :
    Stepped w (.work i out) w' := by
  unfold work at h
  cases hw : w.workers i with
  | loop =>
      rw [hw] at h
      cases h
      split
      · rename_i hd
        exact .readDone hw hd
      · exact .goOn (by rw [hw]; rfl) (by rw [hw]; exact id) (Or.inl rfl)
  | sawDone =>
      rw [hw] at h
      cases h
      split
      · rename_i he
        exact .empty hw he
      · exact .goOn (by rw [hw]; rfl) (by rw [hw]; exact id) (Or.inl rfl)
  | pop =>
      rw [hw] at h
      simp only at h
      cases hm : (w.mqs i).pop with
      | none =>
          rw [hm] at h
          cases h
          exact .goOn (by rw [hw]; rfl) (by rw [hw]; exact id) (Or.inr rfl)
      | some r =>
          rw [hm] at h
          cases h
          exact .pop hw hm
  | push todo =>
      rw [hw] at h
      cases todo with
      | nil =>
          cases h
          exact .goOn (by rw [hw]; rfl) (by rw [hw]; exact id) (Or.inr rfl)
      | cons x todo =>
          simp only at h
          cases hm : (w.mqs (i + 1)).push x with
          | none => rw [hm] at h; cases h; exact .spin _
          | some mq => rw [hm] at h; cases h; exact .push hw hm
  | leave => rw [hw] at h; cases h; exact .leave hw
  | ended => rw [hw] at h; exact nomatch h

theorem step_stepped (h : step n w a = .ok w') : Stepped w a w' := by
  cases a with
  | recv x =>
      simp only [step] at h
      split at h
      · exact nomatch h
      · rename_i hr
        have hr : w.recvEnded = false := by simpa using hr
        cases hm : (w.mqs 0).push x with
        | none => rw [hm] at h; cases h; exact .spin _
        | some mq => rw [hm] at h; cases h; exact .recv hr hm
  | recvEnd =>
      simp only [step] at h
      split at h
      · exact nomatch h
      · rename_i hr
        cases h
        exact .recvEnd (by simpa using hr)
  | work i out =>
      simp only [step] at h
      split at h
      · exact work_stepped h
      · exact nomatch h

/-! ## What is true between any two steps -/

/-- `_done` is set by a producer that has left, and a worker that leaves has seen
`_done` and then an empty queue. -/
structure Ordered (w : Pipeline S) : Prop where
  fifo : ∀ i, (w.mqs i).lockFreeQueue.Fifo
  recvDone : (w.mqs 0).done = true → w.recvEnded = true
  workDone : ∀ i, (w.mqs (i + 1)).done = true ↔ w.workers i = .ended
  seen : ∀ i, w.workers i = .sawDone → (w.mqs i).done = true
  exited : ∀ i, (w.workers i).Exited →
    (w.mqs i).done = true ∧ (w.mqs i).popped = (w.mqs i).pushed

theorem ordered_init : (init S).Ordered where
  fifo := fun _ => Spsc.Logged.fifo_empty
  recvDone := nofun
  workDone := fun _ => ⟨nofun, nofun⟩
  seen := fun _ => nofun
  exited := fun _ h => h.elim

theorem push_eq_some {mq mq' : AbsMQ S} {x : α} (h : mq.push x = some mq') :
    mq.lockFreeQueue.enqueue x = some mq'.lockFreeQueue ∧ mq'.done = mq.done := by
  obtain ⟨q, hq, rfl⟩ := Option.map_eq_some_iff.mp h
  exact ⟨hq, rfl⟩

theorem pop_eq_some {mq mq' : AbsMQ S} {x : α} (h : mq.pop = some (x, mq')) :
    mq.lockFreeQueue.dequeue = some (x, mq'.lockFreeQueue) ∧ mq'.done = mq.done := by
  obtain ⟨r, hr, heq⟩ := Option.map_eq_some_iff.mp h
  cases heq
  exact ⟨hr, rfl⟩

/-- A receiver that goes on has not set `_done`. -/
theorem Ordered.notDone_recv (h : w.Ordered) (hr : w.recvEnded = false) :
    (w.mqs 0).done = false := by
  cases hd : (w.mqs 0).done with
  | false => rfl
  | true => rw [h.recvDone hd] at hr; exact nomatch hr

/-- Nor has a worker. -/
theorem Ordered.notDone_work (h : w.Ordered) {i : Nat} (hw : w.workers i ≠ .ended) :
    (w.mqs (i + 1)).done = false := by
  cases hd : (w.mqs (i + 1)).done with
  | false => rfl
  | true => exact absurd ((h.workDone i).mp hd) hw

/-- A worker that moves without touching a queue: it must not leave unless its
input is done and drained, and not appear to be before `IsEmpty` unless it is
done. -/
theorem Ordered.goto (h : w.Ordered) {i : Nat} {pc : WorkerPc α} (hold : w.workers i ≠ .ended)
    (hpc : pc ≠ .ended) (hseen : pc = .sawDone → (w.mqs i).done = true)
    (hexit : pc.Exited → (w.mqs i).done = true ∧ (w.mqs i).popped = (w.mqs i).pushed) :
    (w.goto i pc).Ordered := by
  refine ⟨h.fifo, h.recvDone, fun j => ?_, fun j => ?_, fun j => ?_⟩
  · simp only [Pipeline.goto, Function.update_apply]
    rw [h.workDone]
    split
    · rename_i hj
      subst hj
      simp [hold, hpc]
    · rfl
  · simp only [Pipeline.goto, Function.update_apply]
    split
    · rename_i hj
      exact hj ▸ hseen
    · exact h.seen j
  · simp only [Pipeline.goto, Function.update_apply]
    split
    · rename_i hj
      exact hj ▸ hexit
    · exact h.exited j

/-- A queue changes, but not its `_done`. -/
theorem Ordered.setMq (h : w.Ordered) {j : Nat} {mq : AbsMQ S} (hdone : mq.done = (w.mqs j).done)
    (hf : mq.lockFreeQueue.Fifo) (hx : (w.workers j).Exited → mq.popped = mq.pushed) :
    (w.setMq j mq).Ordered := by
  have hmqs : ∀ i, ((w.setMq j mq).mqs i).done = (w.mqs i).done := by
    intro i
    simp only [Pipeline.setMq, Function.update_apply]
    split
    · rename_i hi
      rw [hi, hdone]
    · rfl
  refine ⟨fun i => ?_, ?_, fun i => ?_, fun i hi => ?_, fun i hi => ?_⟩
  · simp only [Pipeline.setMq, Function.update_apply]
    split
    · exact hf
    · exact h.fifo i
  · rw [hmqs]
    exact h.recvDone
  · rw [hmqs]
    exact h.workDone i
  · rw [hmqs]
    exact h.seen i hi
  · refine ⟨(hmqs i).trans (h.exited i hi).1, ?_⟩
    simp only [Pipeline.setMq, Function.update_apply]
    split
    · rename_i hij
      exact hx (hij ▸ hi)
    · exact (h.exited i hi).2

/-- A queue that is not done takes an item: no consumer has left it. -/
theorem Ordered.pushMq (h : w.Ordered) {j : Nat} {x : α} {mq : AbsMQ S}
    (hd : (w.mqs j).done = false) (hm : (w.mqs j).push x = some mq) : (w.setMq j mq).Ordered := by
  obtain ⟨hq, hdone⟩ := push_eq_some hm
  refine h.setMq hdone ((h.fifo j).enqueue hq) fun hx => ?_
  rw [(h.exited j hx).1] at hd
  exact nomatch hd

/-- A worker that has not left takes an item out of its input. -/
theorem Ordered.popMq (h : w.Ordered) {j : Nat} {x : α} {mq : AbsMQ S}
    (hx : ¬ (w.workers j).Exited) (hm : (w.mqs j).pop = some (x, mq)) : (w.setMq j mq).Ordered := by
  obtain ⟨hq, hdone⟩ := pop_eq_some hm
  exact h.setMq hdone ((h.fifo j).dequeue hq) fun hx' => absurd hx' hx

theorem setDone_lockFreeQueue (w : Pipeline S) (k j : Nat) :
    ((w.setDone k).mqs j).lockFreeQueue = (w.mqs j).lockFreeQueue := by
  simp only [setDone, Pipeline.setMq, Function.update_apply]
  split
  · rename_i hj
    rw [hj]
  · rfl

theorem setDone_done (w : Pipeline S) (k j : Nat) :
    ((w.setDone k).mqs j).done = true ↔ j = k ∨ (w.mqs j).done = true := by
  simp only [setDone, Pipeline.setMq, Function.update_apply]
  split
  · rename_i hj
    exact ⟨fun _ => Or.inl hj, fun _ => rfl⟩
  · rename_i hj
    exact ⟨Or.inr, fun h => h.resolve_left hj⟩

theorem Ordered.setDone_exited (h : w.Ordered) {k j : Nat} (hx : (w.workers j).Exited) :
    ((w.setDone k).mqs j).done = true ∧
      ((w.setDone k).mqs j).popped = ((w.setDone k).mqs j).pushed := by
  obtain ⟨hd, heq⟩ := h.exited j hx
  refine ⟨(setDone_done w k j).mpr (Or.inr hd), ?_⟩
  simp only [AbsMQ.popped, AbsMQ.pushed, setDone_lockFreeQueue]
  exact heq

/-- The receiver sets `_done` of the first queue. -/
theorem Ordered.recvEnd (h : w.Ordered) : { w.setDone 0 with recvEnded := true }.Ordered := by
  refine ⟨fun j => ?_, fun _ => rfl, fun j => ?_, fun j hj => ?_, fun j hj => h.setDone_exited hj⟩
  · exact setDone_lockFreeQueue w 0 j ▸ h.fifo j
  · exact (setDone_done w 0 (j + 1)).trans
      ⟨fun hd => (h.workDone j).mp (hd.resolve_left (Nat.succ_ne_zero j)),
        fun hw => Or.inr ((h.workDone j).mpr hw)⟩
  · exact (setDone_done w 0 j).mpr (Or.inr (h.seen j hj))

/-- A worker that leaves sets `_done` of the next queue. -/
theorem Ordered.leave (h : w.Ordered) {i : Nat} (hw : w.workers i = .leave) :
    ((w.setDone (i + 1)).goto i .ended).Ordered := by
  refine ⟨fun j => ?_, fun hd => ?_, fun j => ?_, fun j hj => ?_, fun j hj => ?_⟩
  · exact setDone_lockFreeQueue w (i + 1) j ▸ h.fifo j
  · exact h.recvDone (((setDone_done w (i + 1) 0).mp hd).resolve_left (Nat.succ_ne_zero i).symm)
  · refine (setDone_done w (i + 1) (j + 1)).trans ?_
    simp only [Pipeline.goto, Function.update_apply, Nat.add_right_cancel_iff]
    split
    · rename_i hji
      exact ⟨fun _ => rfl, fun _ => Or.inl hji⟩
    · rename_i hji
      exact ⟨fun hd => (h.workDone j).mp (hd.resolve_left hji),
        fun hd => Or.inr ((h.workDone j).mpr hd)⟩
  · refine (setDone_done w (i + 1) j).mpr (Or.inr (h.seen j ?_))
    simp only [Pipeline.goto, Function.update_apply] at hj
    split at hj
    · exact nomatch hj
    · exact hj
  · refine h.setDone_exited ?_
    simp only [Pipeline.goto, Function.update_apply] at hj
    split at hj
    · rename_i hji
      rw [hji, hw]
      exact trivial
    · exact hj

theorem ordered_step (h : w.Ordered) (hs : Stepped w a w') : w'.Ordered := by
  cases hs with
  | recv hr hm => exact h.pushMq (h.notDone_recv hr) hm
  | recvEnd hr => exact h.recvEnd
  | spin => exact h
  | readDone hw hd =>
      exact h.goto (by rw [hw]; exact nofun) nofun (fun _ => hd) (fun hx => hx.elim)
  | @empty i out hw he =>
      refine h.goto (by rw [hw]; exact nofun) nofun nofun fun _ => ⟨h.seen i hw, ?_⟩
      exact (h.fifo i).drained (of_decide_eq_true he)
  | @goOn i out pc hw hx hpc =>
      refine h.goto ?_ ?_ ?_ ?_
      · rintro heq
        rw [heq] at hx
        exact hx trivial
      · rcases hpc with rfl | rfl <;> exact nofun
      · rcases hpc with rfl | rfl <;> exact nofun
      · rcases hpc with rfl | rfl <;> exact fun hx => hx.elim
  | @pop i out x mq hw hm =>
      have hpop := h.popMq (by rw [hw]; exact id) hm
      have hgo : ((w.setMq i mq).goto i (.push out)).Ordered := by
        refine hpop.goto ?_ nofun nofun (fun hx => hx.elim)
        show w.workers i ≠ .ended
        rw [hw]
        exact nofun
      exact ⟨hgo.fifo, hgo.recvDone, hgo.workDone, hgo.seen, hgo.exited⟩
  | @push i out x todo mq hw hm =>
      have hne : w.workers i ≠ .ended := by rw [hw]; exact nofun
      exact (h.pushMq (h.notDone_work hne) hm).goto hne nofun nofun (fun hx => hx.elim)
  | leave hw => exact h.leave hw

variable {G : Pipeline S → PipelineAction α → Prop}

theorem ordered_reach (h : Reach (step n) G (init S) w) : w.Ordered :=
  h.inv Ordered ordered_init fun _ _ _ hi _ hs => ordered_step hi (step_stepped hs)

/-- A queue that is done stays so, and nothing more is pushed to it. -/
theorem Ordered.sealed (h : w.Ordered) (hs : Stepped w a w') {i : Nat}
    (hd : (w.mqs i).done = true) :
    (w'.mqs i).done = true ∧ (w'.mqs i).pushed = (w.mqs i).pushed := by
  have hset : ∀ {j : Nat} {mq : AbsMQ S}, (j = i → mq.done = (w.mqs i).done ∧
      mq.pushed = (w.mqs i).pushed) →
      ((w.setMq j mq).mqs i).done = true ∧ ((w.setMq j mq).mqs i).pushed = (w.mqs i).pushed := by
    intro j mq hj
    simp only [Pipeline.setMq, Function.update_apply]
    split
    · rename_i hij
      obtain ⟨h1, h2⟩ := hj hij.symm
      exact ⟨h1.trans hd, h2⟩
    · exact ⟨hd, rfl⟩
  have hdone : ∀ k, ((w.setDone k).mqs i).done = true ∧
      ((w.setDone k).mqs i).pushed = (w.mqs i).pushed := by
    intro k
    refine ⟨(setDone_done w k i).mpr (Or.inr hd), ?_⟩
    simp only [AbsMQ.pushed, setDone_lockFreeQueue]
  cases hs with
  | recv hr hm =>
      refine hset fun hi => ?_
      rw [← hi, h.notDone_recv hr] at hd
      exact nomatch hd
  | recvEnd hr => exact hdone 0
  | spin => exact ⟨hd, rfl⟩
  | readDone => exact ⟨hd, rfl⟩
  | empty => exact ⟨hd, rfl⟩
  | goOn => exact ⟨hd, rfl⟩
  | pop hw hm =>
      refine hset fun hi => ?_
      obtain ⟨hq, hdq⟩ := pop_eq_some hm
      rw [← hi]
      exact ⟨hdq, (Spsc.Logged.dequeue_eq_some hq).1⟩
  | @push j out x todo mq hw hm =>
      have hne : w.workers j ≠ .ended := by rw [hw]; exact nofun
      refine hset fun hi => ?_
      rw [← hi, h.notDone_work hne] at hd
      exact nomatch hd
  | leave hw => exact hdone _

theorem sealed_reach (h : w.Ordered) {i : Nat} (hd : (w.mqs i).done = true)
    (hr : Reach (step n) G w w') :
    (w'.mqs i).done = true ∧ (w'.mqs i).pushed = (w.mqs i).pushed := by
  refine (hr.inv (fun v => v.Ordered ∧ (v.mqs i).done = true ∧
    (v.mqs i).pushed = (w.mqs i).pushed) ⟨h, hd, rfl⟩ ?_).2
  intro v a v' ⟨ho, hdv, heq⟩ _ hs
  have hst := step_stepped hs
  obtain ⟨hd', heq'⟩ := ho.sealed hst hdv
  exact ⟨ordered_step ho hst, hd', heq'.trans heq⟩

/-- However the receiver and the workers interleave, what comes out of a queue
is at any time the beginning of what went in; a worker that has left its loop
has taken everything that was pushed to it or ever will be; and a queue that is
done gets nothing more. -/
theorem hand_off (n : Nat) (S : Spsc α) (G : Pipeline S → PipelineAction α → Prop)
    {w : Pipeline S} (h : Reach (step n) G (init S) w) :
    (∀ i, (w.mqs i).popped <+: (w.mqs i).pushed) ∧
    (∀ i, (w.workers i).Exited → ∀ w', Reach (step n) G w w' →
      (w.mqs i).popped = (w'.mqs i).pushed) ∧
    ∀ i, (w.mqs i).done = true → ∀ w', Reach (step n) G w w' →
      (w'.mqs i).pushed = (w.mqs i).pushed := by
  have ho := ordered_reach h
  refine ⟨fun i => (ho.fifo i).popped_isPrefix, fun i hx w' hr => ?_, fun i hd w' hr => ?_⟩
  · obtain ⟨hd, heq⟩ := ho.exited i hx
    exact heq.trans (sealed_reach ho hd hr).2.symm
  · exact (sealed_reach ho hd hr).2

/-- Two items pass through two workers that forward what they take, over queues
with room for one. -/
def handOffSchedule : List (PipelineAction Nat) :=
  [.recv 4, .recv 5] ++ List.replicate 3 (.work 0 [4]) ++ [.recv 5, .recvEnd] ++
    List.replicate 3 (.work 0 [5]) ++ List.replicate 2 (.work 1 []) ++
    List.replicate 5 (.work 0 [])

def handOffSample : Pipeline (Spsc.bounded Nat 1) := endOf (step 2) (init _) handOffSchedule

theorem hand_off_sample :
    (handOffSample.workers 0).Exited ∧ (handOffSample.mqs 0).popped = [4, 5] ∧
      ∀ w', Reach (step 2) (fun _ _ => True) handOffSample w' →
        (handOffSample.mqs 0).popped = (w'.mqs 0).pushed := by
  have hr : Reach (step 2) (fun _ _ => True) (init _) handOffSample :=
    endOf_reach (by decide +kernel) (by decide +kernel)
  have hx : (handOffSample.workers 0).Exited := by decide +kernel
  exact ⟨hx, by decide +kernel, (hand_off 2 _ _ hr).2.1 0 hx⟩

/-! ## The whole chain -/

/-- What was popped is what was handled, and what was forwarded for it is in
the next queue or still in hand. -/
structure Accounted (w : Pipeline S) : Prop where
  taken : ∀ i, (w.handled i).map Prod.fst = (w.mqs i).popped
  given : ∀ i, (w.mqs (i + 1)).pushed ++ (w.workers i).todo = ((w.handled i).map Prod.snd).flatten

theorem accounted_init : (init S).Accounted where
  taken := fun _ => rfl
  given := fun _ => rfl

/-- A step that moves no item. -/
theorem Accounted.congr (h : w.Accounted) (hh : w'.handled = w.handled)
    (hq : ∀ i, (w'.mqs i).lockFreeQueue = (w.mqs i).lockFreeQueue)
    (ht : ∀ i, (w'.workers i).todo = (w.workers i).todo) : w'.Accounted := by
  refine ⟨fun i => ?_, fun i => ?_⟩
  · rw [hh, AbsMQ.popped, hq]
    exact h.taken i
  · rw [hh, AbsMQ.pushed, hq, ht]
    exact h.given i

theorem goto_todo {i : Nat} {pc : WorkerPc α} (h : pc.todo = (w.workers i).todo) (j : Nat) :
    ((w.goto i pc).workers j).todo = (w.workers j).todo := by
  simp only [Pipeline.goto, Function.update_apply]
  split
  · rename_i hj
    rw [hj, h]
  · rfl

theorem Accounted.pop (h : w.Accounted) {i : Nat} {out : List α} {x : α} {mq : AbsMQ S}
    (hw : w.workers i = .pop) (hm : (w.mqs i).pop = some (x, mq)) :
    { (w.setMq i mq).goto i (.push out) with
      handled := Function.update w.handled i (w.handled i ++ [(x, out)]) }.Accounted := by
  obtain ⟨hpushed, hpopped, -⟩ := Spsc.Logged.dequeue_eq_some (pop_eq_some hm).1
  refine ⟨fun j => ?_, fun j => ?_⟩
  · simp only [Pipeline.goto, Pipeline.setMq, Function.update_apply]
    split
    · rw [List.map_append, h.taken i]
      exact hpopped.symm
    · exact h.taken j
  · have hsame : ((w.setMq i mq).mqs (j + 1)).pushed = (w.mqs (j + 1)).pushed := by
      simp only [Pipeline.setMq, Function.update_apply]
      split
      · rename_i hj
        rw [hj]
        exact hpushed
      · rfl
    simp only [Pipeline.goto, Function.update_apply]
    rw [hsame]
    split
    · rename_i hj
      have hgiven := h.given i
      rw [hw] at hgiven
      simp only [WorkerPc.todo, List.append_nil] at hgiven
      simp only [hj, WorkerPc.todo, hgiven, List.map_append, List.flatten_append, List.map_cons,
        List.map_nil, List.flatten_cons, List.flatten_nil, List.append_nil]
    · exact h.given j

theorem Accounted.push (h : w.Accounted) {i : Nat} {x : α} {todo : List α} {mq : AbsMQ S}
    (hw : w.workers i = .push (x :: todo)) (hm : (w.mqs (i + 1)).push x = some mq) :
    ((w.setMq (i + 1) mq).goto i (.push todo)).Accounted := by
  obtain ⟨hpushed, hpopped, -⟩ := Spsc.Logged.enqueue_eq_some (push_eq_some hm).1
  refine ⟨fun j => ?_, fun j => ?_⟩
  · simp only [Pipeline.goto, Pipeline.setMq, Function.update_apply]
    split
    · rename_i hj
      rw [hj, h.taken (i + 1)]
      exact hpopped.symm
    · exact h.taken j
  · simp only [Pipeline.goto, Pipeline.setMq, Function.update_apply, Nat.add_right_cancel_iff]
    split
    · rename_i hj
      have hgiven := h.given i
      rw [hw] at hgiven
      simp only [hj, ← hgiven, AbsMQ.pushed, hpushed, WorkerPc.todo, List.append_assoc,
        List.singleton_append]
    · exact h.given j

/-- The receiver gives to the first queue, which no worker gives to. -/
theorem Accounted.recv (h : w.Accounted) {x : α} {mq : AbsMQ S}
    (hm : (w.mqs 0).push x = some mq) : (w.setMq 0 mq).Accounted := by
  obtain ⟨-, hpopped, -⟩ := Spsc.Logged.enqueue_eq_some (push_eq_some hm).1
  refine ⟨fun j => ?_, fun j => ?_⟩
  · simp only [Pipeline.setMq, Function.update_apply]
    split
    · rename_i hj
      rw [hj, h.taken 0]
      exact hpopped.symm
    · exact h.taken j
  · simp only [Pipeline.setMq, Function.update_of_ne (Nat.succ_ne_zero j)]
    exact h.given j

theorem accounted_step (h : w.Accounted) (hs : Stepped w a w') : w'.Accounted := by
  cases hs with
  | recv hr hm => exact h.recv hm
  | recvEnd hr => exact h.congr rfl (setDone_lockFreeQueue w 0) fun _ => rfl
  | spin => exact h
  | readDone hw hd => exact h.congr rfl (fun _ => rfl) (goto_todo (by rw [hw]; rfl))
  | empty hw he => exact h.congr rfl (fun _ => rfl) (goto_todo (by rw [hw]; rfl))
  | goOn hw hx hpc =>
      refine h.congr rfl (fun _ => rfl) (goto_todo ?_)
      rcases hpc with rfl | rfl <;> exact hw.symm
  | pop hw hm => exact h.pop hw hm
  | push hw hm => exact h.push hw hm
  | @leave i out hw =>
      exact h.congr rfl (setDone_lockFreeQueue w (i + 1))
        (goto_todo (w := w.setDone (i + 1)) (by show _ = (w.workers i).todo; rw [hw]; rfl))

/-- The items a worker forwards are those `forwards` allows. -/
def Obeys (forwards : Nat → α → List α → Prop) (w : Pipeline S) : PipelineAction α → Prop
  | .work i out => w.workers i = .pop → ∀ x mq, (w.mqs i).pop = some (x, mq) → forwards i x out
  | _ => True

theorem handled_step {forwards : Nat → α → List α → Prop}
    (h : ∀ i, ∀ p ∈ w.handled i, forwards i p.1 p.2) (hg : Obeys forwards w a)
    (hs : Stepped w a w') : ∀ i, ∀ p ∈ w'.handled i, forwards i p.1 p.2 := by
  cases hs with
  | @pop i out x mq hw hm =>
      intro j p hp
      simp only [Function.update_apply] at hp
      split at hp
      · rename_i hj
        rcases List.mem_append.mp hp with hp | hp
        · exact hj ▸ h i p hp
        · obtain rfl := List.mem_singleton.mp hp
          exact hj ▸ hg hw x mq hm
      · exact h j p hp
  | _ => exact h

/-- A worker that has left is the last of those before it to do so. -/
theorem Ordered.upstream (h : w.Ordered) {i : Nat} (hx : (w.workers i).Exited) :
    w.recvEnded = true ∧ ∀ j < i, w.workers j = .ended := by
  induction i with
  | zero => exact ⟨h.recvDone (h.exited 0 hx).1, fun j hj => absurd hj (Nat.not_lt_zero j)⟩
  | succ i ih =>
      have hended := (h.workDone i).mp (h.exited (i + 1) hx).1
      obtain ⟨hr, hbefore⟩ := ih (by rw [hended]; exact trivial)
      refine ⟨hr, fun j hj => ?_⟩
      rcases Nat.lt_succ_iff_lt_or_eq.mp hj with hlt | rfl
      · exact hbefore j hlt
      · exact hended

/-- Once a worker has left, each worker up to it has handled just what was
pushed to it, and all it forwarded was pushed to the next. -/
theorem chain_drained {forwards : Nat → α → List α → Prop}
    (h : Reach (step n) (Obeys forwards) (init S) w) {i : Nat} (hx : (w.workers i).Exited) :
    ∀ j ≤ i, (w.handled j).map Prod.fst = (w.mqs j).pushed ∧
      (w.mqs (j + 1)).pushed = ((w.handled j).map Prod.snd).flatten ∧
      ∀ p ∈ w.handled j, forwards j p.1 p.2 := by
  obtain ⟨ho, ha, hf⟩ := h.inv
    (fun w => w.Ordered ∧ w.Accounted ∧ ∀ i, ∀ p ∈ w.handled i, forwards i p.1 p.2)
    ⟨ordered_init, accounted_init, fun _ _ hp => absurd hp List.not_mem_nil⟩
    fun _ _ _ hi hg hs =>
      have hst := step_stepped hs
      ⟨ordered_step hi.1 hst, accounted_step hi.2.1 hst, handled_step hi.2.2 hg hst⟩
  intro j hj
  have hxj : (w.workers j).Exited := by
    rcases Nat.lt_or_eq_of_le hj with hlt | rfl
    · rw [(ho.upstream hx).2 j hlt]
      exact trivial
    · exact hx
  refine ⟨(ha.taken j).trans (ho.exited j hxj).2, ?_, hf j⟩
  rw [← ha.given j]
  cases hw : w.workers j with
  | leave => exact (List.append_nil _).symm
  | ended => exact (List.append_nil _).symm
  | _ => rw [hw] at hxj; exact hxj.elim

end Pipeline

/-! ## The pipeline of an upload -/

/-- What the three workers of the server forward for a chunk: `DualDedupThd`
and `CacheCompThd`, each with the index or the cache as it then is, and
`DataWriterThd`, which is the last. -/
def uploadForwards (cfg : Components) : Nat → WrappedChunk → List WrappedChunk → Prop
  | 0, x, out => ∃ db r, DualDedupThd.runChunk cfg db x = .ok r ∧ out = r.1
  | 1, x, out => ∃ ic r, CacheCompThd.runChunk cfg ic x = .ok r ∧ out = r.1
  | _, _, out => out = []

/-- When the writer leaves, the stages have been run one after the other on all
that the receiver pushed. -/
theorem writer_gets {cfg : Components} {S : Spsc WrappedChunk} {w : Pipeline S}
    (h : Reach (Pipeline.step 3) (Pipeline.Obeys (uploadForwards cfg)) (.init S) w)
    (hx : (w.workers 2).Exited) :
    ∃ dual cache : List (WrappedChunk × List WrappedChunk),
      dual.map Prod.fst = (w.mqs 0).pushed ∧ cache.map Prod.fst = (dual.map Prod.snd).flatten ∧
      (w.mqs 2).popped = (cache.map Prod.snd).flatten ∧
      (∀ p ∈ dual, uploadForwards cfg 0 p.1 p.2) ∧ ∀ p ∈ cache, uploadForwards cfg 1 p.1 p.2 := by
  obtain ⟨h0, g0, f0⟩ := Pipeline.chain_drained h hx 0 (by omega)
  obtain ⟨h1, g1, f1⟩ := Pipeline.chain_drained h hx 1 (by omega)
  refine ⟨w.handled 0, w.handled 1, h0, h1.trans g0, ?_, f0, f1⟩
  exact ((Pipeline.ordered_reach h).exited 2 hx).2.trans g1

end EDRStore
