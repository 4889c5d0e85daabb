/-
# `EDRStore.BlockedMq` — the queue with a mutex and two condition variables

`BlockedMQ` is the other implementation of `AbsMQ`: `Push` waits while the queue
is full, `Pop` while it is empty, and each wakes the other side when it has
changed the queue.  The end of the stream is not an item: the producer stores
`_done`, an atomic flag, without the mutex and without waking anybody.

Two threads take steps here, one for each thing the other can come between:
taking the mutex, the test of the `while`, reading `_done`, going to sleep,
waking up, changing the queue, `notify_all`, giving the mutex back.  Sleeping
threads may also wake up for no reason, as they may under a condition variable;
a thread that is stuck is one that only that could help.
-/
import EDRStore.Lib.Run

namespace EDRStore

inductive Side where
  | producer
  | consumer
deriving DecidableEq, Repr

/-- Where the producer is: outside, or in `Push(x)`. -/
inductive ProducerPc (α : Type) where
  /-- Before the next `Push`, or before it stores `_done`. -/
  | next
  /-- It has the mutex, and is before the test of the `while`. -/
  | test (x : α)
  /-- It found the queue full, and is before `full_sign_.wait`. -/
  | full (x : α)
  | waiting (x : α)
  /-- Woken, it has to take the mutex again. -/
  | woken (x : α)
  /-- It found room. -/
  | put (x : α)
  /-- Before `empty_sign_.notify_all`. -/
  | notify
  /-- Before it gives the mutex back. -/
  | leave
  | finished
deriving DecidableEq, Repr

/-- Where the consumer is: in its loop, in `IsEmpty` or in `Pop`. -/
inductive ConsumerPc where
  /-- Before it reads `_done` in its loop. -/
  | loop
  /-- It has read true, and is before `IsEmpty`. -/
  | sawDone
  /-- It has the mutex in `IsEmpty`. -/
  | isEmpty
  /-- Before `Pop`. -/
  | pop
  /-- It has the mutex, and is before the test of the `while`. -/
  | test
  /-- It found the queue empty, and is before it reads `_done`. -/
  | readDone
  /-- It has read false, and is before `empty_sign_.wait`. -/
  | toWait
  | waiting
  /-- Woken, it has to take the mutex again. -/
  | woken
  /-- It found an item. -/
  | take
  /-- Before `full_sign_.notify_all`. -/
  | notify
  /-- Before it gives the mutex back. -/
  | leave
  | exited
deriving DecidableEq, Repr

/-- `unique_lock` holds `mq_mtx_`. -/
def ProducerPc.locked {α : Type} : ProducerPc α → Bool
  | .test _ | .full _ | .put _ | .notify | .leave => true
  | .next | .waiting _ | .woken _ | .finished => false

def ConsumerPc.locked : ConsumerPc → Bool
  | .isEmpty | .test | .readDone | .toWait | .take | .notify | .leave => true
  | .loop | .sawDone | .pop | .waiting | .woken | .exited => false

/-- What `notify_all` makes of a thread. -/
def ProducerPc.notified {α : Type} : ProducerPc α → ProducerPc α
  | .waiting x => .woken x
  | pc => pc

def ConsumerPc.notified : ConsumerPc → ConsumerPc
  | .waiting => .woken
  | pc => pc

@[simp] theorem ProducerPc.locked_notified {α : Type} (pc : ProducerPc α) :
    pc.notified.locked = pc.locked := by cases pc <;> rfl

@[simp] theorem ConsumerPc.locked_notified (pc : ConsumerPc) : pc.notified.locked = pc.locked := by
  cases pc <;> rfl

/-- The item that the producer is at and has not put into the queue. -/
def ProducerPc.item {α : Type} : ProducerPc α → List α
  | .test x | .full x | .waiting x | .woken x | .put x => [x]
  | .next | .notify | .leave | .finished => []

@[simp] theorem ProducerPc.item_notified {α : Type} (pc : ProducerPc α) :
    pc.notified.item = pc.item := by cases pc <;> rfl

theorem ProducerPc.notified_eq_finished {α : Type} {pc : ProducerPc α} :
    pc.notified = .finished ↔ pc = .finished := by cases pc <;> simp [notified]

/-- The queue and its two threads: `todo` is what the producer will push behind
the item it is at, `popped` what the consumer got. -/
structure BlockedMQ (α : Type) where
  mqMtx : Option Side
  blockedMq : List α
  done : Bool
  producer : ProducerPc α
  consumer : ConsumerPc
  todo : List α
  popped : List α
deriving DecidableEq, Repr

/-- Why a thread does not go on. -/
inductive Halt where
  | blocked
  | assertFailed
deriving DecidableEq, Repr

inductive MqAction where
  | run (side : Side)
  /-- A sleeping thread wakes up unasked. -/
  | wake (side : Side)
deriving DecidableEq, Repr

namespace BlockedMQ

variable {α : Type}

def init (items : List α) : BlockedMQ α where
  mqMtx := none
  blockedMq := []
  done := false
  producer := .next
  consumer := .loop
  todo := items
  popped := []

/-- `unique_lock<mutex> lck(mq_mtx_)`. -/
def lock (w : BlockedMQ α) (side : Side) : Except Halt (BlockedMQ α) :=
  if w.mqMtx = none then .ok { w with mqMtx := some side } else .error .blocked

/-- `Push` for each item, then `_done = true`. -/
def producerStep (maxQueueSize : Nat) (w : BlockedMQ α) : Except Halt (BlockedMQ α) :=
  match w.producer with
  | .next =>
      match w.todo with
      | [] => .ok { w with done := true, producer := .finished }
      | x :: xs => do
          let w ← w.lock .producer
          return { w with producer := .test x, todo := xs }
  | .test x =>
      .ok { w with producer := if w.blockedMq.length = maxQueueSize then .full x else .put x }
  | .full x => .ok { w with mqMtx := none, producer := .waiting x }
  | .waiting _ => .error .blocked
  | .woken x => do
      let w ← w.lock .producer
      return { w with producer := .test x }
  | .put x =>
      if w.blockedMq.length < maxQueueSize then
        .ok { w with blockedMq := w.blockedMq ++ [x], producer := .notify }
      else .error .assertFailed
  | .notify => .ok { w with consumer := w.consumer.notified, producer := .leave }
  | .leave => .ok { w with mqMtx := none, producer := .next }
  | .finished => .error .blocked

/-- `if (_done && IsEmpty()) break; Pop(data)`, again and again. -/
def consumerStep (w : BlockedMQ α) : Except Halt (BlockedMQ α) :=
  match w.consumer with
  | .loop => .ok { w with consumer := if w.done then .sawDone else .pop }
  | .sawDone => do
      let w ← w.lock .consumer
      return { w with consumer := .isEmpty }
  | .isEmpty =>
      .ok { w with mqMtx := none, consumer := if w.blockedMq.isEmpty then .exited else .pop }
  | .pop => do
      let w ← w.lock .consumer
      return { w with consumer := .test }
  | .test => .ok { w with consumer := if w.blockedMq.isEmpty then .readDone else .take }
  -- where it reads true, `Pop` returns false
  | .readDone => .ok { w with consumer := if w.done then .leave else .toWait }
  | .toWait => .ok { w with mqMtx := none, consumer := .waiting }
  | .waiting => .error .blocked
  | .woken => do
      let w ← w.lock .consumer
      return { w with consumer := .test }
  | .take =>
      match w.blockedMq with
      | [] => .error .assertFailed
      | x :: xs => .ok { w with blockedMq := xs, popped := w.popped ++ [x], consumer := .notify }
  | .notify => .ok { w with producer := w.producer.notified, consumer := .leave }
  | .leave => .ok { w with mqMtx := none, consumer := .loop }
  | .exited => .error .blocked

def step (maxQueueSize : Nat) (w : BlockedMQ α) : MqAction → Except Halt (BlockedMQ α)
  | .run .producer => producerStep maxQueueSize w
  | .run .consumer => consumerStep w
  | .wake .producer =>
      match w.producer with
      | .waiting x => .ok { w with producer := .woken x }
      | _ => .error .blocked
  | .wake .consumer =>
      match w.consumer with
      | .waiting => .ok { w with consumer := .woken }
      | _ => .error .blocked

/-- Both sides are asleep. -/
def BothWaiting (w : BlockedMQ α) : Prop := (∃ x, w.producer = .waiting x) ∧ w.consumer = .waiting

/-- The producer is gone, and the consumer asleep in `Pop` on an empty queue, with
no thread that could go on. -/
def Stranded (maxQueueSize : Nat) (w : BlockedMQ α) : Prop :=
  w.producer = .finished ∧ w.consumer = .waiting ∧ w.blockedMq = [] ∧
    ∀ side w', step maxQueueSize w (.run side) ≠ .ok w'

/-- The producer does not store `_done` between the consumer's reading it as false
in `Pop` and the end of its wait. -/
def Heard (w : BlockedMQ α) (a : MqAction) : Prop :=
  a = .run .producer → w.producer = .next → w.todo = [] →
    w.consumer ≠ .toWait ∧ w.consumer ≠ .waiting

/-! ## What a step can do -/

theorem lock_ok {w w' : BlockedMQ α} {side : Side} (h : w.lock side = .ok w') :
    w.mqMtx = none ∧ w' = { w with mqMtx := some side } := by
  unfold lock at h
  split at h
  · cases h
    exact ⟨‹_›, rfl⟩
  · exact nomatch h

/-- The steps of the producer. -/
inductive ProducerMove (maxQueueSize : Nat) (w : BlockedMQ α) : BlockedMQ α → Prop
  | store (hp : w.producer = .next) (ht : w.todo = []) :
      ProducerMove maxQueueSize w { w with done := true, producer := .finished }
  | enter (x : α) (xs : List α) (hp : w.producer = .next) (ht : w.todo = x :: xs)
      (hm : w.mqMtx = none) :
      ProducerMove maxQueueSize w
        { w with mqMtx := some .producer, producer := .test x, todo := xs }
  | full (x : α) (hp : w.producer = .test x) (hq : w.blockedMq.length = maxQueueSize) :
      ProducerMove maxQueueSize w { w with producer := .full x }
  | room (x : α) (hp : w.producer = .test x) (hq : w.blockedMq.length ≠ maxQueueSize) :
      ProducerMove maxQueueSize w { w with producer := .put x }
  | sleep (x : α) (hp : w.producer = .full x) :
      ProducerMove maxQueueSize w { w with mqMtx := none, producer := .waiting x }
  | relock (x : α) (hp : w.producer = .woken x) (hm : w.mqMtx = none) :
      ProducerMove maxQueueSize w { w with mqMtx := some .producer, producer := .test x }
  | put (x : α) (hp : w.producer = .put x) (hq : w.blockedMq.length < maxQueueSize) :
      ProducerMove maxQueueSize w { w with blockedMq := w.blockedMq ++ [x], producer := .notify }
  | notify (hp : w.producer = .notify) :
      ProducerMove maxQueueSize w { w with consumer := w.consumer.notified, producer := .leave }
  | leave (hp : w.producer = .leave) :
      ProducerMove maxQueueSize w { w with mqMtx := none, producer := .next }

/-- The steps of the consumer. -/
inductive ConsumerMove (w : BlockedMQ α) : BlockedMQ α → Prop
  | more (hc : w.consumer = .loop) (hd : w.done = false) : ConsumerMove w { w with consumer := .pop }
  | sawDone (hc : w.consumer = .loop) (hd : w.done = true) :
      ConsumerMove w { w with consumer := .sawDone }
  | isEmpty (hc : w.consumer = .sawDone) (hm : w.mqMtx = none) :
      ConsumerMove w { w with mqMtx := some .consumer, consumer := .isEmpty }
  | exit (hc : w.consumer = .isEmpty) (hq : w.blockedMq = []) :
      ConsumerMove w { w with mqMtx := none, consumer := .exited }
  | notYet (hc : w.consumer = .isEmpty) (hq : w.blockedMq ≠ []) :
      ConsumerMove w { w with mqMtx := none, consumer := .pop }
  | enter (hc : w.consumer = .pop) (hm : w.mqMtx = none) :
      ConsumerMove w { w with mqMtx := some .consumer, consumer := .test }
  | empty (hc : w.consumer = .test) (hq : w.blockedMq = []) :
      ConsumerMove w { w with consumer := .readDone }
  | found (hc : w.consumer = .test) (hq : w.blockedMq ≠ []) :
      ConsumerMove w { w with consumer := .take }
  | giveUp (hc : w.consumer = .readDone) (hd : w.done = true) :
      ConsumerMove w { w with consumer := .leave }
  | stay (hc : w.consumer = .readDone) (hd : w.done = false) :
      ConsumerMove w { w with consumer := .toWait }
  | sleep (hc : w.consumer = .toWait) :
      ConsumerMove w { w with mqMtx := none, consumer := .waiting }
  | relock (hc : w.consumer = .woken) (hm : w.mqMtx = none) :
      ConsumerMove w { w with mqMtx := some .consumer, consumer := .test }
  | take (x : α) (xs : List α) (hc : w.consumer = .take) (hq : w.blockedMq = x :: xs) :
      ConsumerMove w { w with blockedMq := xs, popped := w.popped ++ [x], consumer := .notify }
  | notify (hc : w.consumer = .notify) :
      ConsumerMove w { w with producer := w.producer.notified, consumer := .leave }
  | leave (hc : w.consumer = .leave) : ConsumerMove w { w with mqMtx := none, consumer := .loop }

variable {maxQueueSize : Nat} {w w' : BlockedMQ α}

theorem producerStep_moves (h : producerStep maxQueueSize w = .ok w') :
    ProducerMove maxQueueSize w w' := by
  cases hp : w.producer with
  | next =>
      simp only [producerStep, hp] at h
      split at h
      · cases h
        exact .store hp ‹_›
      · obtain ⟨t, htake, h⟩ := bind_ok h
        obtain ⟨hm, rfl⟩ := lock_ok htake
        cases h
        exact .enter _ _ hp ‹_› hm
  | test x =>
      simp only [producerStep, hp] at h
      cases h
      by_cases hq : w.blockedMq.length = maxQueueSize
      · rw [if_pos hq]
        exact .full x hp hq
      · rw [if_neg hq]
        exact .room x hp hq
  | full x =>
      simp only [producerStep, hp] at h
      cases h
      exact .sleep x hp
  | waiting x =>
      simp only [producerStep, hp] at h
      exact nomatch h
  | woken x =>
      simp only [producerStep, hp] at h
      obtain ⟨t, htake, h⟩ := bind_ok h
      obtain ⟨hm, rfl⟩ := lock_ok htake
      cases h
      exact .relock x hp hm
  | put x =>
      simp only [producerStep, hp] at h
      split at h
      · cases h
        exact .put x hp ‹_›
      · exact nomatch h
  | notify =>
      simp only [producerStep, hp] at h
      cases h
      exact .notify hp
  | leave =>
      simp only [producerStep, hp] at h
      cases h
      exact .leave hp
  | finished =>
      simp only [producerStep, hp] at h
      exact nomatch h

theorem consumerStep_moves (h : consumerStep w = .ok w') : ConsumerMove w w' := by
  cases hc : w.consumer with
  | loop =>
      simp only [consumerStep, hc] at h
      cases h
      by_cases hd : w.done = true
      · rw [if_pos hd]
        exact .sawDone hc hd
      · rw [if_neg hd]
        exact .more hc (Bool.eq_false_iff.mpr hd)
  | sawDone =>
      simp only [consumerStep, hc] at h
      obtain ⟨t, htake, h⟩ := bind_ok h
      obtain ⟨hm, rfl⟩ := lock_ok htake
      cases h
      exact .isEmpty hc hm
  | isEmpty =>
      simp only [consumerStep, hc] at h
      cases h
      by_cases hq : w.blockedMq = []
      · rw [if_pos (List.isEmpty_iff.mpr hq)]
        exact .exit hc hq
      · rw [if_neg (fun he => hq (List.isEmpty_iff.mp he))]
        exact .notYet hc hq
  | pop =>
      simp only [consumerStep, hc] at h
      obtain ⟨t, htake, h⟩ := bind_ok h
      obtain ⟨hm, rfl⟩ := lock_ok htake
      cases h
      exact .enter hc hm
  | test =>
      simp only [consumerStep, hc] at h
      cases h
      by_cases hq : w.blockedMq = []
      · rw [if_pos (List.isEmpty_iff.mpr hq)]
        exact .empty hc hq
      · rw [if_neg (fun he => hq (List.isEmpty_iff.mp he))]
        exact .found hc hq
  | readDone =>
      simp only [consumerStep, hc] at h
      cases h
      by_cases hd : w.done = true
      · rw [if_pos hd]
        exact .giveUp hc hd
      · rw [if_neg hd]
        exact .stay hc (Bool.eq_false_iff.mpr hd)
  | toWait =>
      simp only [consumerStep, hc] at h
      cases h
      exact .sleep hc
  | waiting =>
      simp only [consumerStep, hc] at h
      exact nomatch h
  | woken =>
      simp only [consumerStep, hc] at h
      obtain ⟨t, htake, h⟩ := bind_ok h
      obtain ⟨hm, rfl⟩ := lock_ok htake
      cases h
      exact .relock hc hm
  | take =>
      simp only [consumerStep, hc] at h
      cases hq : w.blockedMq with
      | nil =>
          simp only [hq] at h
          exact nomatch h
      | cons x xs =>
          simp only [hq] at h
          cases h
          exact .take x xs hc hq
  | notify =>
      simp only [consumerStep, hc] at h
      cases h
      exact .notify hc
  | leave =>
      simp only [consumerStep, hc] at h
      cases h
      exact .leave hc
  | exited =>
      simp only [consumerStep, hc] at h
      exact nomatch h

end BlockedMQ

end EDRStore
