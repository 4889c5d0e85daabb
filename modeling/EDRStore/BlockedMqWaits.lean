/-
# `EDRStore.BlockedMqWaits` — who can be asleep in `BlockedMQ`

An assertion at each place of either thread says what that thread knows of the
queue there (`AtProducer`, `AtConsumer`), and with the mutex they are kept by
every step (`Inv`).  A producer that sleeps left the queue full, a consumer that
sleeps left it empty, or somebody is about to wake it; so the two are never
asleep at once.

What the invariant does not give is that a sleeping consumer will be woken.
Between its reading `_done` as false and the end of its wait a store of `_done`
goes unheard, for the store wakes nobody.  `Heard` is the condition that no store
falls there.  With it no run strands the consumer, and a run that cannot go on
has handed over every item (`heard_run_ends`); a store that violates it strands
the consumer at once, or with the only step that is left.
-/
import EDRStore.BlockedMq

namespace EDRStore

namespace BlockedMQ

variable {α : Type} {maxQueueSize : Nat} {w w' : BlockedMQ α}

/-! ## What holds at each place -/

/-- Where the producer is, the queue is as it found it. -/
def AtProducer (maxQueueSize : Nat) (w : BlockedMQ α) : Prop :=
  match w.producer with
  | .full _ => w.blockedMq.length = maxQueueSize
  | .waiting _ => w.blockedMq.length = maxQueueSize ∨ w.consumer = .notify
  | .put _ => w.blockedMq.length < maxQueueSize
  | .finished => w.todo = []
  | _ => True

/-- Where the consumer is, the queue is as it found it, and so is `_done` where
it read true. -/
def AtConsumer (w : BlockedMQ α) : Prop :=
  match w.consumer with
  | .readDone | .toWait => w.blockedMq = []
  | .waiting => w.blockedMq = [] ∨ w.producer = .notify
  | .take => w.blockedMq ≠ []
  | .sawDone | .isEmpty => w.done = true
  | .exited => w.done = true ∧ w.blockedMq = []
  | _ => True

/-- The mutex is where the threads say. -/
structure Mutex (w : BlockedMQ α) : Prop where
  producer : w.mqMtx = some .producer ↔ w.producer.locked = true
  consumer : w.mqMtx = some .consumer ↔ w.consumer.locked = true

/-- What every step keeps: the mutex is where the threads say, the queue as each
of them left it, and no item is lost. -/
structure Inv (maxQueueSize : Nat) (items : List α) (w : BlockedMQ α) : Prop where
  mutex : Mutex w
  bound : w.blockedMq.length ≤ maxQueueSize
  atProducer : AtProducer maxQueueSize w
  atConsumer : AtConsumer w
  finished : w.done = true ↔ w.producer = .finished
  order : w.popped ++ (w.blockedMq ++ (w.producer.item ++ w.todo)) = items

theorem inv_init (items : List α) : Inv maxQueueSize items (init items) where
  mutex := ⟨by simp [init, ProducerPc.locked], by simp [init, ConsumerPc.locked]⟩
  bound := Nat.zero_le _
  atProducer := trivial
  atConsumer := trivial
  finished := by simp [init]
  order := rfl

namespace Mutex

theorem free (h : Mutex w) (hm : w.mqMtx = none) :
    w.producer.locked = false ∧ w.consumer.locked = false := by
  have hp := h.producer
  have hc := h.consumer
  simp only [hm, reduceCtorEq, false_iff, Bool.not_eq_true] at hp hc
  exact ⟨hp, hc⟩

/-- The two threads exclude each other. -/
theorem consumer_out (h : Mutex w) (hp : w.producer.locked = true) :
    w.consumer.locked = false := by
  have hc := h.consumer
  rw [h.producer.mpr hp] at hc
  simpa using hc

theorem producer_out (h : Mutex w) (hc : w.consumer.locked = true) :
    w.producer.locked = false := by
  have hp := h.producer
  rw [h.consumer.mpr hc] at hp
  simpa using hp

/-- Whoever wants the mutex gets it while neither has it. -/
theorem lock_eq (h : Mutex w) (hp : w.producer.locked = false) (hc : w.consumer.locked = false)
    (side : Side) : w.lock side = .ok { w with mqMtx := some side } := by
  have hnone : w.mqMtx = none := by
    cases hm : w.mqMtx with
    | none => rfl
    | some side =>
        cases side with
        | producer => rw [h.producer.mp hm] at hp; exact nomatch hp
        | consumer => rw [h.consumer.mp hm] at hc; exact nomatch hc
  rw [lock, if_pos hnone]

theorem keep (h : Mutex w) (hm : w'.mqMtx = w.mqMtx)
    (hp : w'.producer.locked = w.producer.locked)
    (hc : w'.consumer.locked = w.consumer.locked) : Mutex w' where
  producer := by rw [hm, hp]; exact h.producer
  consumer := by rw [hm, hc]; exact h.consumer

theorem takenByProducer (hm : w'.mqMtx = some .producer) (hp : w'.producer.locked = true)
    (hc : w'.consumer.locked = false) : Mutex w' where
  producer := iff_of_true hm hp
  consumer := by rw [hm, hc]; simp

theorem takenByConsumer (hm : w'.mqMtx = some .consumer) (hp : w'.producer.locked = false)
    (hc : w'.consumer.locked = true) : Mutex w' where
  producer := by rw [hm, hp]; simp
  consumer := iff_of_true hm hc

theorem released (hm : w'.mqMtx = none) (hp : w'.producer.locked = false)
    (hc : w'.consumer.locked = false) : Mutex w' where
  producer := by rw [hm, hp]; simp
  consumer := by rw [hm, hc]; simp

end Mutex

/-- The consumer's place does not change, nor does the queue. -/
theorem AtConsumer.frame (h : AtConsumer w) (hc : w'.consumer = w.consumer)
    (hq : w'.blockedMq = w.blockedMq) (hd : w.done = true → w'.done = true)
    (hn : w.producer ≠ .notify) : AtConsumer w' := by
  unfold AtConsumer at h ⊢
  rw [hc, hq]
  cases hpc : w.consumer with
  | sawDone | isEmpty => rw [hpc] at h; exact hd h
  | exited => rw [hpc] at h; exact ⟨hd h.1, h.2⟩
  | waiting => rw [hpc] at h; exact Or.inl (h.resolve_right hn)
  | readDone | toWait | take => rw [hpc] at h; exact h
  | loop | pop | test | woken | notify | leave => trivial

/-- Only a sleeping consumer is moved by `notify_all`. -/
theorem AtConsumer.notified (h : AtConsumer w) (hc : w'.consumer = w.consumer.notified)
    (hq : w'.blockedMq = w.blockedMq) (hd : w'.done = w.done) : AtConsumer w' := by
  unfold AtConsumer at h ⊢
  rw [hc, hq, hd]
  cases hpc : w.consumer with
  | waiting => trivial
  | sawDone | isEmpty | exited => rw [hpc] at h; exact h
  | readDone | toWait | take => rw [hpc] at h; exact h
  | loop | pop | test | woken | notify | leave => trivial

/-- An item put into the queue, by a producer that has the mutex and so is not
finished; if the consumer sleeps, it will be woken. -/
theorem AtConsumer.put (h : AtConsumer w) (hout : w.consumer.locked = false)
    (hd : w.done = false) (hc : w'.consumer = w.consumer) (hn : w'.producer = .notify) :
    AtConsumer w' := by
  unfold AtConsumer at h ⊢
  rw [hc]
  cases hpc : w.consumer with
  | waiting => exact Or.inr hn
  | sawDone => rw [hpc] at h; exact nomatch hd.symm.trans h
  | exited => rw [hpc] at h; exact nomatch hd.symm.trans h.1
  | isEmpty | readDone | toWait | take => rw [hpc] at hout; exact nomatch hout
  | loop | pop | test | woken | notify | leave => trivial

/-- The producer's place does not change, nor does the queue. -/
theorem AtProducer.frame (h : AtProducer maxQueueSize w) (hp : w'.producer = w.producer)
    (hq : w'.blockedMq = w.blockedMq) (ht : w'.todo = w.todo)
    (hn : w.consumer ≠ .notify) : AtProducer maxQueueSize w' := by
  unfold AtProducer at h ⊢
  rw [hp, hq, ht]
  cases hpc : w.producer with
  | waiting x => rw [hpc] at h; exact Or.inl (h.resolve_right hn)
  | full | put | finished => rw [hpc] at h; exact h
  | next | test | woken | notify | leave => trivial

/-- Only a sleeping producer is moved by `notify_all`. -/
theorem AtProducer.notified (h : AtProducer maxQueueSize w)
    (hp : w'.producer = w.producer.notified) (hq : w'.blockedMq = w.blockedMq)
    (ht : w'.todo = w.todo) : AtProducer maxQueueSize w' := by
  unfold AtProducer at h ⊢
  rw [hp, hq, ht]
  cases hpc : w.producer with
  | waiting x => trivial
  | full | put | finished => rw [hpc] at h; exact h
  | next | test | woken | notify | leave => trivial

/-- An item taken from the queue, by a consumer that has the mutex; if the
producer sleeps, it will be woken. -/
theorem AtProducer.take (h : AtProducer maxQueueSize w) (hout : w.producer.locked = false)
    (hp : w'.producer = w.producer) (ht : w'.todo = w.todo) (hn : w'.consumer = .notify) :
    AtProducer maxQueueSize w' := by
  unfold AtProducer at h ⊢
  rw [hp, ht]
  cases hpc : w.producer with
  | waiting x => exact Or.inr hn
  | finished => rw [hpc] at h; exact h
  | full | put => rw [hpc] at hout; exact nomatch hout
  | next | test | woken | notify | leave => trivial

/-! ## Every step keeps it -/

/-- The producer goes on, the queue stays. -/
theorem Inv.producerAt {items : List α} (hi : Inv maxQueueSize items w) {m : Option Side}
    {pc : ProducerPc α} {rest : List α} (hopen : w.producer ≠ .finished)
    (hn : w.producer ≠ .notify) (hpc : pc ≠ .finished)
    (hitems : pc.item ++ rest = w.producer.item ++ w.todo)
    (hm : Mutex { w with mqMtx := m, producer := pc, todo := rest })
    (hat : AtProducer maxQueueSize { w with mqMtx := m, producer := pc, todo := rest }) :
    Inv maxQueueSize items { w with mqMtx := m, producer := pc, todo := rest } where
  mutex := hm
  bound := hi.bound
  atProducer := hat
  atConsumer := hi.atConsumer.frame rfl rfl id hn
  finished := hi.finished.trans (iff_of_false hopen hpc)
  order := by
    rw [← hi.order, ← hitems]

/-- The consumer goes on, the queue stays. -/
theorem Inv.consumerAt {items : List α} (hi : Inv maxQueueSize items w) {m : Option Side}
    {pc : ConsumerPc} (hn : w.consumer ≠ .notify)
    (hm : Mutex { w with mqMtx := m, consumer := pc })
    (hat : AtConsumer { w with mqMtx := m, consumer := pc }) :
    Inv maxQueueSize items { w with mqMtx := m, consumer := pc } :=
  { hi with
    mutex := hm
    atProducer := hi.atProducer.frame rfl rfl rfl hn
    atConsumer := hat }

theorem Inv.producer {items : List α} (hi : Inv maxQueueSize items w)
    (h : ProducerMove maxQueueSize w w') : Inv maxQueueSize items w' := by
  have hplace := hi.atProducer
  have hdone := hi.finished
  have horder := hi.order
  unfold AtProducer at hplace
  cases h with
  | store hp ht =>
      rw [hp, ht] at horder
      exact
        { mutex := hi.mutex.keep rfl (by rw [hp]; rfl) rfl
          bound := hi.bound
          atProducer := ht
          atConsumer := hi.atConsumer.frame rfl rfl (fun _ => rfl) (by rw [hp]; nofun)
          finished := iff_of_true rfl rfl
          order := by rw [ht]; exact horder }
  | enter x xs hp ht hm =>
      refine hi.producerAt (by rw [hp]; nofun) (by rw [hp]; nofun) nofun (by rw [hp, ht]; rfl)
        ?_ trivial
      exact .takenByProducer rfl rfl (hi.mutex.free hm).2
  | full x hp hq =>
      refine hi.producerAt (by rw [hp]; nofun) (by rw [hp]; nofun) nofun (by rw [hp]; rfl) ?_ hq
      exact hi.mutex.keep rfl (by rw [hp]; rfl) rfl
  | room x hp hq =>
      refine hi.producerAt (by rw [hp]; nofun) (by rw [hp]; nofun) nofun (by rw [hp]; rfl) ?_ ?_
      · exact hi.mutex.keep rfl (by rw [hp]; rfl) rfl
      · exact Nat.lt_of_le_of_ne hi.bound hq
  | sleep x hp =>
      rw [hp] at hplace
      refine hi.producerAt (by rw [hp]; nofun) (by rw [hp]; nofun) nofun (by rw [hp]; rfl) ?_
        (Or.inl hplace)
      exact .released rfl rfl (hi.mutex.consumer_out (by rw [hp]; rfl))
  | relock x hp hm =>
      refine hi.producerAt (by rw [hp]; nofun) (by rw [hp]; nofun) nofun (by rw [hp]; rfl)
        ?_ trivial
      exact .takenByProducer rfl rfl (hi.mutex.free hm).2
  | put x hp hq =>
      rw [hp] at horder
      have hopen : w.done = false := by
        rw [Bool.eq_false_iff]
        intro hd
        rw [hdone, hp] at hd
        exact nomatch hd
      have hbound : (w.blockedMq ++ [x]).length ≤ maxQueueSize := by
        rw [List.length_append, List.length_singleton]
        exact hq
      exact
        { mutex := hi.mutex.keep rfl (by rw [hp]; rfl) rfl
          bound := hbound
          atProducer := trivial
          atConsumer := hi.atConsumer.put (hi.mutex.consumer_out (by rw [hp]; rfl)) hopen rfl rfl
          finished := by rw [hdone, hp]; exact iff_of_false nofun nofun
          order := by rw [← horder, List.append_assoc]; rfl }
  | notify hp =>
      rw [hp] at horder
      exact
        { mutex := hi.mutex.keep rfl (by rw [hp]; rfl) (ConsumerPc.locked_notified _)
          bound := hi.bound
          atProducer := trivial
          atConsumer := hi.atConsumer.notified rfl rfl rfl
          finished := by rw [hdone, hp]; exact iff_of_false nofun nofun
          order := horder }
  | leave hp =>
      refine hi.producerAt (by rw [hp]; nofun) (by rw [hp]; nofun) nofun (by rw [hp]; rfl)
        ?_ trivial
      exact .released rfl rfl (hi.mutex.consumer_out (by rw [hp]; rfl))

theorem Inv.consumer {items : List α} (hi : Inv maxQueueSize items w)
    (h : ConsumerMove w w') : Inv maxQueueSize items w' := by
  have hplace := hi.atConsumer
  unfold AtConsumer at hplace
  cases h with
  | more hc hd =>
      refine hi.consumerAt (by rw [hc]; nofun) ?_ trivial
      exact hi.mutex.keep rfl rfl (by rw [hc]; rfl)
  | sawDone hc hd =>
      refine hi.consumerAt (by rw [hc]; nofun) ?_ hd
      exact hi.mutex.keep rfl rfl (by rw [hc]; rfl)
  | isEmpty hc hm =>
      rw [hc] at hplace
      refine hi.consumerAt (by rw [hc]; nofun) ?_ hplace
      exact .takenByConsumer rfl (hi.mutex.free hm).1 rfl
  | exit hc hq =>
      rw [hc] at hplace
      refine hi.consumerAt (by rw [hc]; nofun) ?_ ⟨hplace, hq⟩
      exact .released rfl (hi.mutex.producer_out (by rw [hc]; rfl)) rfl
  | notYet hc hq =>
      refine hi.consumerAt (by rw [hc]; nofun) ?_ trivial
      exact .released rfl (hi.mutex.producer_out (by rw [hc]; rfl)) rfl
  | enter hc hm =>
      refine hi.consumerAt (by rw [hc]; nofun) ?_ trivial
      exact .takenByConsumer rfl (hi.mutex.free hm).1 rfl
  | empty hc hq =>
      refine hi.consumerAt (by rw [hc]; nofun) ?_ hq
      exact hi.mutex.keep rfl rfl (by rw [hc]; rfl)
  | found hc hq =>
      refine hi.consumerAt (by rw [hc]; nofun) ?_ hq
      exact hi.mutex.keep rfl rfl (by rw [hc]; rfl)
  | giveUp hc hd =>
      refine hi.consumerAt (by rw [hc]; nofun) ?_ trivial
      exact hi.mutex.keep rfl rfl (by rw [hc]; rfl)
  | stay hc hd =>
      rw [hc] at hplace
      refine hi.consumerAt (by rw [hc]; nofun) ?_ hplace
      exact hi.mutex.keep rfl rfl (by rw [hc]; rfl)
  | sleep hc =>
      rw [hc] at hplace
      refine hi.consumerAt (by rw [hc]; nofun) ?_ (Or.inl hplace)
      exact .released rfl (hi.mutex.producer_out (by rw [hc]; rfl)) rfl
  | relock hc hm =>
      refine hi.consumerAt (by rw [hc]; nofun) ?_ trivial
      exact .takenByConsumer rfl (hi.mutex.free hm).1 rfl
  | take x xs hc hq =>
      have hbound := hi.bound
      have horder := hi.order
      rw [hq] at hbound horder
      exact
        { mutex := hi.mutex.keep rfl rfl (by rw [hc]; rfl)
          bound := Nat.le_of_succ_le hbound
          atProducer := hi.atProducer.take (hi.mutex.producer_out (by rw [hc]; rfl)) rfl rfl rfl
          atConsumer := trivial
          finished := hi.finished
          order := by rw [← horder, List.append_assoc]; rfl }
  | notify hc =>
      exact
        { mutex := hi.mutex.keep rfl (ProducerPc.locked_notified _) (by rw [hc]; rfl)
          bound := hi.bound
          atProducer := hi.atProducer.notified rfl rfl rfl
          atConsumer := trivial
          finished := hi.finished.trans ProducerPc.notified_eq_finished.symm
          order := by
            rw [← hi.order]
            show _ ++ (_ ++ (w.producer.notified.item ++ _)) = _
            rw [ProducerPc.item_notified] }
  | leave hc =>
      refine hi.consumerAt (by rw [hc]; nofun) ?_ trivial
      exact .released rfl (hi.mutex.producer_out (by rw [hc]; rfl)) rfl

/-- Waking up for no reason. -/
theorem Inv.wake {items : List α} (hi : Inv maxQueueSize items w) {side : Side}
    (h : step maxQueueSize w (.wake side) = .ok w') : Inv maxQueueSize items w' := by
  cases side with
  | producer =>
      simp only [step] at h
      split at h
      case h_1 x hp =>
        cases h
        refine hi.producerAt (by rw [hp]; nofun) (by rw [hp]; nofun) nofun (by rw [hp]; rfl)
          ?_ trivial
        exact hi.mutex.keep rfl (by rw [hp]; rfl) rfl
      case h_2 => exact nomatch h
  | consumer =>
      simp only [step] at h
      split at h
      case h_1 hc =>
        cases h
        refine hi.consumerAt (by rw [hc]; nofun) ?_ trivial
        exact hi.mutex.keep rfl rfl (by rw [hc]; rfl)
      case h_2 => exact nomatch h

theorem inv_step {items : List α} {a : MqAction} (hi : Inv maxQueueSize items w)
    (h : step maxQueueSize w a = .ok w') : Inv maxQueueSize items w' := by
  cases a with
  | run side =>
      cases side with
      | producer => exact hi.producer (producerStep_moves h)
      | consumer => exact hi.consumer (consumerStep_moves h)
  | wake side => exact hi.wake h

theorem inv_reach {items : List α} {G : BlockedMQ α → MqAction → Prop}
    (h : Reach (step maxQueueSize) G (init items) w) : Inv maxQueueSize items w :=
  h.inv (Inv maxQueueSize items) (inv_init items) fun _ _ _ hi _ hs => inv_step hi hs

/-! ## Asleep at once -/

/-- Full and empty at once is too much. -/
theorem Inv.not_bothWaiting {items : List α} (hi : Inv maxQueueSize items w)
    (hcap : 1 ≤ maxQueueSize) : ¬ BothWaiting w := by
  rintro ⟨⟨x, hp⟩, hc⟩
  have hplaceP := hi.atProducer
  have hplaceC := hi.atConsumer
  simp only [AtProducer, AtConsumer, hp, hc, reduceCtorEq, or_false] at hplaceP hplaceC
  rw [hplaceC, List.length_nil] at hplaceP
  omega

/-! ## Stranded -/

theorem stranded_of {items : List α} (hi : Inv maxQueueSize items w)
    (hp : w.producer = .finished) (hc : w.consumer = .waiting) : Stranded maxQueueSize w := by
  have hplace := hi.atConsumer
  simp only [AtConsumer, hc, hp, reduceCtorEq, or_false] at hplace
  refine ⟨hp, hc, hplace, fun side w' h => ?_⟩
  cases side with
  | producer =>
      simp only [step, producerStep, hp] at h
      cases h
  | consumer =>
      simp only [step, consumerStep, hc] at h
      cases h

/-- Once the producer is gone, the consumer is not on its way to sleep. -/
def Awake (w : BlockedMQ α) : Prop :=
  w.producer = .finished → w.consumer ≠ .toWait ∧ w.consumer ≠ .waiting

theorem awake_producer (hg : Heard w (.run .producer)) (h : ProducerMove maxQueueSize w w') :
    Awake w' := by
  cases h with
  | store hp ht => exact fun _ => hg rfl hp ht
  | enter | full | room | sleep | relock | put | notify | leave => exact fun hf => nomatch hf

/-- A consumer that reads `_done` now reads true. -/
theorem awake_consumer {items : List α} (hi : Inv maxQueueSize items w) (ha : Awake w)
    (h : ConsumerMove w w') : Awake w' := by
  cases h with
  | stay hc hd =>
      intro hf
      have hdone := hi.finished.mpr hf
      rw [hd] at hdone
      exact nomatch hdone
  | sleep hc => exact fun hf => absurd hc (ha hf).1
  | more | sawDone | isEmpty | exit | notYet | enter | empty | found | giveUp | relock | take |
    notify | leave => exact fun _ => ⟨nofun, nofun⟩

theorem awake_step {items : List α} {a : MqAction} (hi : Inv maxQueueSize items w)
    (ha : Awake w) (hg : Heard w a) (h : step maxQueueSize w a = .ok w') : Awake w' := by
  cases a with
  | run side =>
      cases side with
      | producer => exact awake_producer hg (producerStep_moves h)
      | consumer => exact awake_consumer hi ha (consumerStep_moves h)
  | wake side =>
      cases side with
      | producer =>
          simp only [step] at h
          split at h
          case h_1 => cases h; exact fun hf => nomatch hf
          case h_2 => exact nomatch h
      | consumer =>
          simp only [step] at h
          split at h
          case h_1 => cases h; exact fun _ => ⟨nofun, nofun⟩
          case h_2 => exact nomatch h

theorem awake_reach {items : List α} (h : Reach (step maxQueueSize) Heard (init items) w) :
    Awake w := by
  have hboth : Inv maxQueueSize items w ∧ Awake w :=
    h.inv (fun w => Inv maxQueueSize items w ∧ Awake w) ⟨inv_init items, fun hf => nomatch hf⟩
      fun _ _ _ hi hg hs => ⟨inv_step hi.1 hs, awake_step hi.1 hi.2 hg hs⟩
  exact hboth.2

/-! ## Who can go on -/

/-- A producer that is neither asleep nor finished goes on, once the consumer has
given the mutex back. -/
theorem Inv.producer_goes {items : List α} (hi : Inv maxQueueSize items w)
    (hfree : w.consumer.locked = false) (hwait : ∀ x, w.producer ≠ .waiting x)
    (hend : w.producer ≠ .finished) : ∃ w', step maxQueueSize w (.run .producer) = .ok w' := by
  have hplace := hi.atProducer
  have hlock := fun hp => hi.mutex.lock_eq hp hfree .producer
  simp only [step, producerStep]
  cases hp : w.producer with
  | next =>
      cases ht : w.todo with
      | nil => exact ⟨_, rfl⟩
      | cons x xs => rw [hlock (by rw [hp]; rfl)]; exact ⟨_, rfl⟩
  | test x => exact ⟨_, rfl⟩
  | full x => exact ⟨_, rfl⟩
  | waiting x => exact absurd hp (hwait x)
  | woken x => rw [hlock (by rw [hp]; rfl)]; exact ⟨_, rfl⟩
  | put x =>
      simp only [AtProducer, hp] at hplace
      exact ⟨_, if_pos hplace⟩
  | notify => exact ⟨_, rfl⟩
  | leave => exact ⟨_, rfl⟩
  | finished => exact absurd hp hend

/-- And so does a consumer. -/
theorem Inv.consumer_goes {items : List α} (hi : Inv maxQueueSize items w)
    (hfree : w.producer.locked = false) (hwait : w.consumer ≠ .waiting)
    (hend : w.consumer ≠ .exited) : ∃ w', step maxQueueSize w (.run .consumer) = .ok w' := by
  have hplace := hi.atConsumer
  have hlock := fun hc => hi.mutex.lock_eq hfree hc .consumer
  simp only [step, consumerStep]
  cases hc : w.consumer with
  | loop => exact ⟨_, rfl⟩
  | sawDone => rw [hlock (by rw [hc]; rfl)]; exact ⟨_, rfl⟩
  | isEmpty => exact ⟨_, rfl⟩
  | pop => rw [hlock (by rw [hc]; rfl)]; exact ⟨_, rfl⟩
  | test => exact ⟨_, rfl⟩
  | readDone => exact ⟨_, rfl⟩
  | toWait => exact ⟨_, rfl⟩
  | waiting => exact absurd hc hwait
  | woken => rw [hlock (by rw [hc]; rfl)]; exact ⟨_, rfl⟩
  | take =>
      simp only [AtConsumer, hc] at hplace
      obtain ⟨x, xs, hq⟩ := List.exists_cons_of_ne_nil hplace
      rw [hq]
      exact ⟨_, rfl⟩
  | notify => exact ⟨_, rfl⟩
  | leave => exact ⟨_, rfl⟩
  | exited => exact absurd hc hend

/-- Where no thread can go on and no store went unheard, both are through, and
the consumer has got every item. -/
theorem Inv.ended_of_quiet {items : List α} (hi : Inv maxQueueSize items w) (ha : Awake w)
    (hcap : 1 ≤ maxQueueSize) (hquiet : ∀ side w', step maxQueueSize w (.run side) ≠ .ok w') :
    w.producer = .finished ∧ w.consumer = .exited ∧ w.popped = items := by
  have hconsumer : w.consumer.locked = false := by
    rw [Bool.eq_false_iff]
    intro hl
    obtain ⟨w', hw⟩ := hi.consumer_goes (hi.mutex.producer_out hl)
      (fun hc => by rw [hc] at hl; exact nomatch hl)
      (fun hc => by rw [hc] at hl; exact nomatch hl)
    exact hquiet .consumer w' hw
  have hproducer : w.producer.locked = false := by
    rw [Bool.eq_false_iff]
    intro hl
    obtain ⟨w', hw⟩ := hi.producer_goes hconsumer
      (fun x hp => by rw [hp] at hl; exact nomatch hl)
      (fun hp => by rw [hp] at hl; exact nomatch hl)
    exact hquiet .producer w' hw
  have hP : (∃ x, w.producer = .waiting x) ∨ w.producer = .finished := by
    by_contra h
    rw [not_or, not_exists] at h
    obtain ⟨w', hw⟩ := hi.producer_goes hconsumer h.1 h.2
    exact hquiet .producer w' hw
  have hC : w.consumer = .waiting ∨ w.consumer = .exited := by
    by_contra h
    rw [not_or] at h
    obtain ⟨w', hw⟩ := hi.consumer_goes hproducer h.1 h.2
    exact hquiet .consumer w' hw
  have hplaceP := hi.atProducer
  have hplaceC := hi.atConsumer
  have horder := hi.order
  rcases hC with hc | hc
  · rcases hP with hp | hp
    · exact absurd ⟨hp, hc⟩ (hi.not_bothWaiting hcap)
    · exact absurd hc (ha hp).2
  · simp only [AtConsumer, hc] at hplaceC
    have hp := hi.finished.mp hplaceC.1
    simp only [AtProducer, hp] at hplaceP
    rw [hplaceC.2, hp, hplaceP] at horder
    exact ⟨hp, hc, (List.append_nil _).symm.trans horder⟩

/-- A run that only stores `_done` where it is heard, and then stops, has handed
over every item. -/
theorem heard_run_ends {items : List α} (hcap : 1 ≤ maxQueueSize)
    (h : Reach (step maxQueueSize) Heard (init items) w)
    (hquiet : ∀ side w', step maxQueueSize w (.run side) ≠ .ok w') :
    w.producer = .finished ∧ w.consumer = .exited ∧ w.popped = items :=
  (inv_reach h).ended_of_quiet (awake_reach h) hcap hquiet

/-- After a store that goes unheard the consumer is stranded, or is with its next
step, and nothing else can happen before. -/
theorem stranded_of_unheard {items : List α} {a : MqAction} (hi : Inv maxQueueSize items w)
    (hg : ¬ Heard w a) (h : step maxQueueSize w a = .ok w') :
    Stranded maxQueueSize w' ∨
      ∃ w'', step maxQueueSize w' (.run .consumer) = .ok w'' ∧ Stranded maxQueueSize w'' ∧
        ∀ b t, step maxQueueSize w' b = .ok t → b = .run .consumer := by
  simp only [Heard, Classical.not_imp, not_and_or, not_not] at hg
  obtain ⟨rfl, hp, ht, hc⟩ := hg
  have hi' := inv_step hi h
  have hw' : w'.producer = .finished ∧ w'.consumer = w.consumer := by
    simp only [step, producerStep, hp, ht] at h
    cases h
    exact ⟨rfl, rfl⟩
  obtain ⟨hend, hsame⟩ := hw'
  rw [← hsame] at hc
  rcases hc with hc | hc
  · have hsleep : step maxQueueSize w' (.run .consumer) =
        .ok { w' with mqMtx := none, consumer := .waiting } := by
      simp only [step, consumerStep, hc]
    refine Or.inr ⟨_, hsleep, stranded_of (inv_step hi' hsleep) hend rfl, fun b t hb => ?_⟩
    cases b with
    | run side =>
        cases side with
        | producer =>
            simp only [step, producerStep, hend] at hb
            cases hb
        | consumer => rfl
    | wake side =>
        cases side with
        | producer =>
            simp only [step, hend] at hb
            cases hb
        | consumer =>
            simp only [step, hc] at hb
            cases hb
  · exact Or.inl (stranded_of hi' hend hc)

/-- The two sides are never asleep at once, in any run.  A consumer is stranded in
no run whose every store of `_done` is heard; and one is, at once or after the only
step left, wherever a store is not. -/
theorem unheard_strands {maxQueueSize : Nat} (hcap : 1 ≤ maxQueueSize) (items : List α) :
    (∀ w, Reach (step maxQueueSize) (fun _ _ => True) (init items) w → ¬ BothWaiting w) ∧
    (∀ w, Reach (step maxQueueSize) Heard (init items) w → ¬ Stranded maxQueueSize w) ∧
    (∀ w a w', Reach (step maxQueueSize) (fun _ _ => True) (init items) w → ¬ Heard w a →
      step maxQueueSize w a = .ok w' →
        Stranded maxQueueSize w' ∨
          ∃ w'', step maxQueueSize w' (.run .consumer) = .ok w'' ∧ Stranded maxQueueSize w'' ∧
            ∀ b t, step maxQueueSize w' b = .ok t → b = .run .consumer) := by
  refine ⟨fun w h => (inv_reach h).not_bothWaiting hcap, fun w h hs => ?_, ?_⟩
  · exact (awake_reach h hs.1).2 hs.2.1
  · exact fun w a w' h hg hs => stranded_of_unheard (inv_reach h) hg hs

/-- With room for one item. -/
theorem unheard_strands_one :
    (∀ w, Reach (step 1) (fun _ _ => True) (init [7, 8]) w → ¬ BothWaiting w) ∧
    (∀ w, Reach (step 1) Heard (init [7, 8]) w → ¬ Stranded 1 w) ∧
    (∀ w a w', Reach (step 1) (fun _ _ => True) (init [7, 8]) w → ¬ Heard w a →
      step 1 w a = .ok w' →
        Stranded 1 w' ∨
          ∃ w'', step 1 w' (.run .consumer) = .ok w'' ∧ Stranded 1 w'' ∧
            ∀ b t, step 1 w' b = .ok t → b = .run .consumer) :=
  unheard_strands (Nat.le_refl 1) [7, 8]

/-- One item is handed over; the consumer finds the queue empty, reads `_done` as
false and goes to sleep; then the producer stores `_done`. -/
def unheardRun : List MqAction :=
  List.replicate 5 (.run .producer) ++ List.replicate 11 (.run .consumer) ++ [.run .producer]

theorem store_unheard :
    Reach (step 1) (fun _ _ => True) (init [7]) (endOf (step 1) (init [7]) unheardRun) ∧
      Stranded 1 (endOf (step 1) (init [7]) unheardRun) := by
  have hreach : Reach (step 1) (fun _ _ => True) (init [7])
      (endOf (step 1) (init [7]) unheardRun) := endOf_reach (by decide +kernel) (by decide +kernel)
  exact ⟨hreach, stranded_of (inv_reach hreach) (by decide +kernel) (by decide +kernel)⟩

end BlockedMQ

end EDRStore
