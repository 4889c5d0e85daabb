/-
# `EDRStore.QueueOrder` — the queue under any interleaving of its two threads

`Inv` is the layout of the blocks together with what each thread knows at the
point where it is.  A fact about a thread survives the steps of the other one
for one of two reasons: it speaks of variables that only the thread itself
writes, or of something the other thread can only make more true (the tail block
moves away from the front block, an empty block ahead stays empty).

The consumer that leaves its loop has read `_done` first and looked at the
blocks one after the other; by then no block can fill up behind its back.
-/
import EDRStore.QueueCapacity

namespace EDRStore

open ReaderWriterQueue (Block Queue)

variable {α : Type} {size n : Nat}

/-- What has been put into the next block while the tail block is still the old one. -/
def EnqueuePc.ahead : EnqueuePc α → List α
  | .setTailBlock x => [x]
  | _ => []

namespace LckFreeMQ

/-! ## What each thread knows -/

/-- The producer found its block full; the consumer may have made room there
since, if it is the consumer's block too. -/
def Full (size : Nat) (q : Queue α) (c : Nat → List α) (d : Nat) : Prop :=
  d = 0 ∨ (c q.tailBlock).length + 1 = size

/-- The producer's copy of the front of `b` shows room. -/
def Room (size : Nat) (b : Block α) : Prop := (b.tail + 1) % size ≠ b.localFront

def AtProducer (size n : Nat) (q : Queue α) (c : Nat → List α) (d : Nat) : EnqueuePc α → Prop
  | .write _ => Room size q.tail
  | .setTail x => Room size q.tail ∧ q.tail.data q.tail.tail = some x
  | .checkNext _ => Full size q c d
  | .readNext _ => Full size q c d ∧ d + 1 < n
  | .writeNext _ => Full size q c d ∧ d + 1 < n ∧ Room size (q.blocks q.tail.next)
  | .setNextTail x => Full size q c d ∧ d + 1 < n ∧ Room size (q.blocks q.tail.next) ∧
      (q.blocks q.tail.next).data (q.blocks q.tail.next).tail = some x
  | .setTailBlock _ => Full size q c d
  | _ => True

def AtConsumer (n : Nat) (q : Queue α) (c : Nat → List α) (d : Nat) (done : Bool) :
    DequeuePc α → Prop
  | .sawDone => done = true
  | .size block result => done = true ∧ ∃ j < n, block = (q.frontBlock + j) % n ∧
      (result = 0 ↔ ∀ i < j, c ((q.frontBlock + i) % n) = [])
  | .readAgain => 1 ≤ d
  | .readNext => 1 ≤ d ∧ c q.frontBlock = []
  | .setFrontBlock => 1 ≤ d ∧ c q.frontBlock = [] ∧
      (q.blocks q.front.next).front ≠ (q.blocks q.front.next).localTail
  | .element => q.front.front ≠ q.front.localTail
  | .ended => done = true ∧ ∀ j < n, c ((q.frontBlock + j) % n) = []
  | _ => True

/-- What holds between any two steps. -/
structure Inv (size n : Nat) (s : LckFreeMQ α) (c : Nat → List α) (d : Nat) : Prop where
  layout : Layout size n s.queue s.consumer.inHand s.producer.ahead c d
  producer : AtProducer size n s.queue c d s.producer
  consumer : AtConsumer n s.queue c d s.done s.consumer
  done : s.done = true ↔ s.producer = .ended
  order : s.pushed = s.popped ++ (s.consumer.inHand ++ segs n s.queue.frontBlock d c)

/-! ## What the other thread leaves alone -/

/-- From `q` to `q'`, no variable of the consumer changes. -/
structure KeepsFronts (q q' : Queue α) : Prop where
  frontBlock : q'.frontBlock = q.frontBlock
  front : ∀ i, (q'.blocks i).front = (q.blocks i).front
  localTail : ∀ i, (q'.blocks i).localTail = (q.blocks i).localTail
  next : ∀ i, (q'.blocks i).next = (q.blocks i).next

/-- From `q` to `q'`, no variable of the producer changes, nor what is in the
slots it is filling. -/
structure KeepsTails (n : Nat) (q q' : Queue α) : Prop where
  tailBlock : q'.tailBlock = q.tailBlock
  tail : ∀ i, (q'.blocks i).tail = (q.blocks i).tail
  localFront : ∀ i, (q'.blocks i).localFront = (q.blocks i).localFront
  next : ∀ i, (q'.blocks i).next = (q.blocks i).next
  data : ∀ i < n, (q'.blocks i).data (q.blocks i).tail = (q.blocks i).data (q.blocks i).tail

section Frames

variable {q q' : Queue α} {b : Block α} {c c' : Nat → List α} {d d' i : Nat}
  {inHand ahead : List α}

theorem KeepsFronts.refl : KeepsFronts q q := ⟨rfl, fun _ => rfl, fun _ => rfl, fun _ => rfl⟩

theorem KeepsTails.refl : KeepsTails n q q :=
  ⟨rfl, fun _ => rfl, fun _ => rfl, fun _ => rfl, fun _ _ => rfl⟩

/-- A field of a block that is not changed there is not changed anywhere. -/
theorem setBlock_field {β : Type} (f : Block α → β) (h : f b = f (q.blocks i)) (k : Nat) :
    f ((q.setBlock i b).blocks k) = f (q.blocks k) := by
  rcases eq_or_ne k i with rfl | hne
  · rw [Queue.setBlock_self, h]
  · rw [Queue.setBlock_of_ne _ _ _ hne]

/-- The next block, when it is the one that changes. -/
theorem next_setBlock (h : b.next = (q.blocks q.tail.next).next) :
    (q.setBlock q.tail.next b).blocks (q.setBlock q.tail.next b).tail.next = b := by
  rw [show (q.setBlock q.tail.next b).tail.next = q.tail.next from
    setBlock_field Block.next h q.tailBlock, Queue.setBlock_self]

theorem keepsFronts_setBlock (hfront : b.front = (q.blocks i).front)
    (hlocal : b.localTail = (q.blocks i).localTail) (hnext : b.next = (q.blocks i).next) :
    KeepsFronts q (q.setBlock i b) where
  frontBlock := rfl
  front := setBlock_field Block.front hfront
  localTail := setBlock_field Block.localTail hlocal
  next := setBlock_field Block.next hnext

theorem keepsTails_setBlock (htail : b.tail = (q.blocks i).tail)
    (hlocal : b.localFront = (q.blocks i).localFront) (hnext : b.next = (q.blocks i).next)
    (hdata : b.data (q.blocks i).tail = (q.blocks i).data (q.blocks i).tail) :
    KeepsTails n q (q.setBlock i b) where
  tailBlock := rfl
  tail := setBlock_field Block.tail htail
  localFront := setBlock_field Block.localFront hlocal
  next := setBlock_field Block.next hnext
  data := by
    intro k _
    rcases eq_or_ne k i with rfl | hne
    · rw [Queue.setBlock_self, hdata]
    · rw [Queue.setBlock_of_ne _ _ _ hne]

/-- What the producer knows survives the consumer's steps. -/
theorem AtProducer.frame {pc : EnqueuePc α} (h : AtProducer size n q c d pc)
    (hl : Layout size n q inHand ahead c d) (hq : KeepsTails n q q') (hd : d' ≤ d)
    (hfull : Full size q c d → Full size q' c' d') : AtProducer size n q' c' d' pc := by
  have hroom : ∀ i, Room size (q.blocks i) → Room size (q'.blocks i) := by
    intro i hroom
    rwa [Room, hq.tail, hq.localFront]
  have hnext : q'.tail.next = q.tail.next := by rw [Queue.tail, Queue.tail, hq.tailBlock, hq.next]
  have htail : q'.tail = q'.blocks q.tailBlock := by rw [Queue.tail, hq.tailBlock]
  cases pc with
  | write x =>
      rw [AtProducer, htail]
      exact hroom _ h
  | setTail x =>
      rw [AtProducer, htail, hq.tail, hq.data _ hl.tail_lt]
      exact ⟨hroom _ h.1, h.2⟩
  | checkNext x => exact hfull h
  | readNext x => exact ⟨hfull h.1, Nat.lt_of_le_of_lt (Nat.succ_le_succ hd) h.2⟩
  | writeNext x =>
      rw [AtProducer, hnext]
      exact ⟨hfull h.1, Nat.lt_of_le_of_lt (Nat.succ_le_succ hd) h.2.1, hroom _ h.2.2⟩
  | setNextTail x =>
      rw [AtProducer, hnext, hq.tail, hq.data _ hl.tail_next_lt]
      exact ⟨hfull h.1, Nat.lt_of_le_of_lt (Nat.succ_le_succ hd) h.2.1, hroom _ h.2.2.1, h.2.2.2⟩
  | setTailBlock x => exact hfull h
  | idle => exact trivial
  | enqueue x => exact trivial
  | readFront x => exact trivial
  | refused x => exact trivial
  | ended => exact trivial

/-- What the consumer knows survives the steps of a producer that has not set `_done`. -/
theorem AtConsumer.frame {pc : DequeuePc α} (h : AtConsumer n q c d false pc)
    (hq : KeepsFronts q q') (hd : d ≤ d')
    (hfront : 1 ≤ d → c' q.frontBlock = c q.frontBlock) : AtConsumer n q' c' d' false pc := by
  have hblock : q'.front = q'.blocks q.frontBlock := by rw [Queue.front, hq.frontBlock]
  cases pc with
  | sawDone => cases h
  | size block result => cases h.1
  | readAgain => exact h.trans hd
  | readNext => exact ⟨h.1.trans hd, by rw [hq.frontBlock, hfront h.1, h.2]⟩
  | setFrontBlock =>
      refine ⟨h.1.trans hd, by rw [hq.frontBlock, hfront h.1, h.2.1], ?_⟩
      rw [hblock, hq.next, hq.front, hq.localTail]
      exact h.2.2
  | element =>
      rw [AtConsumer, hblock, hq.front, hq.localTail]
      exact h
  | ended => cases h.1
  | loop => exact trivial
  | pop => exact trivial
  | readTail => exact trivial
  | checkTail => exact trivial
  | setFront v => exact trivial
  | nothing => exact trivial

end Frames

namespace Inv

variable {s s' : LckFreeMQ α} {c c' : Nat → List α} {d d' : Nat} {q' : Queue α}

/-! ## The producer's steps -/

theorem done_false (h : Inv size n s c d) (hp : s.producer ≠ .ended) : s.done = false :=
  Bool.eq_false_iff.mpr fun hd => hp (h.done.mp hd)

/-- The producer goes on to `pc'`. -/
theorem producerTo (h : Inv size n s c d) {pc' : EnqueuePc α} {pushed' : List α}
    (hp : s.producer ≠ .ended) (hp' : pc' ≠ .ended)
    (hl : Layout size n q' s.consumer.inHand pc'.ahead c' d')
    (hat : AtProducer size n q' c' d' pc') (hq : KeepsFronts s.queue q') (hd : d ≤ d')
    (hfront : 1 ≤ d → c' s.queue.frontBlock = c s.queue.frontBlock)
    (horder : pushed' = s.popped ++ (s.consumer.inHand ++ segs n s.queue.frontBlock d' c')) :
    Inv size n { s with queue := q', producer := pc', pushed := pushed' } c' d' where
  layout := hl
  producer := hat
  consumer := by
    have hc := h.consumer
    rw [h.done_false hp] at hc ⊢
    exact hc.frame hq hd hfront
  done := by
    rw [h.done_false hp]
    exact iff_of_false Bool.false_ne_true hp'
  order := by rw [horder, hq.frontBlock]

/-- It goes on without a change to what the blocks hold. -/
theorem producerTo_same (h : Inv size n s c d) {pc' : EnqueuePc α} (hp : s.producer ≠ .ended)
    (hp' : pc' ≠ .ended) (hl : Layout size n q' s.consumer.inHand pc'.ahead c d)
    (hat : AtProducer size n q' c d pc') (hq : KeepsFronts s.queue q') :
    Inv size n { s with queue := q', producer := pc' } c d :=
  h.producerTo hp hp' hl hat hq (Nat.le_refl d) (fun _ => rfl) h.order

theorem produce_ok (h : Inv size n s c d) (hs : s.produce = .ok s') :
    ∃ c' d', d ≤ d' ∧ Inv size n s' c' d' := by
  have hl := h.layout
  have hat := h.producer
  have hmask := hl.mask hl.tail_lt
  have hmaskNext := hl.mask hl.tail_next_lt
  cases hp : s.producer with
  | idle => simp only [produce, hp] at hs; cases hs
  | ended => simp only [produce, hp] at hs; cases hs
  | enqueue x =>
      simp only [produce, hp] at hs
      rw [hp] at hl
      rw [show s.queue.tail.sizeMask = (s.queue.blocks s.queue.tailBlock).sizeMask from rfl, hmask]
        at hs
      cases hs
      refine ⟨c, d, Nat.le_refl d, h.producerTo_same (by rw [hp]; rintro ⟨⟩) ?_ ?_ ?_ .refl⟩
      · split <;> rintro ⟨⟩
      · split <;> exact hl
      · split
        · rename_i hne
          exact hne
        · trivial
  | readFront x =>
      simp only [produce, hp] at hs
      rw [hp] at hl
      rw [show s.queue.tail.sizeMask = (s.queue.blocks s.queue.tailBlock).sizeMask from rfl, hmask]
        at hs
      cases hs
      have hl' := hl.readFront hl.tail_lt
      refine ⟨c, d, Nat.le_refl d, h.producerTo_same (by rw [hp]; rintro ⟨⟩) ?_ ?_ ?_
        (keepsFronts_setBlock rfl rfl rfl)⟩
      · split <;> rintro ⟨⟩
      · split <;> exact hl'
      · split
        · rename_i hne
          show Room size (Queue.tail _)
          rw [Queue.tail, Queue.setBlock_tailBlock, Queue.setBlock_self]
          exact hne
        · rename_i heq
          -- nothing of a block is in hand but of the front block
          rcases Nat.eq_zero_or_pos d with hd | hd
          · exact Or.inl hd
          · have hne : s.queue.tailBlock ≠ s.queue.frontBlock :=
              fun heq => absurd (hl.tail_eq_front_iff.mp heq) (Nat.ne_of_gt hd)
            have hfull := (hl.other_block hl.tail_lt hne).next_eq_front_iff.mp (not_not.mp heq)
            rw [Nat.zero_add] at hfull
            exact Or.inr hfull
  | write x =>
      simp only [produce, hp] at hs
      rw [hp] at hl hat
      cases hs
      refine ⟨c, d, Nat.le_refl d, h.producerTo_same (by rw [hp]; rintro ⟨⟩) (by rintro ⟨⟩)
        (hl.write hl.tail_lt _) ?_ (keepsFronts_setBlock rfl rfl rfl)⟩
      rw [AtProducer, Queue.tail, Queue.setBlock_tailBlock, Queue.setBlock_self]
      exact ⟨hat, Function.update_self _ _ _⟩
  | setTail x =>
      simp only [produce, hp] at hs
      rw [hp] at hl hat
      rw [show s.queue.tail.sizeMask = (s.queue.blocks s.queue.tailBlock).sizeMask from rfl, hmask]
        at hs
      cases hs
      have hl' := hl.setTail hat.1 hat.2
      refine ⟨_, d, Nat.le_refl d, h.producerTo (by rw [hp]; rintro ⟨⟩) (by rintro ⟨⟩) hl' trivial
        (keepsFronts_setBlock rfl rfl rfl) (Nat.le_refl d) ?_ ?_⟩
      · intro hd
        refine Function.update_of_ne (fun heq => ?_) _ _
        exact absurd (hl.tail_eq_front_iff.mp heq.symm) (Nat.ne_of_gt hd)
      · rw [h.order, hl.tail_eq, segs_push hl.d_lt]
        simp only [List.append_assoc]
  | checkNext x =>
      simp only [produce, hp] at hs
      rw [hp] at hl hat
      cases hs
      refine ⟨c, d, Nat.le_refl d, h.producerTo_same (by rw [hp]; rintro ⟨⟩) ?_ ?_ ?_ .refl⟩
      · split <;> rintro ⟨⟩
      · split <;> exact hl
      · split
        · rename_i hne
          have hd : d + 1 ≠ n := fun heq => hne (hl.tail_next_eq_front_iff.mpr heq)
          exact ⟨hat, Nat.lt_of_le_of_ne hl.d_lt hd⟩
        · trivial
  | readNext x =>
      simp only [produce, hp] at hs
      rw [hp] at hl hat
      split at hs
      · rename_i heq
        cases hs
        refine ⟨c, d, Nat.le_refl d, h.producerTo_same (by rw [hp]; rintro ⟨⟩) (by rintro ⟨⟩)
          (hl.readFront hl.tail_next_lt) ⟨hat.1, hat.2, ?_⟩ (keepsFronts_setBlock rfl rfl rfl)⟩
        rw [next_setBlock (by rfl)]
        intro hround
        have hsize := (hl.tail_next_block hat.2).next_eq_front_iff.mp hround
        have hwide := hl.wide (Nat.lt_of_le_of_lt (Nat.le_add_left 1 d) hat.2)
        rw [List.length_nil] at hsize
        omega
      · cases hs
  | writeNext x =>
      simp only [produce, hp] at hs
      rw [hp] at hl hat
      cases hs
      refine ⟨c, d, Nat.le_refl d, h.producerTo_same (by rw [hp]; rintro ⟨⟩) (by rintro ⟨⟩)
        (hl.write hl.tail_next_lt _) ⟨hat.1, hat.2.1, ?_⟩ (keepsFronts_setBlock rfl rfl rfl)⟩
      rw [next_setBlock (by rfl)]
      exact ⟨hat.2.2, Function.update_self _ _ _⟩
  | setNextTail x =>
      simp only [produce, hp] at hs
      rw [hp] at hl hat
      rw [hmaskNext] at hs
      cases hs
      have hl' := hl.setNextTail hat.2.1 hat.2.2.1 hat.2.2.2
      refine ⟨_, d, Nat.le_refl d, h.producerTo (by rw [hp]; rintro ⟨⟩) (by rintro ⟨⟩) hl' ?_
        (keepsFronts_setBlock rfl rfl rfl) (Nat.le_refl d) ?_ ?_⟩
      · refine hat.1.imp id fun hfull => ?_
        rw [Queue.setBlock_tailBlock, Function.update_of_ne, hfull]
        rw [hl.tail_next, hl.tail_eq]
        exact fun heq => absurd (Slots.slot_injective hl.d_lt hat.2.1 heq) (by omega)
      · intro _
        exact Function.update_of_ne (hl.tail_next_ne_front hat.2.1).symm _ _
      · rw [h.order, segs_congr]
        intro j hj
        symm
        refine Function.update_of_ne (fun heq => ?_) _ _
        rw [hl.tail_next] at heq
        exact absurd (Slots.slot_injective (hj.trans_lt hl.d_lt) hat.2.1 heq) (by omega)
  | setTailBlock x =>
      simp only [produce, hp] at hs
      rw [hp] at hl hat
      cases hs
      refine ⟨c, d + 1, Nat.le_succ d, h.producerTo (by rw [hp]; rintro ⟨⟩) (by rintro ⟨⟩)
        (hl.setTailBlock hat) trivial
        ⟨rfl, fun _ => rfl, fun _ => rfl, fun _ => rfl⟩ (Nat.le_succ d) (fun _ => rfl) ?_⟩
      have hlt : d + 1 < n := hl.ahead_lt (List.cons_ne_nil _ _)
      rw [h.order, segs_succ, hl.beyond (d + 1) (Nat.lt_succ_self d) hlt, if_pos rfl]
      simp only [List.append_assoc]
      rfl
  | refused x =>
      simp only [produce, hp] at hs
      rw [hp] at hl
      cases hs
      exact ⟨c, d, Nat.le_refl d, h.producerTo_same (by rw [hp]; rintro ⟨⟩) (by rintro ⟨⟩) hl
        trivial .refl⟩

/-- The producer's assertion holds. -/
theorem produce_error (h : Inv size n s c d) {e : QueueStop} (hs : s.produce = .error e) :
    e = .disabled := by
  have hl := h.layout
  have hat := h.producer
  cases hp : s.producer with
  | readNext x =>
      simp only [produce, hp] at hs
      rw [hp] at hl hat
      rw [if_pos ((hl.tail_next_block hat.2).front_eq_tail_iff.mpr rfl)] at hs
      cases hs
  | idle => simp only [produce, hp] at hs; cases hs; rfl
  | ended => simp only [produce, hp] at hs; cases hs; rfl
  | enqueue x => simp only [produce, hp] at hs; cases hs
  | readFront x => simp only [produce, hp] at hs; cases hs
  | write x => simp only [produce, hp] at hs; cases hs
  | setTail x => simp only [produce, hp] at hs; cases hs
  | checkNext x => simp only [produce, hp] at hs; cases hs
  | writeNext x => simp only [produce, hp] at hs; cases hs
  | setNextTail x => simp only [produce, hp] at hs; cases hs
  | setTailBlock x => simp only [produce, hp] at hs; cases hs
  | refused x => simp only [produce, hp] at hs; cases hs

/-! ## The consumer's steps -/

/-- The consumer goes on to `pc'`. -/
theorem consumerTo (h : Inv size n s c d) {pc' : DequeuePc α} {popped' : List α}
    (hl : Layout size n q' pc'.inHand s.producer.ahead c' d')
    (hat : AtConsumer n q' c' d' s.done pc') (hq : KeepsTails n s.queue q') (hd : d' ≤ d)
    (hfull : Full size s.queue c d → Full size q' c' d')
    (horder : s.pushed = popped' ++ (pc'.inHand ++ segs n q'.frontBlock d' c')) :
    Inv size n { s with queue := q', consumer := pc', popped := popped' } c' d' where
  layout := hl
  producer := h.producer.frame h.layout hq hd hfull
  consumer := hat
  done := h.done
  order := horder

/-- It goes on, with nothing in its hand, without a change to what the blocks hold. -/
theorem consumerTo_same (h : Inv size n s c d) {pc' : DequeuePc α}
    (hin : s.consumer.inHand = []) (hin' : pc'.inHand = [])
    (hl : Layout size n q' [] s.producer.ahead c d)
    (hat : AtConsumer n q' c d s.done pc') (hq : KeepsTails n s.queue q')
    (hfront : q'.frontBlock = s.queue.frontBlock) :
    Inv size n { s with queue := q', consumer := pc' } c d := by
  refine h.consumerTo (by rw [hin']; exact hl) hat hq (Nat.le_refl d) ?_ ?_
  · rw [Full, Full, hq.tailBlock]
    exact id
  · rw [hin', hfront, ← hin]
    exact h.order

/-- One block further in `size_approx`. -/
theorem size_step (h : Inv size n s c d) {block result : Nat}
    (hc : s.consumer = .size block result) :
    ∃ j < n, block = (s.queue.frontBlock + j) % n ∧
      (s.queue.blocks block).next = (s.queue.frontBlock + (j + 1)) % n ∧
      (result + ((2 ^ 64 + (s.queue.blocks block).tail - (s.queue.blocks block).front) % 2 ^ 64 &&&
          (s.queue.blocks block).sizeMask) = 0 ↔
        ∀ i < j + 1, c ((s.queue.frontBlock + i) % n) = []) := by
  have hl := h.layout
  have hat := h.consumer
  rw [hc] at hl hat
  obtain ⟨-, j, hj, rfl, hempty⟩ := hat
  have hlt : (s.queue.frontBlock + j) % n < n := Nat.mod_lt _ (Nat.zero_lt_of_lt hj)
  refine ⟨j, hj, rfl, by rw [hl.next _ hlt, Slots.succ_slot], ?_⟩
  rw [Nat.add_eq_zero_iff, hempty, (hl.block _ hlt).size_eq hl.pow]
  have hin : (if (s.queue.frontBlock + j) % n = s.queue.frontBlock then
      (DequeuePc.size ((s.queue.frontBlock + j) % n) result : DequeuePc α).inHand.length
      else 0) = 0 := ite_self 0
  rw [hin, Nat.zero_add, List.length_eq_zero_iff]
  constructor
  · rintro ⟨hbefore, hcur⟩ i hi
    rcases Nat.lt_or_eq_of_le (Nat.le_of_lt_succ hi) with hij | rfl
    · exact hbefore i hij
    · exact hcur
  · exact fun hall => ⟨fun i hi => hall i (hi.trans (Nat.lt_succ_self j)), hall j (Nat.lt_succ_self j)⟩

theorem consume_ok (h : Inv size n s c d) (hs : s.consume = .ok s') :
    ∃ c' d', Inv size n s' c' d' := by
  have hl := h.layout
  have hat := h.consumer
  have hmask := hl.mask hl.front_lt
  cases hc : s.consumer with
  | ended => simp only [consume, hc] at hs; cases hs
  | loop =>
      simp only [consume, hc] at hs
      rw [hc] at hl
      cases hs
      refine ⟨c, d, h.consumerTo_same (by rw [hc]; rfl) ?_ hl ?_ .refl rfl⟩
      · split <;> rfl
      · split
        · rename_i hdone
          exact hdone
        · trivial
  | sawDone =>
      simp only [consume, hc] at hs
      rw [hc] at hl hat
      cases hs
      refine ⟨c, d, h.consumerTo_same (by rw [hc]; rfl) rfl hl ⟨hat, 0, ?_, ?_, ?_⟩ .refl rfl⟩
      · exact Nat.zero_lt_of_lt hl.front_lt
      · exact (Nat.mod_eq_of_lt hl.front_lt).symm
      · exact iff_of_true rfl fun i hi => absurd hi (Nat.not_lt_zero i)
  | size block result =>
      obtain ⟨j, hj, -, hnext, hempty⟩ := h.size_step hc
      simp only [consume, hc] at hs
      rw [hc] at hl hat
      cases hs
      have hround : (s.queue.blocks block).next = s.queue.frontBlock ↔ j + 1 = n := by
        rw [hnext, ← Slots.succ_slot]
        exact Slots.succ_slot_eq_self_iff hl.front_lt hj
      refine ⟨c, d, h.consumerTo_same (by rw [hc]; rfl) ?_ hl ?_ .refl rfl⟩
      · split
        · rfl
        · split <;> rfl
      · split
        · rename_i hne
          have hlt : j + 1 < n := Nat.lt_of_le_of_ne hj fun heq => hne (hround.mpr heq)
          exact ⟨hat.1, j + 1, hlt, hnext, hempty⟩
        · rename_i heq
          split
          · rename_i hzero
            have hn : j + 1 = n := hround.mp (not_not.mp heq)
            exact ⟨hat.1, fun i hi => hempty.mp hzero i (hn ▸ hi)⟩
          · trivial
  | pop =>
      simp only [consume, hc] at hs
      rw [hc] at hl
      cases hs
      refine ⟨c, d, h.consumerTo_same (by rw [hc]; rfl) ?_ hl ?_ .refl rfl⟩
      · split <;> rfl
      · split
        · rename_i hne
          exact hne
        · trivial
  | readTail =>
      simp only [consume, hc] at hs
      rw [hc] at hl
      cases hs
      refine ⟨c, d, h.consumerTo_same (by rw [hc]; rfl) ?_ (hl.readTail hl.front_lt) ?_
        (keepsTails_setBlock rfl rfl rfl rfl) rfl⟩
      · split <;> rfl
      · split
        · rename_i hne
          rw [AtConsumer, Queue.front, Queue.setBlock_frontBlock, Queue.setBlock_self]
          exact hne
        · trivial
  | checkTail =>
      simp only [consume, hc] at hs
      rw [hc] at hl
      cases hs
      refine ⟨c, d, h.consumerTo_same (by rw [hc]; rfl) ?_ hl ?_ .refl rfl⟩
      · split <;> rfl
      · split
        · rename_i hne
          exact Nat.pos_of_ne_zero fun hd => hne (hl.tail_eq_front_iff.mpr hd).symm
        · trivial
  | readAgain =>
      simp only [consume, hc] at hs
      rw [hc] at hl hat
      cases hs
      refine ⟨c, d, h.consumerTo_same (by rw [hc]; rfl) ?_ (hl.readTail hl.front_lt) ?_
        (keepsTails_setBlock rfl rfl rfl rfl) rfl⟩
      · split <;> rfl
      · split
        · rename_i hne
          rw [AtConsumer, Queue.front, Queue.setBlock_frontBlock, Queue.setBlock_self]
          exact hne
        · rename_i heq
          exact ⟨hat, hl.front_block.front_eq_tail_iff.mp (not_not.mp heq)⟩
  | readNext =>
      simp only [consume, hc] at hs
      rw [hc] at hl hat
      split at hs
      · rename_i hne
        cases hs
        have hlt : s.queue.front.next < n := by
          rw [hl.front_next]
          exact Nat.mod_lt _ (Nat.zero_lt_of_lt hl.front_lt)
        refine ⟨c, d, h.consumerTo_same (by rw [hc]; rfl) rfl (hl.readTail hlt)
          ⟨hat.1, hat.2, ?_⟩ (keepsTails_setBlock rfl rfl rfl rfl) rfl⟩
        have hnext : (s.queue.setBlock s.queue.front.next
            { s.queue.blocks s.queue.front.next with
              localTail := (s.queue.blocks s.queue.front.next).tail }).front.next =
            s.queue.front.next := setBlock_field Block.next (by rfl) _
        rw [hnext, Queue.setBlock_self]
        exact hne
      · cases hs
  | setFrontBlock =>
      simp only [consume, hc] at hs
      rw [hc] at hl hat
      cases hs
      obtain ⟨d, rfl⟩ : ∃ e, d = e + 1 := ⟨d - 1, (Nat.sub_add_cancel hat.1).symm⟩
      refine ⟨c, d, h.consumerTo (hl.setFrontBlock hat.2.1) hat.2.2
        ⟨rfl, fun _ => rfl, fun _ => rfl, fun _ => rfl, fun _ _ => rfl⟩ (Nat.le_succ d) ?_ ?_⟩
      · exact fun hfull => Or.inr (hfull.resolve_left (Nat.succ_ne_zero d))
      · rw [h.order, segs_cons hl.front_lt, hat.2.1, hl.front_next, hc]
        rfl
  | element =>
      simp only [consume, hc] at hs
      rw [hc] at hl hat
      obtain ⟨v, l, hcv⟩ := List.exists_cons_of_ne_nil (hl.front_block.ne_nil_of_localTail hat)
      have hb := hl.front_block
      rw [hcv] at hb
      rw [hb.head] at hs
      cases hs
      refine ⟨_, d, h.consumerTo (hl.element hcv hat) trivial
        (keepsTails_setBlock rfl rfl rfl (Function.update_of_ne ?_ _ _)) (Nat.le_refl d) ?_ ?_⟩
      · exact fun heq => absurd (hb.front_eq_tail_iff.mp heq.symm) (List.cons_ne_nil v l)
      · rintro (hd | hfull)
        · exact Or.inl hd
        · rcases Nat.eq_zero_or_pos d with hd | hd
          · exact Or.inl hd
          · refine Or.inr ?_
            rw [Queue.setBlock_tailBlock, Function.update_of_ne]
            · exact hfull
            · exact fun heq => absurd (hl.tail_eq_front_iff.mp heq) (Nat.ne_of_gt hd)
      · rw [h.order, hc, segs_take hl.front_lt hl.d_lt hcv]
        rfl
  | setFront v =>
      simp only [consume, hc] at hs
      rw [hc] at hl
      rw [show s.queue.front.sizeMask = (s.queue.blocks s.queue.frontBlock).sizeMask from rfl,
        hmask] at hs
      cases hs
      refine ⟨c, d, h.consumerTo hl.setFront trivial
        (keepsTails_setBlock rfl rfl rfl rfl) (Nat.le_refl d) id ?_⟩
      rw [h.order, hc, List.append_assoc]
      rfl
  | nothing =>
      simp only [consume, hc] at hs
      rw [hc] at hl
      cases hs
      exact ⟨c, d, h.consumerTo_same (by rw [hc]; rfl) rfl hl trivial .refl rfl⟩

/-- The consumer's assertion holds, and where it takes an object there is one. -/
theorem consume_error (h : Inv size n s c d) {e : QueueStop} (hs : s.consume = .error e) :
    e = .disabled := by
  have hl := h.layout
  have hat := h.consumer
  cases hc : s.consumer with
  | readNext =>
      simp only [consume, hc] at hs
      rw [hc] at hl hat
      have hlt : 1 < n := Nat.lt_of_le_of_lt hat.1 hl.d_lt
      have hne : s.queue.front.next ≠ s.queue.frontBlock := by
        rw [hl.front_next]
        exact fun heq => absurd ((hl.slot_eq_front_iff hlt).mp heq) Nat.one_ne_zero
      have hb := hl.other_block (by rw [hl.front_next]; exact Nat.mod_lt _ (by omega)) hne
      rw [if_pos] at hs
      · cases hs
      · intro heq
        have hnil := hb.front_eq_tail_iff.mp heq
        rw [hl.front_next] at hnil
        exact hl.filled 1 (Nat.le_refl 1) hat.1 hnil
  | element =>
      simp only [consume, hc] at hs
      rw [hc] at hl hat
      obtain ⟨v, l, hcv⟩ := List.exists_cons_of_ne_nil (hl.front_block.ne_nil_of_localTail hat)
      have hb := hl.front_block
      rw [hcv] at hb
      rw [hb.head] at hs
      cases hs
  | ended => simp only [consume, hc] at hs; cases hs; rfl
  | loop => simp only [consume, hc] at hs; cases hs
  | sawDone => simp only [consume, hc] at hs; cases hs
  | size block result => simp only [consume, hc] at hs; cases hs
  | pop => simp only [consume, hc] at hs; cases hs
  | readTail => simp only [consume, hc] at hs; cases hs
  | checkTail => simp only [consume, hc] at hs; cases hs
  | readAgain => simp only [consume, hc] at hs; cases hs
  | setFrontBlock => simp only [consume, hc] at hs; cases hs
  | setFront v => simp only [consume, hc] at hs; cases hs
  | nothing => simp only [consume, hc] at hs; cases hs

end Inv

/-! ## Every run -/

theorem step_ok {s s' : LckFreeMQ α} {c : Nat → List α} {d : Nat} {a : QueueAction α}
    (h : Inv size n s c d) (hs : step s a = .ok s') : ∃ c' d', Inv size n s' c' d' := by
  cases a with
  | push x =>
      simp only [step] at hs
      split at hs
      · rename_i hp
        cases hs
        have hl := h.layout
        rw [hp] at hl
        exact ⟨c, d, h.producerTo_same (by rw [hp]; rintro ⟨⟩) (by rintro ⟨⟩) hl
        trivial .refl⟩
      · cases hs
  | finish =>
      simp only [step] at hs
      split at hs
      · rename_i hp
        cases hs
        have hl := h.layout
        have hat := h.consumer
        rw [hp] at hl
        rw [h.done_false (by rw [hp]; rintro ⟨⟩)] at hat
        refine ⟨c, d, ⟨hl, trivial, ?_, iff_of_true rfl rfl, h.order⟩⟩
        cases hc : s.consumer with
        | sawDone => rfl
        | size block result => rw [hc] at hat; cases hat.1
        | ended => rw [hc] at hat; cases hat.1
        | _ => rw [hc] at hat; exact hat
      · cases hs
  | produce =>
      obtain ⟨c', d', -, h'⟩ := h.produce_ok hs
      exact ⟨c', d', h'⟩
  | consume => exact h.consume_ok hs

theorem step_error {s : LckFreeMQ α} {c : Nat → List α} {d : Nat} {a : QueueAction α}
    {e : QueueStop} (h : Inv size n s c d) (hs : step s a = .error e) : e = .disabled := by
  cases a with
  | push x =>
      simp only [step] at hs
      split at hs
      · cases hs
      · cases hs; rfl
  | finish =>
      simp only [step] at hs
      split at hs
      · cases hs
      · cases hs; rfl
  | produce => exact h.produce_error hs
  | consume => exact h.consume_error hs

/-- The slot the consumer empties is not the one the producer fills. -/
theorem Inv.not_racing {s : LckFreeMQ α} {c : Nat → List α} {d : Nat} (h : Inv size n s c d) :
    ¬ s.Racing := by
  rintro ⟨hc, ⟨x, hp, hblock, hslot⟩ | ⟨x, hp, hblock, hslot⟩⟩
  · have hl := h.layout
    have hat := h.consumer
    rw [hc] at hl hat
    have hne := hl.front_block.ne_nil_of_localTail hat
    rw [Queue.tail, hblock] at hslot
    exact hne (hl.front_block.front_eq_tail_iff.mp hslot.symm)
  · have hat := h.producer
    rw [hp] at hat
    exact h.layout.tail_next_ne_front hat.2.1 hblock

/-! ## Every run -/

theorem inv_new {maxQueueSize : UInt32}
    (h : ReaderWriterQueue.blockLayout maxQueueSize.toUInt64 = (size, n)) (hn : 0 < n)
    (hwide : 1 < n → 1 < size) (hpow : ∃ p, p ≤ 64 ∧ size = 2 ^ p) :
    Inv size n (new maxQueueSize : LckFreeMQ α) (fun _ => []) 0 where
  layout := ReaderWriterQueue.layout_new h hn hwide hpow
  producer := trivial
  consumer := trivial
  done := iff_of_false Bool.false_ne_true (by rintro ⟨⟩)
  order := by
    show [] = [] ++ ([] ++ segs n 0 0 fun _ => [])
    rw [segs_eq_nil fun _ _ => rfl]
    rfl

/-- No name of a block leaves the circle, and no index its block. -/
structure InBounds (size n : Nat) (q : Queue α) : Prop where
  frontBlock : q.frontBlock < n
  tailBlock : q.tailBlock < n
  next : ∀ i < n, (q.blocks i).next < n
  slots : ∀ i < n, (q.blocks i).front < size ∧ (q.blocks i).tail < size

theorem Inv.inBounds {s : LckFreeMQ α} {c : Nat → List α} {d : Nat} (h : Inv size n s c d) :
    InBounds size n s.queue where
  frontBlock := h.layout.front_lt
  tailBlock := h.layout.tail_lt
  next := by
    intro i hi
    rw [h.layout.next i hi]
    exact Nat.mod_lt _ (Nat.zero_lt_of_lt hi)
  slots := fun i hi => ⟨(h.layout.block i hi).front_lt, (h.layout.block i hi).tail_lt⟩

/-- A consumer that has ended has found every block empty. -/
theorem Inv.ended {s : LckFreeMQ α} {c : Nat → List α} {d : Nat} (h : Inv size n s c d)
    (hc : s.consumer = .ended) : s.done = true ∧ s.popped = s.pushed := by
  have hat := h.consumer
  rw [hc] at hat
  refine ⟨hat.1, ?_⟩
  rw [h.order, hc, segs_eq_nil fun j hj => hat.2 j (hj.trans_lt h.layout.d_lt)]
  exact (List.append_nil _).symm

/-- Whatever the threads do, in whatever order of their steps: what is popped,
and what is about to be, is the beginning of what was pushed; a consumer that has
ended has popped all of it; no assertion fails and no object is taken from raw
memory; the threads never touch one slot at once; and every access stays inside
the blocks that the constructor made. -/
theorem queue_safe (maxQueueSize : UInt32) {s : LckFreeMQ α}
    (h : Reach step (fun _ _ => True) (new maxQueueSize) s) :
    s.popped ++ s.consumer.inHand <+: s.pushed ∧
      (s.consumer = .ended → s.done = true ∧ s.popped = s.pushed) ∧
      (∀ a e, step s a = .error e → e = .disabled) ∧ ¬ s.Racing ∧
      InBounds (ReaderWriterQueue.blockLayout maxQueueSize.toUInt64).1
        (ReaderWriterQueue.blockLayout maxQueueSize.toUInt64).2 s.queue := by
  obtain ⟨size, n, hlayout, hn, hwide, hpow, -⟩ :=
    ReaderWriterQueue.blockLayout_spec maxQueueSize
  obtain ⟨c, d, hinv⟩ : ∃ c d, Inv size n s c d :=
    h.inv (fun s => ∃ c d, Inv size n s c d) ⟨_, _, inv_new hlayout hn hwide hpow⟩
      fun s a s' ⟨c, d, hs⟩ _ hstep => step_ok hs hstep
  refine ⟨?_, hinv.ended, fun a e => step_error hinv, hinv.not_racing, ?_⟩
  · rw [hinv.order, ← List.append_assoc]
    exact List.prefix_append _ _
  · rw [hlayout]
    exact hinv.inBounds

/-- Two items through a queue with room for one: the second is refused until the
first is popped. -/
def oneByOne : List (QueueAction Nat) :=
  [.push 1] ++ List.replicate 3 .produce ++ [.push 2] ++ List.replicate 3 .produce ++
    List.replicate 5 .consume ++ List.replicate 5 .produce ++ [.finish] ++
    List.replicate 10 .consume

theorem queue_safe_oneByOne :
    (endOf step (new 1) oneByOne).popped ++ (endOf step (new 1) oneByOne).consumer.inHand <+:
        (endOf step (new 1) oneByOne).pushed ∧
      ((endOf step (new 1) oneByOne).consumer = .ended →
        (endOf step (new 1) oneByOne).done = true ∧
        (endOf step (new 1) oneByOne).popped = (endOf step (new 1) oneByOne).pushed) ∧
      (∀ a e, step (endOf step (new 1) oneByOne) a = .error e → e = .disabled) ∧
      ¬ (endOf step (new 1) oneByOne).Racing ∧
      InBounds (ReaderWriterQueue.blockLayout 1).1 (ReaderWriterQueue.blockLayout 1).2
        (endOf step (new 1) oneByOne).queue :=
  queue_safe 1 (endOf_reach allowed_true (by decide +kernel))

example : (endOf step (new 1) oneByOne).consumer = .ended := by decide +kernel

end LckFreeMQ

end EDRStore
