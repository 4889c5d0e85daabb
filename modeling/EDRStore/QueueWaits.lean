/-
# `EDRStore.QueueWaits` — when a call on the queue fails, and when the consumer ends

`try_enqueue` may fail though there is room again, and `try_dequeue` though an
item has come: each decides on what it read a while ago.  `Watched` writes down
what the queue held meanwhile.  A refused item met a queue with all the items it
was made for at some time during the call, and a call of `Pop` that returns
nothing met an empty one.

Once `_done` is set the consumer goes on alone.  `remaining` falls with each of its
steps, so that it ends, with everything popped (`consumer_drains`).  A failing `Pop`
does not hold it up for ever: it can fail in this way only on what it read before
`_done` was set.
-/
import EDRStore.QueueOrder

namespace EDRStore

open ReaderWriterQueue (Block Queue)

variable {α : Type} {size n : Nat}

namespace LckFreeMQ

/-- The items pushed and not yet popped. -/
def held (s : LckFreeMQ α) : Nat := s.pushed.length - s.popped.length

theorem Inv.held_eq {s : LckFreeMQ α} {c : Nat → List α} {d : Nat} (h : Inv size n s c d) :
    s.held = s.consumer.inHand.length + (segs n s.queue.frontBlock d c).length := by
  rw [held, h.order, List.length_append, List.length_append, Nat.add_sub_cancel_left]

/-! ## What the steps of one thread leave alone -/

section Frames

variable {s s' : LckFreeMQ α}

theorem produce_frame (hs : s.produce = .ok s') :
    s'.consumer = s.consumer ∧ s'.popped = s.popped ∧ s'.done = s.done := by
  simp only [produce] at hs
  split at hs <;> (try split at hs) <;> cases hs <;> exact ⟨rfl, rfl, rfl⟩

theorem consume_frame (hs : s.consume = .ok s') :
    s'.producer = s.producer ∧ s'.pushed = s.pushed ∧ s'.done = s.done := by
  simp only [consume] at hs
  split at hs <;> (try split at hs) <;> cases hs <;> exact ⟨rfl, rfl, rfl⟩

/-- The producer comes to look at the next block from a full one. -/
theorem produce_to_checkNext {x : α} (hs : s.produce = .ok s') (hp : s'.producer = .checkNext x) :
    (s.queue.tail.tail + 1) &&& s.queue.tail.sizeMask = s.queue.tail.front ∧
      s'.pushed = s.pushed := by
  simp only [produce] at hs
  split at hs <;> (try split at hs) <;> cases hs <;> cases hp
  rename_i heq _
  exact ⟨not_not.mp heq, rfl⟩

/-- It is refused when the next block is the consumer's. -/
theorem produce_to_refused {x : α} (hs : s.produce = .ok s') (hp : s'.producer = .refused x) :
    s.producer = .checkNext x ∧ s.queue.tail.next = s.queue.frontBlock ∧ s'.pushed = s.pushed := by
  simp only [produce] at hs
  split at hs <;> (try split at hs) <;> cases hs <;> cases hp
  rename_i heq hc
  exact ⟨hc, not_not.mp heq, rfl⟩

/-- The consumer comes to look at the tail block from an empty one. -/
theorem consume_to_checkTail (hs : s.consume = .ok s') (hc : s'.consumer = .checkTail) :
    s.consumer = .readTail ∧ s.queue.front.front = s.queue.front.tail ∧
      s'.queue.frontBlock = s.queue.frontBlock ∧ s'.queue.tailBlock = s.queue.tailBlock ∧
      s'.popped = s.popped := by
  simp only [consume] at hs
  split at hs <;> (try split at hs) <;> cases hs <;> (try split at hc) <;>
    cases hc
  rename_i hc heq
  exact ⟨hc, not_not.mp heq, rfl, rfl, rfl⟩

/-- It gives up when the tail block is its own. -/
theorem consume_to_nothing (hs : s.consume = .ok s') (hc : s'.consumer = .nothing) :
    s.consumer = .checkTail ∧ s.queue.frontBlock = s.queue.tailBlock := by
  simp only [consume] at hs
  split at hs <;> (try split at hs) <;> cases hs <;> (try split at hc) <;>
    cases hc
  rename_i hc heq
  exact ⟨hc, not_not.mp heq⟩

end Frames

/-! ## Failing calls -/

/-- The queue with two marks: the most items it held since the producer was last at
the beginning of `try_enqueue`, and the fewest since the consumer was last at the
beginning of `try_dequeue`. -/
structure Watched (α : Type) where
  mq : LckFreeMQ α
  peak : Nat
  low : Nat

namespace Watched

def new (maxQueueSize : UInt32) : Watched α :=
  { mq := .new maxQueueSize, peak := 0, low := 0 }

def watch (w : Watched α) (s : LckFreeMQ α) : Watched α where
  mq := s
  peak :=
    match s.producer with
    | .enqueue _ => s.held
    | _ => max w.peak s.held
  low :=
    match s.consumer with
    | .pop => s.held
    | _ => min w.low s.held

def step (w : Watched α) (a : QueueAction α) : Except QueueStop (Watched α) :=
  w.mq.step a >>= fun s => .ok (w.watch s)

/-- What the marks show at the places where a call is about to fail. -/
structure Seen (size n : Nat) (w : Watched α) : Prop where
  checkNext : ∀ x, w.mq.producer = .checkNext x → size ≤ w.peak + 1
  refused : ∀ x, w.mq.producer = .refused x → ReaderWriterQueue.room size n ≤ w.peak
  checkTail : w.mq.consumer = .checkTail →
    w.low = 0 ∨ w.mq.queue.tailBlock ≠ w.mq.queue.frontBlock
  nothing : w.mq.consumer = .nothing → w.low = 0

variable {w w' : Watched α} {s : LckFreeMQ α} {c c' : Nat → List α} {d d' : Nat} {x : α}

theorem Seen.new {maxQueueSize : UInt32} : Seen (α := α) size n (.new maxQueueSize) where
  checkNext := by rintro x ⟨⟩
  refused := by rintro x ⟨⟩
  checkTail := by rintro ⟨⟩
  nothing := by rintro ⟨⟩

theorem peak_watch (hp : ∀ y, s.producer ≠ .enqueue y) :
    (w.watch s).peak = max w.peak s.held := by
  simp only [watch]

theorem low_watch (hc : s.consumer ≠ .pop) : (w.watch s).low = min w.low s.held := by
  simp only [watch]

/-- A full block is a full queue, if it is the only one. -/
theorem full_block (h : Inv size n w.mq c d)
    (hround : (w.mq.queue.tail.tail + 1) &&& w.mq.queue.tail.sizeMask = w.mq.queue.tail.front) :
    size ≤ w.mq.held + 1 := by
  have hl := h.layout
  rw [show w.mq.queue.tail.sizeMask = (w.mq.queue.blocks w.mq.queue.tailBlock).sizeMask from rfl,
    hl.mask hl.tail_lt] at hround
  have hsize := (hl.block _ hl.tail_lt).next_eq_front_iff.mp hround
  have hlast := length_last_le (c := c) (f := w.mq.queue.frontBlock) (n := n) (d := d)
  rw [← hl.tail_eq] at hlast
  rw [h.held_eq]
  split at hsize <;> omega

/-- So are full blocks all round. -/
theorem full_round (h : Inv size n w.mq c d) (hfull : Full size w.mq.queue c d)
    (hround : w.mq.queue.tail.next = w.mq.queue.frontBlock) (hn : n ≠ 1) :
    ReaderWriterQueue.room size n ≤ w.mq.held := by
  have hl := h.layout
  have hd := hl.tail_next_eq_front_iff.mp hround
  have htail : (c w.mq.queue.tailBlock).length + 1 = size := hfull.resolve_left (by omega)
  rw [hl.tail_eq] at htail
  have hall : ∀ j, 1 ≤ j → j ≤ d →
      (c ((w.mq.queue.frontBlock + j) % n)).length + 1 = size := by
    intro j hj hjd
    rcases Nat.lt_or_eq_of_le hjd with hlt | rfl
    · exact hl.full j hj hlt
    · exact htail
  have hle := mul_le_length hall
  rw [ReaderWriterQueue.room, if_neg hn, h.held_eq, show n - 1 = d by omega]
  exact hle.trans (Nat.le_add_left _ _)

theorem held_congr {s s' : LckFreeMQ α} (hpushed : s'.pushed = s.pushed)
    (hpopped : s'.popped = s.popped) : s'.held = s.held := by
  rw [held, held, hpushed, hpopped]

theorem Seen.produce (h : Inv size n w.mq c d) (hw : Seen size n w)
    (hs : w.mq.produce = .ok s) : Seen size n (w.watch s) := by
  obtain ⟨hconsumer, hpopped, -⟩ := produce_frame hs
  obtain ⟨c', d', hd, h'⟩ := h.produce_ok hs
  refine ⟨fun x hp => ?_, fun x hp => ?_, fun hc => ?_, fun hc => ?_⟩
  · have hp : s.producer = .checkNext x := hp
    obtain ⟨hround, hpushed⟩ := produce_to_checkNext hs hp
    have hfull := full_block h hround
    rw [peak_watch (by rw [hp]; rintro _ ⟨⟩), held_congr hpushed hpopped]
    omega
  · have hp : s.producer = .refused x := hp
    obtain ⟨hbefore, hround, hpushed⟩ := produce_to_refused hs hp
    rw [peak_watch (by rw [hp]; rintro _ ⟨⟩), held_congr hpushed hpopped]
    rcases eq_or_ne n 1 with rfl | hn
    · have hsize := hw.checkNext x hbefore
      rw [ReaderWriterQueue.room, if_pos rfl]
      omega
    · have hat := h.producer
      rw [hbefore] at hat
      exact (full_round h hat hround hn).trans (Nat.le_max_right _ _)
  · have hc : s.consumer = .checkTail := hc
    rw [low_watch (by rw [hc]; rintro ⟨⟩)]
    rcases hw.checkTail (hconsumer ▸ hc) with hlow | hne
    · exact Or.inl (by rw [hlow, Nat.zero_min])
    · refine Or.inr fun heq => hne (h.layout.tail_eq_front_iff.mpr ?_)
      have hzero := h'.layout.tail_eq_front_iff.mp heq
      omega
  · have hc : s.consumer = .nothing := hc
    rw [low_watch (by rw [hc]; rintro ⟨⟩), hw.nothing (hconsumer ▸ hc), Nat.zero_min]

theorem Seen.consume (h : Inv size n w.mq c d) (hw : Seen size n w)
    (hs : w.mq.consume = .ok s) : Seen size n (w.watch s) := by
  obtain ⟨hproducer, hpushed, -⟩ := consume_frame hs
  refine ⟨fun x hp => ?_, fun x hp => ?_, fun hc => ?_, fun hc => ?_⟩
  · have hp : s.producer = .checkNext x := hp
    have hsize := hw.checkNext x (hproducer ▸ hp)
    rw [peak_watch (by rw [hp]; rintro _ ⟨⟩)]
    omega
  · have hp : s.producer = .refused x := hp
    have hroom := hw.refused x (hproducer ▸ hp)
    rw [peak_watch (by rw [hp]; rintro _ ⟨⟩)]
    exact hroom.trans (Nat.le_max_left _ _)
  · have hc : s.consumer = .checkTail := hc
    obtain ⟨hbefore, hempty, hfront, htail, hpopped⟩ := consume_to_checkTail hs hc
    have hl := h.layout
    rw [hbefore] at hl
    have hnil := hl.front_block.front_eq_tail_iff.mp hempty
    rcases Nat.eq_zero_or_pos d with rfl | hd
    · refine Or.inl ?_
      rw [low_watch (by rw [hc]; rintro ⟨⟩), held_congr hpushed hpopped, h.held_eq, hbefore,
        segs_zero hl.front_lt, hnil]
      exact Nat.min_zero _
    · refine Or.inr ?_
      show s.queue.tailBlock ≠ s.queue.frontBlock
      rw [hfront, htail]
      exact fun heq => absurd (hl.tail_eq_front_iff.mp heq) (Nat.ne_of_gt hd)
  · have hc : s.consumer = .nothing := hc
    obtain ⟨hbefore, hblock⟩ := consume_to_nothing hs hc
    rw [low_watch (by rw [hc]; rintro ⟨⟩),
      (hw.checkTail hbefore).resolve_right (not_not.mpr hblock.symm), Nat.zero_min]

/-- A call that begins changes nothing the consumer has seen. -/
theorem Seen.call (hw : Seen size n w) (hc : s.consumer = w.mq.consumer)
    (hq : s.queue = w.mq.queue) (hnext : ∀ x, s.producer ≠ .checkNext x)
    (href : ∀ x, s.producer ≠ .refused x) : Seen size n (w.watch s) where
  checkNext := fun x hp => absurd hp (hnext x)
  refused := fun x hp => absurd hp (href x)
  checkTail := by
    intro hct
    have hct : s.consumer = .checkTail := hct
    rw [low_watch (by rw [hct]; rintro ⟨⟩)]
    refine (hw.checkTail (hc ▸ hct)).imp (fun hlow => by rw [hlow, Nat.zero_min]) ?_
    show _ → s.queue.tailBlock ≠ s.queue.frontBlock
    rw [hq]
    exact id
  nothing := by
    intro hnt
    have hnt : s.consumer = .nothing := hnt
    rw [low_watch (by rw [hnt]; rintro ⟨⟩), hw.nothing (hc ▸ hnt), Nat.zero_min]

theorem step_keeps {a : QueueAction α} (h : ∃ c d, Inv size n w.mq c d) (hw : Seen size n w)
    (hstep : w.step a = .ok w') : (∃ c d, Inv size n w'.mq c d) ∧ Seen size n w' := by
  obtain ⟨c, d, h⟩ := h
  obtain ⟨s, hs, hwatch⟩ := bind_ok hstep
  cases hwatch
  refine ⟨step_ok h hs, ?_⟩
  cases a with
  | produce => exact Seen.produce h hw hs
  | consume => exact Seen.consume h hw hs
  | push x =>
      simp only [LckFreeMQ.step] at hs
      split at hs
      · cases hs
        exact hw.call rfl rfl (by rintro _ ⟨⟩) (by rintro _ ⟨⟩)
      · cases hs
  | finish =>
      simp only [LckFreeMQ.step] at hs
      split at hs
      · cases hs
        exact hw.call rfl rfl (by rintro _ ⟨⟩) (by rintro _ ⟨⟩)
      · cases hs

/-- A `try_enqueue` that returns false met `max_queue_size` items at some time since
it began, and a `try_dequeue` that returns false met none. -/
theorem failing_calls (maxQueueSize : UInt32) {w : Watched α}
    (h : Reach step (fun _ _ => True) (new maxQueueSize) w) :
    (∀ x, w.mq.producer = .refused x → maxQueueSize.toNat ≤ w.peak) ∧
      (w.mq.consumer = .nothing → w.low = 0) := by
  obtain ⟨size, n, hlayout, hn, hwide, hpow, hroom⟩ :=
    ReaderWriterQueue.blockLayout_spec maxQueueSize
  have hinv : (∃ c d, Inv size n w.mq c d) ∧ Seen size n w :=
    h.inv (fun w => (∃ c d, Inv size n w.mq c d) ∧ Seen size n w)
      ⟨⟨_, _, inv_new hlayout hn hwide hpow⟩, Seen.new⟩
      fun w a w' ⟨hw, hseen⟩ _ hstep => step_keeps hw hseen hstep
  exact ⟨fun x hp => hroom.trans (hinv.2.refused x hp), hinv.2.nothing⟩

/-- The second item of the sample, before there is room for it. -/
theorem failing_calls_oneByOne :
    (∀ x, (endOf step (new 1) (oneByOne.take 8)).mq.producer = .refused x →
        1 ≤ (endOf step (new 1) (oneByOne.take 8)).peak) ∧
      ((endOf step (new 1) (oneByOne.take 8)).mq.consumer = .nothing →
        (endOf step (new 1) (oneByOne.take 8)).low = 0) :=
  failing_calls 1 (endOf_reach allowed_true (by decide +kernel))

example : (endOf step (new 1) (oneByOne.take 8)).mq.producer = .refused 2 := by decide +kernel

end Watched

/-! ## The end of a run -/

/-- How far the consumer at one place of its loop is from giving an item back, or
from its end if nothing is held.  One that found its block empty while it was the
tail block has the whole loop before it once more. -/
def toGo (n held frontBlock tailBlock : Nat) : DequeuePc α → Nat
  | .ended => 0
  | .setFront _ => 1
  | .element => 2
  | .setFrontBlock => 3
  | .readNext => 4
  | .readAgain => 5
  | .size block _ => (if held = 0 then 0 else 8) + (n - (n + block - frontBlock) % n)
  | .sawDone => (if held = 0 then 0 else 8) + (n + 1)
  | .loop => (if held = 0 then 0 else 8) + (n + 2)
  | .nothing => (if held = 0 then 0 else 8) + (n + 3)
  | .checkTail => if tailBlock = frontBlock then (if held = 0 then 0 else 8) + (n + 4) else 6
  | .readTail => if held = 0 then n + 5 else 7
  | .pop => if held = 0 then n + 6 else 8

theorem toGo_lt (held frontBlock tailBlock : Nat) (hn : 0 < n) (pc : DequeuePc α) :
    toGo n held frontBlock tailBlock pc < n + 13 := by
  have hfresh : (if held = 0 then 0 else 8) ≤ 8 := by split <;> omega
  have hmod : ∀ b, n - (n + b - frontBlock) % n ≤ n := fun b => Nat.sub_le _ _
  cases pc with
  | size block result => have := hmod block; simp only [toGo]; omega
  | checkTail => simp only [toGo]; split <;> omega
  | readTail => simp only [toGo]; split <;> omega
  | pop => simp only [toGo]; split <;> omega
  | _ => simp only [toGo]; omega

/-- How many steps the consumer has still to make once `_done` is set, at most. -/
def remaining (n : Nat) (s : LckFreeMQ α) : Nat :=
  s.held * (n + 13) + toGo n s.held s.queue.frontBlock s.queue.tailBlock s.consumer

/-- With nothing held, every block is empty. -/
theorem Inv.nil_of_held {s : LckFreeMQ α} {c : Nat → List α} {d : Nat} (h : Inv size n s c d)
    (hzero : s.held = 0) : d = 0 ∧ c s.queue.frontBlock = [] := by
  rw [h.held_eq] at hzero
  cases d with
  | zero =>
      rw [segs_zero h.layout.front_lt] at hzero
      exact ⟨rfl, List.length_eq_zero_iff.mp (Nat.add_eq_zero_iff.mp hzero).2⟩
  | succ d =>
      have hlast := h.layout.filled (d + 1) (Nat.le_add_left 1 d) (Nat.le_refl _)
      rw [segs_succ, List.length_append] at hzero
      exact absurd (List.length_eq_zero_iff.mp (by omega)) hlast

/-- With empty blocks, nothing but what is in hand is held. -/
theorem Inv.held_of_nil {s : LckFreeMQ α} {c : Nat → List α} (h : Inv size n s c 0)
    (hin : s.consumer.inHand = []) (hnil : c s.queue.frontBlock = []) : s.held = 0 := by
  rw [h.held_eq, hin, segs_zero h.layout.front_lt, hnil]
  rfl

/-- A step that gives nothing back. -/
theorem remaining_lt {s s' : LckFreeMQ α} (hheld : s'.held = s.held)
    (hfront : s'.queue.frontBlock = s.queue.frontBlock)
    (htail : s'.queue.tailBlock = s.queue.tailBlock)
    (hlt : toGo n s.held s.queue.frontBlock s.queue.tailBlock s'.consumer <
      toGo n s.held s.queue.frontBlock s.queue.tailBlock s.consumer) :
    remaining n s' < remaining n s := by
  rw [remaining, remaining, hheld, hfront, htail]
  exact Nat.add_lt_add_left hlt _

theorem consume_remaining {s s' : LckFreeMQ α} {c : Nat → List α} {d : Nat}
    (h : Inv size n s c d) (hdone : s.done = true) (hs : s.consume = .ok s') :
    remaining n s' < remaining n s := by
  have hl := h.layout
  have hat := h.consumer
  have hn : 0 < n := Nat.zero_lt_of_lt hl.front_lt
  cases hc : s.consumer with
  | ended => simp only [consume, hc] at hs; cases hs
  | loop =>
      simp only [consume, hc, if_pos hdone] at hs
      cases hs
      refine remaining_lt rfl rfl rfl ?_
      rw [hc]
      exact Nat.add_lt_add_left (Nat.lt_succ_self _) _
  | sawDone =>
      simp only [consume, hc] at hs
      cases hs
      refine remaining_lt rfl rfl rfl ?_
      rw [hc]
      exact Nat.add_lt_add_left (Nat.lt_succ_of_le (Nat.sub_le _ _)) _
  | size block result =>
      obtain ⟨j, hj, hblock, hnext, hempty⟩ := h.size_step hc
      have hround : (s.queue.blocks block).next = s.queue.frontBlock ↔ j + 1 = n := by
        rw [hnext, ← Slots.succ_slot]
        exact Slots.succ_slot_eq_self_iff hl.front_lt hj
      have hplace : ∀ i < n, (n + (s.queue.frontBlock + i) % n - s.queue.frontBlock) % n = i := by
        intro i hi
        have hsub := Slots.sub_slot (Nat.dvd_refl n) (Nat.le_refl n) hl.front_lt hi
        rwa [Nat.mod_mod] at hsub
      simp only [consume, hc] at hs
      cases hs
      refine remaining_lt rfl rfl rfl ?_
      rw [hc]
      show toGo _ _ _ _ (if _ then _ else _) < _ + (n - (n + block - s.queue.frontBlock) % n)
      rw [show (n + block - s.queue.frontBlock) % n = j from hblock ▸ hplace j hj]
      split
      · rename_i hne
        have hlt : j + 1 < n := Nat.lt_of_le_of_ne hj fun heq => hne (hround.mpr heq)
        rw [hnext]
        show _ + (n - (n + (s.queue.frontBlock + (j + 1)) % n - s.queue.frontBlock) % n) < _
        rw [hplace (j + 1) hlt]
        exact Nat.add_lt_add_left (by omega) _
      · split
        · exact Nat.lt_of_lt_of_le (Nat.sub_pos_of_lt hj) (Nat.le_add_left _ _)
        · rename_i heq hresult
          -- something was seen, so something is held
          have hheld : s.held ≠ 0 := by
            intro hzero
            obtain ⟨rfl, hnil⟩ := h.nil_of_held hzero
            refine hresult (hempty.mpr fun i hi => ?_)
            have hin : i < n := by omega
            cases i with
            | zero => rwa [Nat.add_zero, Nat.mod_eq_of_lt hl.front_lt]
            | succ i =>
                have hbeyond := hl.beyond (i + 1) (Nat.succ_pos i) hin
                rw [hbeyond]
                split
                · have hended := h.done.mp hdone
                  rw [hended]
                  rfl
                · rfl
          simp only [toGo, if_neg hheld]
          omega
  | pop =>
      simp only [consume, hc] at hs
      rw [hc] at hl
      cases hs
      refine remaining_lt rfl rfl rfl ?_
      rw [hc]
      show toGo _ _ _ _ (if _ then _ else _) < toGo _ _ _ _ .pop
      split
      · rename_i hne
        have hheld : s.held ≠ 0 := fun hzero =>
          hl.front_block.ne_nil_of_localTail hne (h.nil_of_held hzero).2
        simp only [toGo, if_neg hheld]
        decide
      · simp only [toGo]
        split <;> omega
  | readTail =>
      simp only [consume, hc] at hs
      rw [hc] at hl
      cases hs
      refine remaining_lt rfl rfl rfl ?_
      rw [hc]
      show toGo _ _ _ _ (if _ then _ else _) < if _ then _ else _
      split
      · rename_i hne
        have hheld : s.held ≠ 0 := fun hzero =>
          hne (hl.front_block.front_eq_tail_iff.mpr (h.nil_of_held hzero).2)
        rw [if_neg hheld]
        show 2 < 7
        decide
      · rename_i heq
        have hnil := hl.front_block.front_eq_tail_iff.mp (not_not.mp heq)
        show (if _ then _ else _) < _
        rcases Nat.eq_zero_or_pos d with rfl | hd
        · have hheld := h.held_of_nil (by rw [hc]; rfl) hnil
          rw [if_pos (hl.tail_eq_front_iff.mpr rfl), if_pos hheld, if_pos hheld]
          omega
        · -- an item is held behind the front block, so the tail just read is no old one
          have hheld : s.held ≠ 0 := fun hzero => Nat.ne_of_gt hd (h.nil_of_held hzero).1
          rw [if_neg fun htail => Nat.ne_of_gt hd (hl.tail_eq_front_iff.mp htail), if_neg hheld]
          decide
  | checkTail =>
      simp only [consume, hc] at hs
      cases hs
      refine remaining_lt rfl rfl rfl ?_
      rw [hc]
      show toGo _ _ _ _ (if _ then _ else _) < if _ then _ else _
      split
      · rename_i hne
        rw [if_neg fun htail => hne htail.symm]
        show 5 < 6
        decide
      · rename_i heq
        rw [if_pos (not_not.mp heq).symm]
        exact Nat.add_lt_add_left (Nat.lt_succ_self _) _
  | readAgain =>
      simp only [consume, hc] at hs
      cases hs
      refine remaining_lt rfl rfl rfl ?_
      rw [hc]
      show toGo _ _ _ _ (if _ then _ else _) < 5
      split
      · show 2 < 5
        decide
      · show 4 < 5
        decide
  | readNext =>
      simp only [consume, hc] at hs
      split at hs
      · cases hs
        refine remaining_lt rfl rfl rfl ?_
        rw [hc]
        show 3 < 4
        decide
      · cases hs
  | setFrontBlock =>
      simp only [consume, hc] at hs
      cases hs
      rw [remaining, remaining, hc]
      exact Nat.add_lt_add_left (show 2 < 3 by decide) _
  | element =>
      simp only [consume, hc] at hs
      split at hs
      · cases hs
        refine remaining_lt rfl rfl rfl ?_
        rw [hc]
        show 1 < 2
        decide
      · cases hs
  | setFront v =>
      have hheld := h.held_eq
      rw [hc] at hheld
      simp only [consume, hc] at hs
      cases hs
      have hback : s.pushed.length - (s.popped ++ [v]).length + 1 = s.held := by
        rw [List.length_append, List.length_singleton]
        rw [held] at hheld ⊢
        rw [show (DequeuePc.setFront v).inHand.length = 1 from rfl] at hheld
        omega
      rw [remaining, remaining, hc, ← hback, Nat.succ_mul]
      have hlt := toGo_lt (s.pushed.length - (s.popped ++ [v]).length) s.queue.frontBlock
        s.queue.tailBlock hn (.loop : DequeuePc α)
      rw [Nat.add_assoc]
      exact Nat.add_lt_add_left (hlt.trans_le (Nat.le_add_right _ _)) _
  | nothing =>
      simp only [consume, hc] at hs
      cases hs
      refine remaining_lt rfl rfl rfl ?_
      rw [hc]
      exact Nat.add_lt_add_left (Nat.lt_succ_self _) _

/-- Only a consumer that has ended has no step. -/
theorem Inv.consume_enabled {s : LckFreeMQ α} {c : Nat → List α} {d : Nat} (h : Inv size n s c d)
    (hc : s.consumer ≠ .ended) : ∃ s', s.consume = .ok s' := by
  cases hs : s.consume with
  | ok s' => exact ⟨s', rfl⟩
  | error e =>
      have he := h.consume_error hs
      subst he
      simp only [consume] at hs
      split at hs <;> (try split at hs) <;> cases hs
      rename_i hended
      exact absurd hended hc

/-- A producer that has ended has no step. -/
theorem Inv.only_consume {s s' : LckFreeMQ α} {c : Nat → List α} {d : Nat} {a : QueueAction α}
    (h : Inv size n s c d) (hdone : s.done = true) (hs : step s a = .ok s') : a = .consume := by
  have hp := h.done.mp hdone
  cases a with
  | consume => rfl
  | push x => simp only [step, hp] at hs; cases hs
  | finish => simp only [step, hp] at hs; cases hs
  | produce => simp only [step, produce, hp] at hs; cases hs

theorem Inv.drains {r : Nat} {s : LckFreeMQ α} {c : Nat → List α} {d : Nat}
    (h : Inv size n s c d) (hdone : s.done = true) (hr : remaining n s ≤ r) :
    ∃ k ≤ r, ∃ s', runSteps step s (List.replicate k .consume) = .ok s' ∧
      s'.consumer = .ended ∧ s'.popped = s.pushed := by
  induction r generalizing s c d with
  | zero =>
      by_cases hc : s.consumer = .ended
      · exact ⟨0, Nat.le_refl 0, s, rfl, hc, (h.ended hc).2⟩
      · obtain ⟨s', hs⟩ := h.consume_enabled hc
        have hlt := consume_remaining h hdone hs
        omega
  | succ r ih =>
      by_cases hc : s.consumer = .ended
      · exact ⟨0, Nat.zero_le _, s, rfl, hc, (h.ended hc).2⟩
      · obtain ⟨t, ht⟩ := h.consume_enabled hc
        have hlt := consume_remaining h hdone ht
        obtain ⟨-, hpushed, hdone'⟩ := consume_frame ht
        obtain ⟨c', d', h'⟩ := h.consume_ok ht
        obtain ⟨k, hk, s', hrun, hend, hpopped⟩ := ih h' (hdone'.trans hdone) (by omega)
        refine ⟨k + 1, Nat.succ_le_succ hk, s', ?_, hend, hpopped.trans hpushed⟩
        rw [List.replicate_succ, runSteps, List.foldlM_cons]
        show step s .consume >>= _ = _
        rw [show step s .consume = .ok t from ht]
        exact hrun

/-- Once `_done` is set only the consumer goes on, and in a number of steps given by
what is held and the number of blocks it has popped everything and ended. -/
theorem consumer_drains (maxQueueSize : UInt32) {s : LckFreeMQ α}
    (h : Reach step (fun _ _ => True) (new maxQueueSize) s) (hdone : s.done = true) :
    (∀ a s', step s a = .ok s' → a = .consume) ∧
      ∃ k < (s.held + 1) *
          ((ReaderWriterQueue.blockLayout maxQueueSize.toUInt64).2 + 13),
        ∃ s', runSteps step s (List.replicate k .consume) = .ok s' ∧
          s'.consumer = .ended ∧ s'.popped = s.pushed := by
  obtain ⟨size, n, hlayout, hn, hwide, hpow, -⟩ :=
    ReaderWriterQueue.blockLayout_spec maxQueueSize
  obtain ⟨c, d, hinv⟩ : ∃ c d, Inv size n s c d :=
    h.inv (fun s => ∃ c d, Inv size n s c d) ⟨_, _, inv_new hlayout hn hwide hpow⟩
      fun s a s' ⟨c, d, hs⟩ _ hstep => step_ok hs hstep
  refine ⟨fun a s' hs => hinv.only_consume hdone hs, ?_⟩
  obtain ⟨k, hk, hrun⟩ := hinv.drains hdone (Nat.le_refl _)
  refine ⟨k, hk.trans_lt ?_, hrun⟩
  rw [hlayout, remaining, Nat.succ_mul]
  exact Nat.add_lt_add_left (toGo_lt _ _ _ hn _) _

/-- The sample from where the producer has set `_done`. -/
theorem consumer_drains_oneByOne :
    (∀ a s', step (endOf step (new 1) (oneByOne.take 19)) a = .ok s' → a = .consume) ∧
      ∃ k < ((endOf step (new 1) (oneByOne.take 19)).held + 1) *
          ((ReaderWriterQueue.blockLayout (1 : UInt32).toUInt64).2 + 13),
        ∃ s', runSteps step (endOf step (new 1) (oneByOne.take 19))
            (List.replicate k .consume) = .ok s' ∧
          s'.consumer = .ended ∧ s'.popped = (endOf step (new 1) (oneByOne.take 19)).pushed :=
  consumer_drains 1 (endOf_reach allowed_true (by decide +kernel)) (by decide +kernel)

end LckFreeMQ

end EDRStore
