/-
# `EDRStore.QueueLayout` — what the blocks of a queue hold

`BlockOk` is the invariant of one block: the list it holds, and how far behind
the two copies may be.  `Layout` is that of the circle of blocks: the list of
the queue is cut at block ends, every block strictly between the front and the
tail block is full, and every block beyond the tail block is empty.

One lemma for each thing a thread does to the blocks says what becomes of the
lists.
-/
import EDRStore.ReaderWriterQueue
import Mathlib.Data.List.Range

namespace EDRStore

open Slots (Holds)
open ReaderWriterQueue (Block Queue)

variable {α : Type} {size : Nat}

theorem mask_eq_mod (hpow : ∃ p, size = 2 ^ p) (i : Nat) : i &&& (size - 1) = i % size := by
  obtain ⟨p, rfl⟩ := hpow
  exact Nat.and_two_pow_sub_one_eq_mod i p

/-! ## One block -/

/-- The block holds `l`, and `taken` slots before it that the consumer has
emptied and not yet given back. -/
structure BlockOk (size : Nat) (b : Block α) (taken : Nat) (l : List α) : Prop where
  sizeMask : b.sizeMask = size - 1
  front_lt : b.front < size
  localFront_lt : b.localFront < size
  holds : Holds size ((b.front + taken) % size) b.tail b.data l
  /-- The producer's copy of the front is behind the front by no more than there is room for. -/
  localFront : ∃ behind, b.front = (b.localFront + behind) % size ∧
    behind + (taken + l.length) < size
  /-- The consumer's copy of the tail is not behind the front. -/
  localTail : ∃ seen, seen ≤ l.length ∧ b.localTail = (b.front + (taken + seen)) % size

namespace BlockOk

variable {b : Block α} {taken : Nat} {l : List α} {x v : α}

theorem room (h : BlockOk size b taken l) : taken + l.length < size := by
  obtain ⟨behind, -, hlt⟩ := h.localFront
  exact Nat.lt_of_le_of_lt (Nat.le_add_left _ _) hlt

theorem tail_eq (h : BlockOk size b taken l) : b.tail = (b.front + (taken + l.length)) % size := by
  rw [h.holds.tail_eq, Slots.slot_slot]

theorem tail_lt (h : BlockOk size b taken l) : b.tail < size := h.holds.tail_lt

theorem front_eq_tail_iff (h : BlockOk size b 0 l) : b.front = b.tail ↔ l = [] := by
  have hiff := Slots.slot_eq_self_iff h.front_lt h.room
  rw [← h.tail_eq, Nat.zero_add, List.length_eq_zero_iff] at hiff
  rw [← hiff, eq_comm]

/-- A copy of the tail that is not at the front shows an item. -/
theorem ne_nil_of_localTail (h : BlockOk size b 0 l) (hne : b.front ≠ b.localTail) : l ≠ [] := by
  rintro rfl
  obtain ⟨seen, hle, heq⟩ := h.localTail
  rw [Nat.le_zero.mp hle, Nat.add_zero, Nat.mod_eq_of_lt h.front_lt] at heq
  exact hne heq.symm

/-- The next tail is the front just when one slot is free. -/
theorem next_eq_front_iff (h : BlockOk size b taken l) :
    (b.tail + 1) % size = b.front ↔ taken + l.length + 1 = size := by
  rw [h.tail_eq]
  exact Slots.succ_slot_eq_self_iff h.front_lt h.room

/-- A copy of the front that the next tail has not reached shows room. -/
theorem room_of_localFront (h : BlockOk size b taken l) (hne : (b.tail + 1) % size ≠ b.localFront) :
    ∃ behind, b.front = (b.localFront + behind) % size ∧
      behind + (taken + l.length) + 1 < size := by
  obtain ⟨behind, hfront, hlt⟩ := h.localFront
  refine ⟨behind, hfront, Nat.lt_of_le_of_ne hlt fun heq => hne ?_⟩
  have hround := (Slots.succ_slot_eq_self_iff h.localFront_lt hlt).mpr heq
  rw [← Slots.slot_slot, ← hfront, ← h.tail_eq] at hround
  exact hround

theorem readFront (h : BlockOk size b taken l) :
    BlockOk size { b with localFront := b.front } taken l where
  sizeMask := h.sizeMask
  front_lt := h.front_lt
  localFront_lt := h.front_lt
  holds := h.holds
  localFront := ⟨0, (Nat.mod_eq_of_lt h.front_lt).symm, by rw [Nat.zero_add]; exact h.room⟩
  localTail := h.localTail

theorem readTail (h : BlockOk size b taken l) :
    BlockOk size { b with localTail := b.tail } taken l where
  sizeMask := h.sizeMask
  front_lt := h.front_lt
  localFront_lt := h.localFront_lt
  holds := h.holds
  localFront := h.localFront
  localTail := ⟨l.length, Nat.le_refl _, h.tail_eq⟩

theorem write (h : BlockOk size b taken l) (y : Option α) :
    BlockOk size { b with data := Function.update b.data b.tail y } taken l where
  sizeMask := h.sizeMask
  front_lt := h.front_lt
  localFront_lt := h.localFront_lt
  holds := h.holds.write y
  localFront := h.localFront
  localTail := h.localTail

theorem setTail (h : BlockOk size b taken l) (hne : (b.tail + 1) % size ≠ b.localFront)
    (hx : b.data b.tail = some x) :
    BlockOk size { b with tail := (b.tail + 1) % size } taken (l ++ [x]) where
  sizeMask := h.sizeMask
  front_lt := h.front_lt
  localFront_lt := h.localFront_lt
  holds := by
    obtain ⟨behind, -, hlt⟩ := h.room_of_localFront hne
    exact h.holds.push (by omega) hx
  localFront := by
    obtain ⟨behind, hfront, hlt⟩ := h.room_of_localFront hne
    exact ⟨behind, hfront, by rw [List.length_append, List.length_singleton]; omega⟩
  localTail := by
    obtain ⟨seen, hle, heq⟩ := h.localTail
    exact ⟨seen, by rw [List.length_append]; omega, heq⟩

theorem head (h : BlockOk size b 0 (v :: l)) : b.data b.front = some v := by
  have hhead := h.holds.head
  rwa [Nat.add_zero, Nat.mod_eq_of_lt h.front_lt] at hhead

/-- The first item is taken out; its slot is not free yet. -/
theorem element (h : BlockOk size b 0 (v :: l)) (hne : b.front ≠ b.localTail) :
    BlockOk size { b with data := Function.update b.data b.front none } 1 l where
  sizeMask := h.sizeMask
  front_lt := h.front_lt
  localFront_lt := h.localFront_lt
  holds := by
    have hpop := h.holds.pop none
    rwa [show (b.front + 0) % size = b.front from Nat.mod_eq_of_lt h.front_lt] at hpop
  localFront := by
    obtain ⟨behind, hfront, hlt⟩ := h.localFront
    exact ⟨behind, hfront, by rw [List.length_cons] at hlt; omega⟩
  localTail := by
    obtain ⟨seen, hle, heq⟩ := h.localTail
    cases seen with
    | zero =>
        rw [Nat.add_zero, Nat.mod_eq_of_lt h.front_lt] at heq
        exact absurd heq.symm hne
    | succ seen =>
        rw [List.length_cons] at hle
        exact ⟨seen, Nat.le_of_succ_le_succ hle, by rw [heq, Nat.zero_add, Nat.add_comm seen]⟩

/-- The slot goes back to the producer. -/
theorem setFront (h : BlockOk size b 1 l) :
    BlockOk size { b with front := (b.front + 1) % size } 0 l where
  sizeMask := h.sizeMask
  front_lt := Nat.mod_lt _ (Nat.zero_lt_of_lt h.front_lt)
  localFront_lt := h.localFront_lt
  holds := by
    have hlt : (b.front + 1) % size < size := Nat.mod_lt _ (Nat.zero_lt_of_lt h.front_lt)
    rw [Nat.add_zero, Nat.mod_eq_of_lt hlt]
    exact h.holds
  localFront := by
    obtain ⟨behind, hfront, hlt⟩ := h.localFront
    exact ⟨behind + 1, by rw [hfront, Slots.succ_slot], by omega⟩
  localTail := by
    obtain ⟨seen, hle, heq⟩ := h.localTail
    exact ⟨seen, hle, by rw [heq, Nat.zero_add, Slots.slot_slot]⟩

/-- What `size_approx` computes for one block. -/
theorem size_eq (h : BlockOk size b taken l) (hpow : ∃ p, p ≤ 64 ∧ size = 2 ^ p) :
    (2 ^ 64 + b.tail - b.front) % 2 ^ 64 &&& b.sizeMask = taken + l.length := by
  obtain ⟨p, hp, hsize⟩ := hpow
  rw [h.sizeMask, mask_eq_mod ⟨p, hsize⟩, h.tail_eq]
  exact Slots.sub_slot (hsize ▸ Nat.pow_dvd_pow 2 hp)
    (hsize ▸ Nat.pow_le_pow_right Nat.two_pos hp) h.front_lt h.room

end BlockOk

/-! ## The circle -/

section Segs

variable {n f d : Nat} {c : Nat → List α} {x v : α} {l : List α}

/-- The items of the blocks from the block `f` to the one `d` further. -/
def segs (n f d : Nat) (c : Nat → List α) : List α :=
  (List.range (d + 1)).flatMap fun j => c ((f + j) % n)

theorem segs_congr {c' : Nat → List α} (h : ∀ j ≤ d, c' ((f + j) % n) = c ((f + j) % n)) :
    segs n f d c' = segs n f d c := by
  exact List.flatMap_congr fun j hj => h j (Nat.le_of_lt_succ (List.mem_range.mp hj))

theorem segs_zero (hf : f < n) : segs n f 0 c = c f := by
  simp [segs, Nat.mod_eq_of_lt hf]

theorem segs_succ : segs n f (d + 1) c = segs n f d c ++ c ((f + (d + 1)) % n) := by
  rw [segs, List.range_succ, List.flatMap_append, List.flatMap_singleton]
  rfl

/-- The first block apart. -/
theorem segs_cons (hf : f < n) :
    segs n f (d + 1) c = c f ++ segs n ((f + 1) % n) d c := by
  rw [segs, List.range_succ_eq_map, List.flatMap_cons, List.flatMap_map, Nat.add_zero,
    Nat.mod_eq_of_lt hf, segs]
  congr 1
  exact List.flatMap_congr fun j _ => by rw [Slots.slot_slot, Nat.add_comm 1]

/-- Adding to the last block adds to the end. -/
theorem segs_push (hd : d < n) :
    segs n f d (Function.update c ((f + d) % n) (c ((f + d) % n) ++ [x])) = segs n f d c ++ [x] := by
  have hlast : segs n f d c = ((List.range d).flatMap fun j => c ((f + j) % n)) ++
      c ((f + d) % n) := by
    rw [segs, List.range_succ, List.flatMap_append, List.flatMap_singleton]
  rw [hlast, segs, List.range_succ, List.flatMap_append, List.flatMap_singleton,
    Function.update_self, List.append_assoc]
  congr 1
  refine List.flatMap_congr fun j hj => Function.update_of_ne (fun heq => ?_) _ _
  have hj := List.mem_range.mp hj
  exact absurd (Slots.slot_injective (hj.trans hd) hd heq) (Nat.ne_of_lt hj)

/-- Taking the first item of the first block takes the first item. -/
theorem segs_take (hf : f < n) (hd : d < n) (hc : c f = v :: l) :
    segs n f d c = v :: segs n f d (Function.update c f l) := by
  cases d with
  | zero => rw [segs_zero hf, segs_zero hf, hc, Function.update_self]
  | succ d =>
      rw [segs_cons hf, segs_cons hf, hc, Function.update_self, List.cons_append]
      congr 2
      refine (segs_congr fun j hj => Function.update_of_ne (fun heq => ?_) _ _).symm
      rw [Slots.slot_slot] at heq
      have hlt : 1 + j < n := by omega
      exact absurd ((Slots.slot_eq_self_iff hf hlt).mp heq) (by omega)

theorem length_last_le : (c ((f + d) % n)).length ≤ (segs n f d c).length := by
  rw [segs, List.range_succ, List.flatMap_append, List.flatMap_singleton, List.length_append]
  exact Nat.le_add_left _ _

/-- Full blocks behind the first one. -/
theorem mul_le_length (h : ∀ j, 1 ≤ j → j ≤ d → (c ((f + j) % n)).length + 1 = size) :
    d * (size - 1) ≤ (segs n f d c).length := by
  induction d with
  | zero => rw [Nat.zero_mul]; exact Nat.zero_le _
  | succ d ih =>
      have hlast := h (d + 1) (Nat.le_add_left 1 d) (Nat.le_refl _)
      have hrest := ih fun j hj hjd => h j hj (hjd.trans (Nat.le_succ d))
      rw [segs_succ, List.length_append, Nat.succ_mul]
      omega

theorem segs_eq_nil (h : ∀ j ≤ d, c ((f + j) % n) = []) : segs n f d c = [] := by
  rw [segs, List.flatMap_eq_nil_iff]
  exact fun j hj => h j (Nat.le_of_lt_succ (List.mem_range.mp hj))

end Segs

/-- The blocks of a queue of `n` blocks of `size` slots: they hold `c`, the tail
block is `d` blocks ahead of the front block, `inHand` has been taken from the
front block and `ahead` been put into the block behind the tail block. -/
structure Layout (size n : Nat) (q : Queue α) (inHand ahead : List α) (c : Nat → List α)
    (d : Nat) : Prop where
  pow : ∃ p, p ≤ 64 ∧ size = 2 ^ p
  wide : 1 < n → 1 < size
  front_lt : q.frontBlock < n
  tail_eq : q.tailBlock = (q.frontBlock + d) % n
  d_lt : d < n
  next : ∀ i < n, (q.blocks i).next = (i + 1) % n
  block : ∀ i < n,
    BlockOk size (q.blocks i) (if i = q.frontBlock then inHand.length else 0) (c i)
  filled : ∀ j, 1 ≤ j → j ≤ d → c ((q.frontBlock + j) % n) ≠ []
  full : ∀ j, 1 ≤ j → j < d → (c ((q.frontBlock + j) % n)).length + 1 = size
  beyond : ∀ j, d < j → j < n → c ((q.frontBlock + j) % n) = if j = d + 1 then ahead else []
  ahead_lt : ahead ≠ [] → d + 1 < n

namespace Layout

variable {n d i : Nat} {q : Queue α} {inHand ahead : List α} {c : Nat → List α} {b : Block α}
  {x v : α} {l : List α}

theorem mask (h : Layout size n q inHand ahead c d) (hi : i < n) (k : Nat) :
    k &&& (q.blocks i).sizeMask = k % size := by
  obtain ⟨p, -, hsize⟩ := h.pow
  rw [(h.block i hi).sizeMask]
  exact mask_eq_mod ⟨p, hsize⟩ k

theorem tail_lt (h : Layout size n q inHand ahead c d) : q.tailBlock < n := by
  rw [h.tail_eq]
  exact Nat.mod_lt _ (Nat.zero_lt_of_lt h.d_lt)

theorem tail_next (h : Layout size n q inHand ahead c d) :
    q.tail.next = (q.frontBlock + (d + 1)) % n := by
  rw [Queue.tail, h.next _ h.tail_lt, h.tail_eq, Slots.succ_slot]

theorem tail_next_lt (h : Layout size n q inHand ahead c d) : q.tail.next < n := by
  rw [h.tail_next]
  exact Nat.mod_lt _ (Nat.zero_lt_of_lt h.d_lt)

theorem front_next (h : Layout size n q inHand ahead c d) :
    q.front.next = (q.frontBlock + 1) % n := h.next _ h.front_lt

theorem slot_eq_front_iff (h : Layout size n q inHand ahead c d) {j : Nat} (hj : j < n) :
    (q.frontBlock + j) % n = q.frontBlock ↔ j = 0 := Slots.slot_eq_self_iff h.front_lt hj

theorem tail_eq_front_iff (h : Layout size n q inHand ahead c d) :
    q.tailBlock = q.frontBlock ↔ d = 0 := by
  rw [h.tail_eq, h.slot_eq_front_iff h.d_lt]

/-- The producer has gone round when the block behind its own is the front block. -/
theorem tail_next_eq_front_iff (h : Layout size n q inHand ahead c d) :
    q.tail.next = q.frontBlock ↔ d + 1 = n := by
  rw [Queue.tail, h.next _ h.tail_lt, h.tail_eq]
  exact Slots.succ_slot_eq_self_iff h.front_lt h.d_lt

theorem front_block (h : Layout size n q inHand ahead c d) :
    BlockOk size q.front inHand.length (c q.frontBlock) := by
  have hb := h.block _ h.front_lt
  rwa [if_pos rfl] at hb

/-- Nothing has been taken from a block but the front block. -/
theorem other_block (h : Layout size n q inHand ahead c d) (hi : i < n) (hne : i ≠ q.frontBlock) :
    BlockOk size (q.blocks i) 0 (c i) := by
  have hb := h.block i hi
  rwa [if_neg hne] at hb

/-- The blocks when one of them changes, and its list with it. -/
theorem block_update (h : Layout size n q inHand ahead c d) (inHand' : List α)
    (hb : BlockOk size b (if i = q.frontBlock then inHand'.length else 0) l)
    (hsame : i ≠ q.frontBlock → inHand' = inHand) :
    ∀ k < n, BlockOk size ((q.setBlock i b).blocks k)
      (if k = q.frontBlock then inHand'.length else 0) (Function.update c i l k) := by
  intro k hk
  rcases eq_or_ne k i with rfl | hne
  · rw [Queue.setBlock_self, Function.update_self]
    exact hb
  · rw [Queue.setBlock_of_ne _ _ _ hne, Function.update_of_ne hne]
    rcases eq_or_ne k q.frontBlock with rfl | hfront
    · rw [hsame hne.symm]
      exact h.block _ hk
    · rw [if_neg hfront]
      exact h.other_block hk hfront

theorem next_update (h : Layout size n q inHand ahead c d) (hnext : b.next = (q.blocks i).next) :
    ∀ k < n, ((q.setBlock i b).blocks k).next = (k + 1) % n := by
  intro k hk
  rcases eq_or_ne k i with rfl | hne
  · rw [Queue.setBlock_self, hnext, h.next k hk]
  · rw [Queue.setBlock_of_ne _ _ _ hne, h.next k hk]

/-- A block changes, but not what it holds. -/
theorem setBlock (h : Layout size n q inHand ahead c d) (hnext : b.next = (q.blocks i).next)
    (hb : BlockOk size b (if i = q.frontBlock then inHand.length else 0) (c i)) :
    Layout size n (q.setBlock i b) inHand ahead c d where
  pow := h.pow
  wide := h.wide
  front_lt := h.front_lt
  tail_eq := h.tail_eq
  d_lt := h.d_lt
  next := h.next_update hnext
  block := by
    have hblocks := h.block_update inHand hb fun _ => rfl
    rwa [Function.update_eq_self] at hblocks
  filled := h.filled
  full := h.full
  beyond := h.beyond
  ahead_lt := h.ahead_lt

theorem readFront (h : Layout size n q inHand ahead c d) (hi : i < n) :
    Layout size n (q.setBlock i { q.blocks i with localFront := (q.blocks i).front })
      inHand ahead c d :=
  h.setBlock rfl (h.block i hi).readFront

theorem readTail (h : Layout size n q inHand ahead c d) (hi : i < n) :
    Layout size n (q.setBlock i { q.blocks i with localTail := (q.blocks i).tail })
      inHand ahead c d :=
  h.setBlock rfl (h.block i hi).readTail

theorem write (h : Layout size n q inHand ahead c d) (hi : i < n) (y : Option α) :
    Layout size n
      (q.setBlock i
        { q.blocks i with data := Function.update (q.blocks i).data (q.blocks i).tail y })
      inHand ahead c d :=
  h.setBlock rfl ((h.block i hi).write y)

/-- The producer adds to its block. -/
theorem setTail (h : Layout size n q inHand ahead c d)
    (hne : (q.tail.tail + 1) % size ≠ q.tail.localFront)
    (hx : q.tail.data q.tail.tail = some x) :
    Layout size n (q.setBlock q.tailBlock { q.tail with tail := (q.tail.tail + 1) % size })
      inHand ahead (Function.update c q.tailBlock (c q.tailBlock ++ [x])) d where
  pow := h.pow
  wide := h.wide
  front_lt := h.front_lt
  tail_eq := h.tail_eq
  d_lt := h.d_lt
  next := h.next_update rfl
  block := h.block_update inHand ((h.block _ h.tail_lt).setTail hne hx) fun _ => rfl
  filled := by
    intro j hj hjd
    rw [Function.update_apply]
    split
    · exact List.append_ne_nil_of_right_ne_nil _ (List.cons_ne_nil _ _)
    · exact h.filled j hj hjd
  full := by
    intro j hj hjd
    rw [Function.update_of_ne, Queue.setBlock_frontBlock, h.full j hj hjd]
    rw [h.tail_eq]
    exact fun heq =>
      absurd (Slots.slot_injective (hjd.trans h.d_lt) h.d_lt heq) (Nat.ne_of_lt hjd)
  beyond := by
    intro j hj hjn
    rw [Function.update_of_ne, Queue.setBlock_frontBlock, h.beyond j hj hjn]
    rw [h.tail_eq]
    exact fun heq => absurd (Slots.slot_injective hjn h.d_lt heq) (Nat.ne_of_gt hj)
  ahead_lt := h.ahead_lt

/-- The consumer takes an item out of its block. -/
theorem element (h : Layout size n q [] ahead c d) (hc : c q.frontBlock = v :: l)
    (hne : q.front.front ≠ q.front.localTail) :
    Layout size n
      (q.setBlock q.frontBlock
        { q.front with data := Function.update q.front.data q.front.front none })
      [v] ahead (Function.update c q.frontBlock l) d where
  pow := h.pow
  wide := h.wide
  front_lt := h.front_lt
  tail_eq := h.tail_eq
  d_lt := h.d_lt
  next := h.next_update rfl
  block := by
    have hb := h.front_block
    rw [hc] at hb
    refine h.block_update [v] ?_ fun hfront => absurd rfl hfront
    rw [if_pos rfl]
    exact hb.element hne
  filled := by
    intro j hj hjd
    rw [Function.update_of_ne]
    · exact h.filled j hj hjd
    · exact fun heq => absurd ((h.slot_eq_front_iff (hjd.trans_lt h.d_lt)).mp heq) (by omega)
  full := by
    intro j hj hjd
    rw [Function.update_of_ne]
    · exact h.full j hj hjd
    · exact fun heq => absurd ((h.slot_eq_front_iff (hjd.trans h.d_lt)).mp heq) (by omega)
  beyond := by
    intro j hj hjn
    rw [Function.update_of_ne]
    · exact h.beyond j hj hjn
    · exact fun heq => absurd ((h.slot_eq_front_iff hjn).mp heq) (by omega)
  ahead_lt := h.ahead_lt

/-- It gives the slot back. -/
theorem setFront (h : Layout size n q [v] ahead c d) :
    Layout size n (q.setBlock q.frontBlock { q.front with front := (q.front.front + 1) % size })
      [] ahead c d where
  pow := h.pow
  wide := h.wide
  front_lt := h.front_lt
  tail_eq := h.tail_eq
  d_lt := h.d_lt
  next := h.next_update rfl
  block := by
    have hblocks := h.block_update []
      (by rw [if_pos rfl]; exact h.front_block.setFront) fun hfront => absurd rfl hfront
    rwa [Function.update_eq_self] at hblocks
  filled := h.filled
  full := h.full
  beyond := h.beyond
  ahead_lt := h.ahead_lt

theorem tail_next_ne_front (h : Layout size n q inHand ahead c d) (hd : d + 1 < n) :
    q.tail.next ≠ q.frontBlock := fun heq =>
  absurd (h.tail_next_eq_front_iff.mp heq) (Nat.ne_of_lt hd)

/-- The block behind the tail block is empty until the producer puts something there. -/
theorem tail_next_block (h : Layout size n q inHand [] c d) (hd : d + 1 < n) :
    BlockOk size (q.blocks q.tail.next) 0 [] := by
  have hb := h.other_block h.tail_next_lt (h.tail_next_ne_front hd)
  rwa [h.tail_next, h.beyond (d + 1) (Nat.lt_succ_self d) hd, if_pos rfl, ← h.tail_next] at hb

/-- The producer puts the first item into the block behind its own. -/
theorem setNextTail (h : Layout size n q inHand [] c d) (hd : d + 1 < n)
    (hne : ((q.blocks q.tail.next).tail + 1) % size ≠ (q.blocks q.tail.next).localFront)
    (hx : (q.blocks q.tail.next).data (q.blocks q.tail.next).tail = some x) :
    Layout size n
      (q.setBlock q.tail.next
        { q.blocks q.tail.next with tail := ((q.blocks q.tail.next).tail + 1) % size })
      inHand [x] (Function.update c q.tail.next [x]) d where
  pow := h.pow
  wide := h.wide
  front_lt := h.front_lt
  tail_eq := h.tail_eq
  d_lt := h.d_lt
  next := h.next_update rfl
  block := by
    refine h.block_update inHand ?_ fun _ => rfl
    rw [if_neg (h.tail_next_ne_front hd)]
    exact (h.tail_next_block hd).setTail hne hx
  filled := by
    intro j hj hjd
    rw [Function.update_of_ne]
    · exact h.filled j hj hjd
    · rw [h.tail_next]
      exact fun heq => absurd (Slots.slot_injective (hjd.trans_lt h.d_lt) hd heq) (by omega)
  full := by
    intro j hj hjd
    rw [Function.update_of_ne]
    · exact h.full j hj hjd
    · rw [h.tail_next]
      exact fun heq => absurd (Slots.slot_injective (hjd.trans h.d_lt) hd heq) (by omega)
  beyond := by
    intro j hj hjn
    rcases eq_or_ne j (d + 1) with rfl | hjd
    · rw [Queue.setBlock_frontBlock, ← h.tail_next, Function.update_self, if_pos rfl]
    · rw [Function.update_of_ne, if_neg hjd, Queue.setBlock_frontBlock, h.beyond j hj hjn,
        if_neg hjd]
      rw [h.tail_next]
      exact fun heq => absurd (Slots.slot_injective hjn hd heq) hjd
  ahead_lt := fun _ => hd

/-- It makes that block its own, its old one being full unless the consumer is there. -/
theorem setTailBlock (h : Layout size n q inHand [x] c d)
    (hfull : d = 0 ∨ (c q.tailBlock).length + 1 = size) :
    Layout size n { q with tailBlock := q.tail.next } inHand [] c (d + 1) where
  pow := h.pow
  wide := h.wide
  front_lt := h.front_lt
  tail_eq := h.tail_next
  d_lt := h.ahead_lt (List.cons_ne_nil _ _)
  next := h.next
  block := h.block
  filled := by
    intro j hj hjd
    rcases Nat.lt_or_eq_of_le hjd with hlt | rfl
    · exact h.filled j hj (Nat.le_of_lt_succ hlt)
    · rw [h.beyond (d + 1) (Nat.lt_succ_self d) (h.ahead_lt (List.cons_ne_nil _ _)), if_pos rfl]
      exact List.cons_ne_nil _ _
  full := by
    intro j hj hjd
    rcases Nat.lt_or_eq_of_le (Nat.le_of_lt_succ hjd) with hlt | rfl
    · exact h.full j hj hlt
    · rw [← h.tail_eq]
      exact hfull.resolve_left (by omega)
  beyond := by
    intro j hj hjn
    rw [h.beyond j (by omega) hjn, if_neg (by omega)]
    split <;> rfl
  ahead_lt := fun hne => absurd rfl hne

/-- The consumer leaves an empty block for the next one. -/
theorem setFrontBlock (h : Layout size n q [] ahead c (d + 1)) (hc : c q.frontBlock = []) :
    Layout size n { q with frontBlock := q.front.next } [] ahead c d where
  pow := h.pow
  wide := h.wide
  front_lt := by
    rw [h.front_next]
    exact Nat.mod_lt _ (Nat.zero_lt_of_lt h.front_lt)
  tail_eq := by rw [h.tail_eq, h.front_next, Slots.slot_slot, Nat.add_comm 1]
  d_lt := Nat.lt_of_succ_lt h.d_lt
  next := h.next
  block := by
    intro k hk
    have hb := h.block k hk
    rwa [List.length_nil, ite_self] at hb ⊢
  filled := by
    intro j hj hjd
    rw [h.front_next, Slots.slot_slot, Nat.add_comm 1]
    exact h.filled (j + 1) (Nat.le_add_left 1 j) (Nat.succ_le_succ hjd)
  full := by
    intro j hj hjd
    rw [h.front_next, Slots.slot_slot, Nat.add_comm 1]
    exact h.full (j + 1) (Nat.le_add_left 1 j) (Nat.succ_lt_succ hjd)
  beyond := by
    intro j hj hjn
    rw [h.front_next, Slots.slot_slot, Nat.add_comm 1]
    rcases Nat.lt_or_eq_of_le hjn with hlt | heq
    · rw [h.beyond (j + 1) (Nat.succ_lt_succ hj) hlt]
      exact if_congr Nat.succ_inj rfl rfl
    · -- the block just left is now the last one of the circle
      rw [show j + 1 = n from heq, Nat.add_mod_right, Nat.mod_eq_of_lt h.front_lt, hc]
      split
      · rename_i hjd
        by_contra hne
        have hlt := h.ahead_lt (Ne.symm hne)
        omega
      · rfl
  ahead_lt := fun hne => Nat.lt_of_succ_lt (h.ahead_lt hne)

end Layout

end EDRStore
