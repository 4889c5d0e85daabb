/-
# `EDRStore.ReaderWriterQueue` — the queue between two worker threads

A queue of queues: blocks in a circle, each a circle of slots.  The producer
adds to the tail block and owns every `tail`, the consumer takes from the front
block and owns every `front`, and each keeps a copy of the other's index that it
reads again only when the copy says full, or empty.

    frontBlock          tailBlock
        |                   |
      [ ..xx ] -> [ xxxx ] -> [ xx.. ] -> [ .... ] -> (frontBlock)

Each access to a variable of the other thread is a step of its own, in the order
of the source; what a thread reads of its own variables comes with the step
after it.  Steps of the two threads may come in any order.  Blocks are never
allocated after the constructor: `Push` uses `try_enqueue` only.
-/
import EDRStore.Lib.Run
import EDRStore.Lib.Slots

namespace EDRStore

variable {α : Type}

namespace ReaderWriterQueue

/-- The template argument `MAX_BLOCK_SIZE`. -/
def maxBlockSize : Nat := 512

/-- `x` rounded up, on a `size_t` of eight bytes. -/
def ceilToPow2 (x : UInt64) : UInt64 :=
  let x := x - 1
  let x := x ||| x >>> 1
  let x := x ||| x >>> 2
  let x := x ||| x >>> 4
  let x := ([1, 2, 4] : List UInt64).foldl (fun (x i : UInt64) => x ||| x >>> (i <<< 3)) x
  x + 1

structure Block (α : Type) where
  front : Nat
  /-- The consumer's copy of `tail`. -/
  localTail : Nat
  tail : Nat
  /-- The producer's copy of `front`. -/
  localFront : Nat
  next : Nat
  /-- A slot with no object is raw memory. -/
  data : Nat → Option α
  sizeMask : Nat

def makeBlock (capacity : Nat) : Block α where
  front := 0
  localTail := 0
  tail := 0
  localFront := 0
  next := 0
  data := fun _ => none
  sizeMask := capacity - 1

/-- Blocks are named by the order they were made in. -/
structure Queue (α : Type) where
  blocks : Nat → Block α
  frontBlock : Nat
  tailBlock : Nat

namespace Queue

def setBlock (q : Queue α) (i : Nat) (b : Block α) : Queue α :=
  { q with blocks := Function.update q.blocks i b }

section

variable (q : Queue α) (i : Nat) (b : Block α)

@[simp] theorem setBlock_frontBlock : (q.setBlock i b).frontBlock = q.frontBlock := rfl
@[simp] theorem setBlock_tailBlock : (q.setBlock i b).tailBlock = q.tailBlock := rfl
@[simp] theorem setBlock_self : (q.setBlock i b).blocks i = b := by
  simp [setBlock]
@[simp] theorem setBlock_of_ne {k : Nat} (h : k ≠ i) : (q.setBlock i b).blocks k = q.blocks k :=
  by simp [setBlock, h]

end

/-- The block the consumer takes from. -/
def front (q : Queue α) : Block α := q.blocks q.frontBlock

/-- The block the producer adds to. -/
def tail (q : Queue α) : Block α := q.blocks q.tailBlock

end Queue

/-- The blocks after some turns of the constructor's loop. -/
def linkBlocks (capacity : Nat) : Nat → Nat → Block α
  | 0 => fun _ => makeBlock capacity
  | i + 1 =>
      let blocks := linkBlocks capacity i
      -- `lastBlock->next = block`, which the first block has no one to do for
      let blocks := if i = 0 then blocks
        else Function.update blocks (i - 1) { blocks (i - 1) with next := i }
      Function.update blocks i { makeBlock capacity with next := 0 }

/-- The size and the number of the blocks that the constructor makes. -/
def blockLayout (size : UInt64) : Nat × Nat :=
  let largestBlockSize := ceilToPow2 (size + 1)
  if maxBlockSize * 2 < largestBlockSize.toNat then
    (maxBlockSize, (size.toNat + maxBlockSize * 2 - 3) / (maxBlockSize - 1))
  else (largestBlockSize.toNat, 1)

def new (size : UInt64) : Queue α where
  blocks := linkBlocks (blockLayout size).1 (blockLayout size).2
  frontBlock := 0
  tailBlock := 0

end ReaderWriterQueue

/-! ## The two threads -/

open ReaderWriterQueue (Block Queue)

/-- Where the producer is in `Push`, with the item of the call. -/
inductive EnqueuePc (α : Type) where
  | idle
  /-- Before it compares its tail with its copy of the front. -/
  | enqueue (x : α)
  | readFront (x : α)
  | write (x : α)
  | setTail (x : α)
  /-- Before it reads `frontBlock`. -/
  | checkNext (x : α)
  | readNext (x : α)
  | writeNext (x : α)
  | setNextTail (x : α)
  | setTailBlock (x : α)
  /-- `try_enqueue` has returned false. -/
  | refused (x : α)
  /-- It has set `_done`. -/
  | ended
  deriving DecidableEq

/-- Where the consumer is in its loop, with `IsEmpty` and `Pop`. -/
inductive DequeuePc (α : Type) where
  /-- Before it reads `_done`. -/
  | loop
  | sawDone
  /-- In `size_approx`, before it looks at `block`. -/
  | size (block result : Nat)
  /-- Before it compares its front with its copy of the tail. -/
  | pop
  | readTail
  /-- Before it reads `tailBlock`. -/
  | checkTail
  | readAgain
  | readNext
  | setFrontBlock
  /-- Before it moves the element out and destroys it. -/
  | element
  | setFront (v : α)
  /-- `try_dequeue` has returned false. -/
  | nothing
  | ended
  deriving DecidableEq

/-- The one object the consumer holds that the queue has still a slot for. -/
def DequeuePc.inHand : DequeuePc α → List α
  | .setFront v => [v]
  | _ => []

/-- The queue with the threads at its two ends. -/
structure LckFreeMQ (α : Type) where
  queue : Queue α
  done : Bool
  producer : EnqueuePc α
  consumer : DequeuePc α
  /-- The items `Push` has returned for, in order. -/
  pushed : List α
  /-- The items `Pop` has returned, in order. -/
  popped : List α

/-- Why a thread does not go on. -/
inductive QueueStop where
  /-- The thread has no such step. -/
  | disabled
  /-- An `assert` fails. -/
  | assertion
  /-- An object is moved out of memory that has none. -/
  | rawSlot
  deriving DecidableEq

inductive QueueAction (α : Type) where
  /-- The producer calls `Push`. -/
  | push (x : α)
  /-- It sets `_done`. -/
  | finish
  | produce
  | consume

namespace LckFreeMQ

def new (maxQueueSize : UInt32) : LckFreeMQ α where
  queue := ReaderWriterQueue.new maxQueueSize.toUInt64
  done := false
  producer := .idle
  consumer := .loop
  pushed := []
  popped := []

/-- A step of `inner_enqueue`, in its mode `CannotAlloc`, or of the loop of `Push`. -/
def produce (s : LckFreeMQ α) : Except QueueStop (LckFreeMQ α) :=
  let q := s.queue
  let b := q.tail
  let nb := q.blocks b.next
  match s.producer with
  | .idle => .error .disabled
  | .enqueue x =>
      .ok { s with producer :=
        if (b.tail + 1) &&& b.sizeMask ≠ b.localFront then .write x else .readFront x }
  | .readFront x =>
      .ok { s with
        queue := q.setBlock q.tailBlock { b with localFront := b.front }
        producer := if (b.tail + 1) &&& b.sizeMask ≠ b.front then .write x else .checkNext x }
  | .write x =>
      .ok { s with
        queue := q.setBlock q.tailBlock { b with data := Function.update b.data b.tail (some x) }
        producer := .setTail x }
  | .setTail x =>
      .ok { s with
        queue := q.setBlock q.tailBlock { b with tail := (b.tail + 1) &&& b.sizeMask }
        producer := .idle
        pushed := s.pushed ++ [x] }
  | .checkNext x =>
      .ok { s with producer := if b.next ≠ q.frontBlock then .readNext x else .refused x }
  | .readNext x =>
      -- the tail it owns; the front of a block that is not the front block
      if nb.front = nb.tail then
        .ok { s with
          queue := q.setBlock b.next { nb with localFront := nb.front }
          producer := .writeNext x }
      else .error .assertion
  | .writeNext x =>
      .ok { s with
        queue := q.setBlock b.next { nb with data := Function.update nb.data nb.tail (some x) }
        producer := .setNextTail x }
  | .setNextTail x =>
      .ok { s with
        queue := q.setBlock b.next { nb with tail := (nb.tail + 1) &&& nb.sizeMask }
        producer := .setTailBlock x }
  | .setTailBlock x =>
      .ok { s with
        queue := { q with tailBlock := b.next }
        producer := .idle
        pushed := s.pushed ++ [x] }
  | .refused x => .ok { s with producer := .enqueue x }
  | .ended => .error .disabled

/-- A step of the consumer's loop: of `size_approx`, or of `try_dequeue`. -/
def consume (s : LckFreeMQ α) : Except QueueStop (LckFreeMQ α) :=
  let q := s.queue
  let b := q.front
  let nb := q.blocks b.next
  match s.consumer with
  | .loop => .ok { s with consumer := if s.done then .sawDone else .pop }
  | .sawDone => .ok { s with consumer := .size q.frontBlock 0 }
  | .size block result =>
      let cur := q.blocks block
      let result := result + ((2 ^ 64 + cur.tail - cur.front) % 2 ^ 64 &&& cur.sizeMask)
      .ok { s with consumer :=
        if cur.next ≠ q.frontBlock then .size cur.next result
        else if result = 0 then .ended else .pop }
  | .pop => .ok { s with consumer := if b.front ≠ b.localTail then .element else .readTail }
  | .readTail =>
      .ok { s with
        queue := q.setBlock q.frontBlock { b with localTail := b.tail }
        consumer := if b.front ≠ b.tail then .element else .checkTail }
  | .checkTail =>
      .ok { s with consumer := if q.frontBlock ≠ q.tailBlock then .readAgain else .nothing }
  | .readAgain =>
      .ok { s with
        queue := q.setBlock q.frontBlock { b with localTail := b.tail }
        consumer := if b.front ≠ b.tail then .element else .readNext }
  | .readNext =>
      -- the front it owns; the tail of the next block
      if nb.front ≠ nb.tail then
        .ok { s with
          queue := q.setBlock b.next { nb with localTail := nb.tail }
          consumer := .setFrontBlock }
      else .error .assertion
  | .setFrontBlock =>
      .ok { s with
        queue := { q with frontBlock := b.next }
        consumer := .element }
  | .element =>
      match b.data b.front with
      | some v =>
          .ok { s with
            queue := q.setBlock q.frontBlock { b with data := Function.update b.data b.front none }
            consumer := .setFront v }
      | none => .error .rawSlot
  | .setFront v =>
      .ok { s with
        queue := q.setBlock q.frontBlock { b with front := (b.front + 1) &&& b.sizeMask }
        consumer := .loop
        popped := s.popped ++ [v] }
  | .nothing => .ok { s with consumer := .loop }
  | .ended => .error .disabled

def step (s : LckFreeMQ α) : QueueAction α → Except QueueStop (LckFreeMQ α)
  | .push x =>
      match s.producer with
      | .idle => .ok { s with producer := .enqueue x }
      | _ => .error .disabled
  | .finish =>
      match s.producer with
      | .idle => .ok { s with done := true, producer := .ended }
      | _ => .error .disabled
  | .produce => s.produce
  | .consume => s.consume

/-- Both threads are about to touch the object of one slot. -/
def Racing (s : LckFreeMQ α) : Prop :=
  s.consumer = .element ∧
    ((∃ x, s.producer = .write x ∧ s.queue.tailBlock = s.queue.frontBlock ∧
        s.queue.tail.tail = s.queue.front.front) ∨
      ∃ x, s.producer = .writeNext x ∧ s.queue.tail.next = s.queue.frontBlock ∧
        (s.queue.blocks s.queue.tail.next).tail = s.queue.front.front)

end LckFreeMQ

end EDRStore
