/-
# `EDRStore.Lib.Spsc` — queues with one producer and one consumer

What a user of such a queue relies on, and no more: it holds a list, an
enqueue that succeeds adds to its end, a dequeue that succeeds takes its head,
and the size read is zero just when it holds nothing.  An enqueue may fail, for
want of room, and a dequeue may fail too.

`Logged` adds the two histories that proofs speak of.  Whatever the queue does,
what was put in is what was taken out followed by what is still in it (`Fifo`).
-/
import Mathlib.Data.List.Basic

namespace EDRStore

/-- An implementation, seen through the list it holds. -/
structure Spsc (α : Type) where
  Queue : Type
  empty : Queue
  toList : Queue → List α
  tryEnqueue : α → Queue → Option Queue
  tryDequeue : Queue → Option (α × Queue)
  sizeApprox : Queue → Nat
  toList_empty : toList empty = []
  toList_enqueue : ∀ {x q q'}, tryEnqueue x q = some q' → toList q' = toList q ++ [x]
  toList_dequeue : ∀ {x q q'}, tryDequeue q = some (x, q') → toList q = x :: toList q'
  sizeApprox_eq_zero : ∀ {q}, sizeApprox q = 0 ↔ toList q = []

namespace Spsc

variable {α : Type}

/-- A list with room for `cap` items. -/
def bounded (α : Type) (cap : Nat) : Spsc α where
  Queue := List α
  empty := []
  toList := id
  tryEnqueue := fun x q => if q.length < cap then some (q ++ [x]) else none
  tryDequeue
    | [] => none
    | x :: q => some (x, q)
  sizeApprox := List.length
  toList_empty := rfl
  toList_enqueue := by
    intro x q q' h
    split at h
    · cases h; rfl
    · exact nomatch h
  toList_dequeue := by
    intro x q q' h
    cases q with
    | nil => exact nomatch h
    | cons y q => cases h; rfl
  sizeApprox_eq_zero := List.length_eq_zero_iff

/-- A queue with all that ever went in and came out, in order. -/
structure Logged (S : Spsc α) where
  queue : S.Queue
  pushed : List α
  popped : List α

namespace Logged

variable {S : Spsc α} {l l' : S.Logged} {x : α}

def empty (S : Spsc α) : S.Logged := { queue := S.empty, pushed := [], popped := [] }

def enqueue (l : S.Logged) (x : α) : Option S.Logged :=
  (S.tryEnqueue x l.queue).map fun q => { l with queue := q, pushed := l.pushed ++ [x] }

def dequeue (l : S.Logged) : Option (α × S.Logged) :=
  (S.tryDequeue l.queue).map fun r => (r.1, { l with queue := r.2, popped := l.popped ++ [r.1] })

/-- Nothing is lost, doubled or reordered. -/
def Fifo (l : S.Logged) : Prop := l.pushed = l.popped ++ S.toList l.queue

theorem fifo_empty : (empty S).Fifo := by
  simp [Fifo, empty, S.toList_empty]

theorem enqueue_eq_some (h : l.enqueue x = some l') :
    l'.pushed = l.pushed ++ [x] ∧ l'.popped = l.popped ∧
      S.toList l'.queue = S.toList l.queue ++ [x] := by
  obtain ⟨q, hq, rfl⟩ := Option.map_eq_some_iff.mp h
  exact ⟨rfl, rfl, S.toList_enqueue hq⟩

theorem dequeue_eq_some (h : l.dequeue = some (x, l')) :
    l'.pushed = l.pushed ∧ l'.popped = l.popped ++ [x] ∧
      S.toList l.queue = x :: S.toList l'.queue := by
  obtain ⟨r, hr, heq⟩ := Option.map_eq_some_iff.mp h
  cases heq
  exact ⟨rfl, rfl, S.toList_dequeue hr⟩

theorem Fifo.enqueue (hf : l.Fifo) (h : l.enqueue x = some l') : l'.Fifo := by
  obtain ⟨hpushed, hpopped, hlist⟩ := enqueue_eq_some h
  rw [Fifo, hpushed, hpopped, hlist, ← List.append_assoc, hf]

theorem Fifo.dequeue (hf : l.Fifo) (h : l.dequeue = some (x, l')) : l'.Fifo := by
  obtain ⟨hpushed, hpopped, hlist⟩ := dequeue_eq_some h
  rw [Fifo, hpushed, hpopped, hf, hlist, List.append_assoc]
  rfl

/-- What came out is the beginning of what went in. -/
theorem Fifo.popped_isPrefix (hf : l.Fifo) : l.popped <+: l.pushed :=
  hf ▸ List.prefix_append _ _

/-- Once the size is read as zero, everything is out. -/
theorem Fifo.drained (hf : l.Fifo) (h : S.sizeApprox l.queue = 0) : l.popped = l.pushed := by
  rw [hf, S.sizeApprox_eq_zero.mp h, List.append_nil]

end Logged

end Spsc

end EDRStore
