/-
# `EDRStore.InMemDb` — the in-memory index and its file

`InMemoryDatabase` is a hash map from strings to strings that lives in memory:
the destructor writes the entries into one file, in whatever order the map
iterates, and `OpenDB` reads them back when the program starts again.  An entry
is written as the 32-bit size of its key, the key, the 32-bit size of its value
and the value; nothing says how many entries there are.

`OpenDB` finds the end by two tests.  At the top of a turn the size word is
zero, so a read that finds nothing leaves zero there and the loop breaks; at the
bottom it asks the stream for `eof`.  Both strings and the size word are reused
from one record to the next, and a read that runs short leaves in them what it
did not overwrite.  `loadTurn_eq` says what one turn does on *any* bytes, with
no case left over: every read takes what is there, up to what was asked.  All
else follows from it: the loop ends on every file (`loadLoop_ends`), and on the
file of a map whose keys are not empty it rebuilds the map
(`openDB_persist_eq`).
-/
import EDRStore.Lib.Bytes
import EDRStore.Lib.Index
import EDRStore.Data

namespace EDRStore

/-! ## `ifstream` -/

/-- An `ifstream`: what is not read yet, and the two flags of its state. -/
structure IfStream where
  rest : Bytes
  eof : Bool
  fail : Bool
deriving DecidableEq, Repr

namespace IfStream

/-- `read(buf, n)`: a stream that is not `good()` reads nothing; one that has
fewer than `n` bytes stores those and sets both flags. -/
def read (f : IfStream) (buf : Bytes) (n : Nat) : IfStream × Bytes :=
  if f.eof || f.fail then ({ f with fail := true }, buf)
  else if f.rest.length < n then (⟨[], true, true⟩, memcpy buf 0 f.rest)
  else ({ f with rest := f.rest.drop n }, memcpy buf 0 (f.rest.take n))

/-- A stream that was only read from: it has failed when it has hit the end, and
then nothing is left. -/
structure Sound (f : IfStream) : Prop where
  flags : f.fail = f.eof
  atEnd : f.eof = true → f.rest = []

/-- The stream after a read of `n` bytes. -/
def after (f : IfStream) (n : Nat) : IfStream where
  rest := f.rest.drop n
  eof := f.eof || decide (f.rest.length < n)
  fail := f.eof || decide (f.rest.length < n)

@[simp] theorem rest_after (f : IfStream) (n : Nat) : (f.after n).rest = f.rest.drop n := rfl

theorem Sound.after {f : IfStream} (h : f.Sound) (n : Nat) : (f.after n).Sound where
  flags := rfl
  atEnd := by
    intro he
    rw [rest_after]
    rcases Bool.or_eq_true_iff.mp he with he | hlt
    · rw [h.atEnd he, List.drop_nil]
    · exact List.drop_eq_nil_of_le (Nat.le_of_lt (of_decide_eq_true hlt))

/-- Reading in two goes takes the stream where one read of both would. -/
theorem after_after (f : IfStream) (m n : Nat) : (f.after m).after n = f.after (m + n) := by
  have heof : ((f.eof || decide (f.rest.length < m)) || decide ((f.rest.drop m).length < n)) =
      (f.eof || decide (f.rest.length < m + n)) := by
    rw [Bool.or_assoc, List.length_drop]
    congr 1
    rw [Bool.eq_iff_iff, Bool.or_eq_true_iff, decide_eq_true_iff, decide_eq_true_iff,
      decide_eq_true_iff]
    omega
  exact (mk.injEq ..).mpr ⟨List.drop_drop, heof, heof⟩

/-- A read takes what is there, whatever state the stream is in. -/
theorem Sound.read_eq {f : IfStream} (h : f.Sound) (buf : Bytes) (n : Nat) :
    f.read buf n = (f.after n, memcpy buf 0 (f.rest.take n)) := by
  obtain ⟨rest, eof, fail⟩ := f
  have hflags : fail = eof := h.flags
  subst hflags
  cases fail with
  | true =>
      have hrest : rest = [] := h.atEnd rfl
      subst hrest
      simp [read, IfStream.after]
  | false =>
      by_cases hlt : rest.length < n
      · have hdrop : rest.drop n = [] := List.drop_eq_nil_of_le (Nat.le_of_lt hlt)
        have htake : rest.take n = rest := List.take_of_length_le (Nat.le_of_lt hlt)
        simp [read, IfStream.after, hlt, hdrop, htake]
      · simp [read, IfStream.after, hlt]

end IfStream

/-! ## The file -/

/-- `s.resize(n, 0)`. -/
def resize (s : Bytes) (n : Nat) : Bytes := s.take n ++ List.replicate (n - s.length) 0

@[simp] theorem length_resize (s : Bytes) (n : Nat) : (resize s n).length = n := by
  rw [resize, List.length_append, List.length_take, List.length_replicate]
  omega

/-- A string as the destructor writes it: `item_size` is a `uint32_t`, and so
many bytes follow. -/
def writeItem (s : Bytes) : Bytes := toLe 4 (u32 s.length) ++ s.take (u32 s.length)

/-- `~InMemoryDatabase`, the map iterating in the order given. -/
def persist (l : List (Bytes × Bytes)) : Bytes :=
  l.flatMap fun e => writeItem e.1 ++ writeItem e.2

/-! ## `OpenDB` -/

/-- The variables of `OpenDB`'s loop. -/
structure Loader where
  file : IfStream
  isEnd : Bool
  itemSize : Nat
  key : Bytes
  value : Bytes
  index : Index Bytes Bytes
deriving DecidableEq

/-- One turn of the loop; the flag says that it ended in one of the `break`s. -/
def loadTurn (l : Loader) : Bool × Loader :=
  -- read key
  let r₁ := l.file.read (toLe 4 l.itemSize) 4
  let keySize := ofLe r₁.2
  if keySize = 0 then (true, { l with file := r₁.1, itemSize := keySize })
  else
    let r₂ := r₁.1.read (resize l.key keySize) keySize
    -- read value
    let r₃ := r₂.1.read (toLe 4 keySize) 4
    let valueSize := ofLe r₃.2
    let r₄ := r₃.1.read (resize l.value valueSize) valueSize
    (r₄.1.eof,
      { file := r₄.1
        isEnd := r₄.1.eof
        itemSize := 0
        key := r₂.2
        value := r₄.2
        index := l.index.insert r₂.2 r₄.2 })

/-- `while (!is_end)`, at most `fuel` turns of it. -/
def loadLoop : Nat → Loader → Option Loader
  | 0, _ => none
  | fuel + 1, l =>
      if l.isEnd then some l
      else if (loadTurn l).1 then some (loadTurn l).2
      else loadLoop fuel (loadTurn l).2

/-- The loop's variables before its first turn. -/
def Loader.start (file : Bytes) : Loader where
  file := ⟨file, false, false⟩
  isEnd := false
  itemSize := 0
  key := []
  value := []
  index := ∅

/-- `OpenDB` of a new object: the index it builds from a file, `none` being one
that cannot be opened, whose size comes out as zero too. -/
def openDB (fuel : Nat) (file : Option Bytes) : Option (Index Bytes Bytes) :=
  match file with
  | none => some ∅
  | some bytes =>
      if bytes.length = 0 then some ∅
      else (loadLoop fuel (Loader.start bytes)).map Loader.index

/-! ## One turn, on any bytes -/

/-- The size word after at most four bytes of `src` were read over `old`. -/
def sizeOver (old : Nat) (src : Bytes) : Nat := ofLe (memcpy (toLe 4 old) 0 (src.take 4))

/-- A string of `n` bytes read over `old` from `src`. -/
def bytesOver (old : Bytes) (n : Nat) (src : Bytes) : Bytes :=
  memcpy (resize old n) 0 (src.take n)

/-- What a turn finds in `src`, where the strings still hold `key` and `value`. -/
def entryOver (key value : Bytes) (src : Bytes) : Bytes × Bytes :=
  let n := sizeOver 0 src
  let n' := sizeOver n ((src.drop 4).drop n)
  (bytesOver key n (src.drop 4), bytesOver value n' (((src.drop 4).drop n).drop 4))

/-- How many bytes a turn asks for. -/
def spanOver (src : Bytes) : Nat :=
  let n := sizeOver 0 src
  4 + n + 4 + sizeOver n ((src.drop 4).drop n)

theorem eight_le_spanOver (src : Bytes) : 8 ≤ spanOver src := by
  simp only [spanOver]
  omega

/-- A loop about to start a turn. -/
structure Loader.Ready (l : Loader) : Prop where
  open_ : l.file.eof = false ∧ l.file.fail = false
  going : l.isEnd = false
  zero : l.itemSize = 0

namespace Loader.Ready

variable {l : Loader}

theorem start (file : Bytes) : (Loader.start file).Ready := ⟨⟨rfl, rfl⟩, rfl, rfl⟩

theorem sound (h : l.Ready) : l.file.Sound where
  flags := h.open_.2.trans h.open_.1.symm
  atEnd := fun he => by rw [h.open_.1] at he; exact nomatch he

/-- A turn that reads a size of zero ends the loop with the index as it was. -/
theorem loadTurn_zero (h : l.Ready) (hz : sizeOver 0 l.file.rest = 0) :
    (loadTurn l).1 = true ∧ (loadTurn l).2.index = l.index := by
  have hsize : ofLe (memcpy (toLe 4 0) 0 (l.file.rest.take 4)) = 0 := hz
  unfold loadTurn
  simp only [h.zero, h.sound.read_eq, hsize, if_true, and_self]

/-- Any other turn inserts what it finds, and notices the end of the file just
when it asked for more than there was. -/
theorem loadTurn_eq (h : l.Ready) (hz : sizeOver 0 l.file.rest ≠ 0) :
    loadTurn l = (decide (l.file.rest.length < spanOver l.file.rest),
      { file := l.file.after (spanOver l.file.rest)
        isEnd := decide (l.file.rest.length < spanOver l.file.rest)
        itemSize := 0
        key := (entryOver l.key l.value l.file.rest).1
        value := (entryOver l.key l.value l.file.rest).2
        index := l.index.insert (entryOver l.key l.value l.file.rest).1
          (entryOver l.key l.value l.file.rest).2 }) := by
  have h₁ := h.sound.after 4
  have h₂ := h₁.after (sizeOver 0 l.file.rest)
  have h₃ := h₂.after 4
  have hne : ¬ ofLe (memcpy (toLe 4 0) 0 (l.file.rest.take 4)) = 0 := hz
  have hfile : (((l.file.after 4).after (sizeOver 0 l.file.rest)).after 4).after
      (sizeOver (sizeOver 0 l.file.rest) ((l.file.rest.drop 4).drop (sizeOver 0 l.file.rest))) =
      l.file.after (spanOver l.file.rest) := by
    simp only [IfStream.after_after]
    rfl
  have heof : (l.file.after (spanOver l.file.rest)).eof =
      decide (l.file.rest.length < spanOver l.file.rest) := by
    rw [IfStream.after, h.open_.1, Bool.false_or]
  rw [← heof, ← hfile]
  unfold loadTurn
  simp only [h.zero, h.sound.read_eq, if_neg hne]
  simp only [sizeOver] at h₂ h₃
  simp only [h₁.read_eq, h₂.read_eq, h₃.read_eq]
  rfl

/-- The loop goes on from a turn that found all it asked for. -/
theorem loadTurn_ready (h : l.Ready) (hz : sizeOver 0 l.file.rest ≠ 0)
    (hle : spanOver l.file.rest ≤ l.file.rest.length) : (loadTurn l).2.Ready := by
  have hnot : decide (l.file.rest.length < spanOver l.file.rest) = false :=
    decide_eq_false (Nat.not_lt.mpr hle)
  rw [h.loadTurn_eq hz]
  refine ⟨⟨?_, ?_⟩, hnot, rfl⟩
  · rw [IfStream.after, h.open_.1, hnot, Bool.false_or]
  · rw [IfStream.after, h.open_.1, hnot, Bool.false_or]

/-! ## The loop -/

/-- A turn that reads a size of zero is the last. -/
theorem loadLoop_zero (h : l.Ready) (hz : sizeOver 0 l.file.rest = 0) (fuel : Nat) :
    (loadLoop (fuel + 1) l).map Loader.index = some l.index := by
  obtain ⟨hbreak, hindex⟩ := h.loadTurn_zero hz
  rw [loadLoop, if_neg (by rw [h.going]; decide), if_pos hbreak, Option.map_some, hindex]

/-- A turn that asks for more than there is inserts what it found and is the last. -/
theorem loadLoop_short (h : l.Ready) (hz : sizeOver 0 l.file.rest ≠ 0)
    (hlt : l.file.rest.length < spanOver l.file.rest) (fuel : Nat) :
    (loadLoop (fuel + 1) l).map Loader.index =
      some (l.index.insert (entryOver l.key l.value l.file.rest).1
        (entryOver l.key l.value l.file.rest).2) := by
  have hturn := h.loadTurn_eq hz
  rw [loadLoop, if_neg (by rw [h.going]; decide), if_pos (by rw [hturn]; exact decide_eq_true hlt),
    Option.map_some, hturn]

theorem loadLoop_more (h : l.Ready) (hz : sizeOver 0 l.file.rest ≠ 0)
    (hle : spanOver l.file.rest ≤ l.file.rest.length) (fuel : Nat) :
    loadLoop (fuel + 1) l = loadLoop fuel (loadTurn l).2 := by
  have hturn := h.loadTurn_eq hz
  have hgo : ¬ (loadTurn l).1 = true := by
    rw [hturn]
    exact fun hlt => Nat.not_lt.mpr hle (of_decide_eq_true hlt)
  rw [loadLoop, if_neg (by rw [h.going]; decide), if_neg hgo]

/-- The loop ends on any bytes, since a turn that does not end it has read at
least eight of them; the number of turns allowed does not matter beyond that. -/
theorem loadLoop_ends (n : Nat) : ∀ {l : Loader}, l.Ready → l.file.rest.length ≤ n →
    ∃ index, ∀ fuel, l.file.rest.length < fuel →
      (loadLoop fuel l).map Loader.index = some index := by
  induction n using Nat.strong_induction_on with
  | _ n ih =>
      intro l h hn
      have hfuel : ∀ fuel, l.file.rest.length < fuel → ∃ f, fuel = f + 1 :=
        fun fuel hf => ⟨fuel - 1, by omega⟩
      by_cases hz : sizeOver 0 l.file.rest = 0
      · refine ⟨l.index, fun fuel hf => ?_⟩
        obtain ⟨f, rfl⟩ := hfuel fuel hf
        exact h.loadLoop_zero hz f
      by_cases hlt : l.file.rest.length < spanOver l.file.rest
      · refine ⟨l.index.insert (entryOver l.key l.value l.file.rest).1
          (entryOver l.key l.value l.file.rest).2, fun fuel hf => ?_⟩
        obtain ⟨f, rfl⟩ := hfuel fuel hf
        exact h.loadLoop_short hz hlt f
      · have hle : spanOver l.file.rest ≤ l.file.rest.length := Nat.not_lt.mp hlt
        have hspan := eight_le_spanOver l.file.rest
        have hrest : (loadTurn l).2.file.rest.length =
            l.file.rest.length - spanOver l.file.rest := by
          rw [h.loadTurn_eq hz, IfStream.rest_after, List.length_drop]
        obtain ⟨index, hindex⟩ := ih (n - 8) (by omega) (h.loadTurn_ready hz hle) (by omega)
        refine ⟨index, fun fuel hf => ?_⟩
        obtain ⟨f, rfl⟩ := hfuel fuel hf
        rw [h.loadLoop_more hz hle]
        exact hindex f (by omega)

end Loader.Ready

/-- A loop with turns enough gives what the loop over the bytes gives, also where
there are none. -/
theorem openDB_some {bytes : Bytes} {fuel : Nat} (hf : bytes.length < fuel) :
    openDB fuel (some bytes) = (loadLoop fuel (Loader.start bytes)).map Loader.index := by
  unfold openDB
  by_cases h0 : bytes.length = 0
  · obtain rfl : bytes = [] := List.length_eq_zero_iff.mp h0
    obtain ⟨f, rfl⟩ : ∃ f, fuel = f + 1 := ⟨fuel - 1, by omega⟩
    exact ((Loader.Ready.start []).loadLoop_zero rfl f).symm
  · simp only [if_neg h0]

/-- `OpenDB` ends on every file, having read what it read. -/
theorem openDB_ends (file : Option Bytes) :
    ∃ index, ∀ fuel, (file.getD []).length < fuel → openDB fuel file = some index := by
  cases file with
  | none => exact ⟨∅, fun _ _ => rfl⟩
  | some bytes =>
      obtain ⟨index, h⟩ :=
        Loader.Ready.loadLoop_ends bytes.length (Loader.Ready.start bytes) (Nat.le_refl _)
      exact ⟨index, fun fuel hf => (openDB_some hf).trans (h fuel hf)⟩

/-! ## The file of a map -/

/-- An entry whose sizes fit their words. -/
def Fits (e : Bytes × Bytes) : Prop := e.1.length < 2 ^ 32 ∧ e.2.length < 2 ^ 32

/-- An entry as it stands in the file. -/
def record (e : Bytes × Bytes) : Bytes := writeItem e.1 ++ writeItem e.2

theorem persist_cons (e : Bytes × Bytes) (l : List (Bytes × Bytes)) :
    persist (e :: l) = record e ++ persist l := List.flatMap_cons

theorem writeItem_of_lt {s : Bytes} (h : s.length < 2 ^ 32) :
    writeItem s = toLe 4 s.length ++ s := by
  rw [writeItem, u32_of_lt h, List.take_length]

theorem sizeOver_toLe {n : Nat} (h : n < 2 ^ 32) (old : Nat) (tail : Bytes) :
    sizeOver old (toLe 4 n ++ tail) = n := by
  have htake : (toLe 4 n ++ tail).take 4 = toLe 4 n := List.take_left' (length_toLe 4 n)
  have hwhole : (toLe 4 n).length = (toLe 4 old).length := by rw [length_toLe, length_toLe]
  rw [sizeOver, htake, memcpy_whole hwhole, ofLe_toLe_of_lt h]

theorem bytesOver_whole (old s tail : Bytes) : bytesOver old s.length (s ++ tail) = s := by
  rw [bytesOver, List.take_left, memcpy_whole (length_resize old s.length).symm]

namespace Fits

variable {e : Bytes × Bytes}

theorem record_eq (h : Fits e) :
    record e = toLe 4 e.1.length ++ (e.1 ++ (toLe 4 e.2.length ++ e.2)) := by
  rw [record, writeItem_of_lt h.1, writeItem_of_lt h.2, List.append_assoc]

theorem length_record (h : Fits e) : (record e).length = 8 + e.1.length + e.2.length := by
  rw [h.record_eq]
  simp only [List.length_append, length_toLe]
  omega

theorem record_append (h : Fits e) (tail : Bytes) : record e ++ tail =
    toLe 4 e.1.length ++ (e.1 ++ (toLe 4 e.2.length ++ (e.2 ++ tail))) := by
  rw [h.record_eq]
  simp only [List.append_assoc]

theorem sizeOver_record (h : Fits e) (tail : Bytes) :
    sizeOver 0 (record e ++ tail) = e.1.length := by
  rw [h.record_append]
  exact sizeOver_toLe h.1 0 _

/-- What lies behind the key of a record. -/
theorem drop_record (h : Fits e) (tail : Bytes) :
    ((record e ++ tail).drop 4).drop e.1.length = toLe 4 e.2.length ++ (e.2 ++ tail) := by
  rw [h.record_append, List.drop_left' (length_toLe 4 _), List.drop_left]

/-- A whole record is read as it was written, over whatever strings. -/
theorem entryOver_record (h : Fits e) (key value tail : Bytes) :
    entryOver key value (record e ++ tail) = e := by
  have hkey : (record e ++ tail).drop 4 = e.1 ++ (toLe 4 e.2.length ++ (e.2 ++ tail)) := by
    rw [h.record_append, List.drop_left' (length_toLe 4 _)]
  simp only [entryOver, h.sizeOver_record, h.drop_record, sizeOver_toLe h.2,
    List.drop_left' (length_toLe 4 e.2.length), bytesOver_whole]
  rw [hkey, bytesOver_whole]

theorem spanOver_record (h : Fits e) (tail : Bytes) :
    spanOver (record e ++ tail) = (record e).length := by
  simp only [spanOver, h.sizeOver_record, h.drop_record, sizeOver_toLe h.2, h.length_record]
  omega

end Fits

/-! ## A prefix of the file -/

/-- The size word of a record cut after `c` bytes: what is missing counts as zero. -/
theorem sizeOver_take (n c : Nat) (tail : Bytes) :
    sizeOver 0 ((toLe 4 n ++ tail).take c) = n % 256 ^ min c 4 := by
  have htake : ((toLe 4 n ++ tail).take c).take 4 = toLe (min c 4) n := by
    rw [List.take_take, Nat.min_comm, List.take_append_of_le_length, take_toLe]
    · rw [Nat.min_assoc, Nat.min_self]
    · rw [length_toLe]; exact Nat.min_le_right c 4
  have hzero : toLe 4 0 = List.replicate 4 0 := rfl
  rw [sizeOver, htake, memcpy_zero_eq, hzero, List.drop_replicate, ofLe_append_zeros, ofLe_toLe]

theorem sizeOver_emptyKey {e : Bytes × Bytes} (h : Fits e) (hkey : e.1 = []) (tail : Bytes)
    (c : Nat) : sizeOver 0 ((record e ++ tail).take c) = 0 := by
  rw [h.record_append, sizeOver_take, hkey]
  exact Nat.zero_mod _

namespace Fits

variable {e : Bytes × Bytes} {c : Nat}

/-- A record cut behind its first size word. -/
theorem take_key (h : Fits e) (hc : 4 ≤ c) : (record e).take c =
    toLe 4 e.1.length ++ (e.1 ++ (toLe 4 e.2.length ++ e.2)).take (c - 4) := by
  rw [h.record_eq, List.take_append, length_toLe,
    List.take_of_length_le (by rw [length_toLe]; exact hc)]

/-- Cut behind its key. -/
theorem take_word (h : Fits e) (hc : 4 + e.1.length ≤ c) : (record e).take c =
    toLe 4 e.1.length ++ (e.1 ++ (toLe 4 e.2.length ++ e.2).take (c - 4 - e.1.length)) := by
  rw [h.take_key (by omega), List.take_append, List.take_of_length_le (by omega)]

/-- Cut behind its second size word. -/
theorem take_value (h : Fits e) (hc : 8 + e.1.length ≤ c) : (record e).take c =
    toLe 4 e.1.length ++
      (e.1 ++ (toLe 4 e.2.length ++ e.2.take (c - 8 - e.1.length))) := by
  have hsub : c - 4 - e.1.length - 4 = c - 8 - e.1.length := by omega
  rw [h.take_word (by omega), List.take_append, length_toLe,
    List.take_of_length_le (by rw [length_toLe]; omega), hsub]

/-- A record cut short is not all there that a turn asks for. -/
theorem lt_spanOver (h : Fits e) (hc : c < (record e).length) :
    ((record e).take c).length < spanOver ((record e).take c) := by
  have hlen : ((record e).take c).length = c := by rw [List.length_take]; omega
  rw [hlen]
  rw [h.length_record] at hc
  by_cases h8 : c < 8
  · exact Nat.lt_of_lt_of_le h8 (eight_le_spanOver _)
  by_cases hk : c < 8 + e.1.length
  · have hsize : sizeOver 0 ((record e).take c) = e.1.length := by
      rw [h.take_key (by omega)]
      exact sizeOver_toLe h.1 0 _
    simp only [spanOver, hsize]
    omega
  · simp only [spanOver, h.take_value (Nat.not_lt.mp hk), sizeOver_toLe h.1,
      List.drop_left' (length_toLe 4 _), List.drop_left, sizeOver_toLe h.2]
    omega

end Fits

/-- The entries that the first `c` bytes of the file of `l` are read as, where
the strings still hold `key` and `value`: the whole records, up to one with an
empty key, and what is made of the record the cut falls in. -/
def recordsRead : Bytes → Bytes → List (Bytes × Bytes) → Nat → List (Bytes × Bytes)
  | _, _, [], _ => []
  | key, value, e :: l, c =>
      if e.1 = [] then []
      else if c < (record e).length then
        if sizeOver 0 ((record e).take c) = 0 then []
        else [entryOver key value ((record e).take c)]
      else e :: recordsRead e.1 e.2 l (c - (record e).length)

/-- The loop over a prefix of a file inserts what the prefix is read as. -/
theorem Loader.Ready.loadLoop_take (l : List (Bytes × Bytes)) :
    ∀ {s : Loader} {c fuel : Nat}, (∀ e ∈ l, Fits e) → s.Ready →
      s.file.rest = (persist l).take c → s.file.rest.length < fuel →
      (loadLoop fuel s).map Loader.index =
        some (Index.insertList s.index (recordsRead s.key s.value l c)) := by
  induction l with
  | nil =>
      intro s c fuel _ hs hrest hf
      obtain ⟨f, rfl⟩ : ∃ f, fuel = f + 1 := ⟨fuel - 1, by omega⟩
      have hnil : s.file.rest = [] := hrest.trans List.take_nil
      have hz : sizeOver 0 s.file.rest = 0 := by rw [hnil]; rfl
      exact hs.loadLoop_zero hz f
  | cons e l ih =>
      intro s c fuel hfits hs hrest hf
      obtain ⟨f, rfl⟩ : ∃ f, fuel = f + 1 := ⟨fuel - 1, by omega⟩
      have he : Fits e := hfits e List.mem_cons_self
      rw [persist_cons] at hrest
      rw [recordsRead]
      by_cases hkey : e.1 = []
      · have hz : sizeOver 0 s.file.rest = 0 := by
          rw [hrest]
          exact sizeOver_emptyKey he hkey _ c
        rw [if_pos hkey]
        exact hs.loadLoop_zero hz f
      rw [if_neg hkey]
      by_cases hc : c < (record e).length
      · -- the cut falls into this record: the turn is the last, if it is one
        rw [List.take_append_of_le_length (Nat.le_of_lt hc)] at hrest
        rw [if_pos hc]
        by_cases hz : sizeOver 0 ((record e).take c) = 0
        · rw [if_pos hz]
          exact hs.loadLoop_zero (by rw [hrest]; exact hz) f
        · have hlt := he.lt_spanOver hc
          rw [← hrest] at hz hlt
          rw [← hrest, if_neg hz]
          exact hs.loadLoop_short hz hlt f
      · -- a whole record: the loop goes on behind it
        have hle : (record e).length ≤ c := Nat.not_lt.mp hc
        have hwhole : s.file.rest = record e ++ (persist l).take (c - (record e).length) := by
          rw [hrest, List.take_append, List.take_of_length_le hle]
        have hz : sizeOver 0 s.file.rest ≠ 0 := by
          rw [hwhole, he.sizeOver_record]
          exact fun h0 => hkey (List.length_eq_zero_iff.mp h0)
        have hspan : spanOver s.file.rest = (record e).length := by
          rw [hwhole, he.spanOver_record]
        have hlen : s.file.rest.length =
            (record e).length + ((persist l).take (c - (record e).length)).length := by
          rw [hwhole, List.length_append]
        have hturn := hs.loadTurn_eq hz
        have hentry : entryOver s.key s.value s.file.rest = e := by
          rw [hwhole, he.entryOver_record]
        have hnext : (loadTurn s).2.file.rest = (persist l).take (c - (record e).length) := by
          rw [hturn, IfStream.rest_after, hspan, hwhole, List.drop_left]
        have hready := hs.loadTurn_ready hz (by omega)
        have hrec : 0 < (record e).length := by rw [he.length_record]; omega
        have hloop := ih (fun e h => hfits e (List.mem_cons_of_mem _ h)) hready hnext
          (show _ < f by rw [hnext]; omega)
        rw [hs.loadLoop_more hz (by omega), hloop, if_neg hc, hturn]
        simp only [hentry]
        rfl

/-- What `OpenDB` makes of the first `c` bytes of the file of `l`. -/
theorem openDB_take {l : List (Bytes × Bytes)} (h : ∀ e ∈ l, Fits e) {c fuel : Nat}
    (hf : ((persist l).take c).length < fuel) : openDB fuel (some ((persist l).take c)) =
      some (Index.insertList ∅ (recordsRead [] [] l c)) := by
  rw [openDB_some hf]
  exact (Loader.Ready.start _).loadLoop_take l h rfl hf

/-- The whole file is read as the entries that were written. -/
theorem recordsRead_all (l : List (Bytes × Bytes)) (hkey : ∀ e ∈ l, e.1 ≠ []) :
    ∀ key value, recordsRead key value l (persist l).length = l := by
  induction l with
  | nil => intro _ _; rfl
  | cons e l ih =>
      intro key value
      have hrest := ih (fun e h => hkey e (List.mem_cons_of_mem _ h)) e.1 e.2
      have hlen : (persist (e :: l)).length = (record e).length + (persist l).length := by
        rw [persist_cons, List.length_append]
      rw [recordsRead, if_neg (hkey e List.mem_cons_self), if_neg (by omega), hlen,
        Nat.add_sub_cancel_left, hrest]

/-- A map with no empty key, all sizes fitting their words. -/
def Persistable (m : Index Bytes Bytes) : Prop :=
  ∀ key value, m.lookup key = some value →
    key ≠ [] ∧ key.length < 2 ^ 32 ∧ value.length < 2 ^ 32

/-- The file written for a map, in any order, is read back as that map, and the
reading ends on every file. -/
theorem openDB_persist_eq :
    (∀ (m : Index Bytes Bytes) (l : List (Bytes × Bytes)), Persistable m → Index.Lists m l →
      ∀ fuel, (persist l).length < fuel → openDB fuel (some (persist l)) = some m) ∧
    ∀ file : Option Bytes, ∃ index, ∀ fuel, (file.getD []).length < fuel →
      openDB fuel file = some index := by
  refine ⟨fun m l hm hl fuel hf => ?_, openDB_ends⟩
  have hentry : ∀ e ∈ l, e.1 ≠ [] ∧ Fits e := by
    rintro ⟨key, value⟩ he
    exact hm key value (hl.mem_iff.mp he)
  have hread := openDB_take (fun e he => (hentry e he).2)
    (show ((persist l).take (persist l).length).length < fuel by rwa [List.take_length])
  rw [recordsRead_all l (fun e he => (hentry e he).1), List.take_length,
    Index.insertList_of_lists hl] at hread
  exact hread

/-- Two entries, one of them with an empty value. -/
theorem openDB_persist_eq_two :
    openDB 40 (some (persist [([7, 0], []), ([7], [1, 2, 3])])) =
      some (Index.ofList [([7], [1, 2, 3]), ([7, 0], [])] (by decide)) := by
  refine openDB_persist_eq.1 _ _ ?_ (by decide +kernel) 40 (by decide +kernel)
  intro key value h
  have hl := (Index.lists_ofList _).mem_iff.mpr h
  simp only [List.mem_cons, Prod.mk.injEq, List.not_mem_nil, or_false] at hl
  rcases hl with ⟨rfl, rfl⟩ | ⟨rfl, rfl⟩ <;> decide

end EDRStore
