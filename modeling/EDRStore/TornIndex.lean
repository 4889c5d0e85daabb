/-
# `EDRStore.TornIndex` — the index file of a shutdown that was interrupted

The destructor writes its records one behind the other; when it does not come to
the end, the file is a prefix of what it would have been.  `OpenDB` inserts what
its reads leave in `key` and `value` *before* it looks at `eof`, so the record
the cut falls in is completed with what the strings and the size word held, and
inserted.  Nothing checks that a read got what it asked for, as `gcount` is
checked where a container is read.

`CutHarmless` says, in terms of that record, of the one before it and of the
place of the cut, when no damage is done; `openDB_take_sub_iff` says that this
is all there is to it.  The condition is on the map: whether the made-up entry
is by chance one of its own.
-/
import EDRStore.InMemDb

namespace EDRStore

/-! ## Sizes of 4 GiB and more -/

/-- What the destructor writes of an entry. -/
def written (e : Bytes × Bytes) : Bytes × Bytes :=
  (e.1.take (u32 e.1.length), e.2.take (u32 e.2.length))

theorem length_take_u32 (s : Bytes) : (s.take (u32 s.length)).length = u32 s.length := by
  rw [List.length_take]
  exact Nat.min_eq_left (Nat.mod_le _ _)

theorem fits_written (e : Bytes × Bytes) : Fits (written e) := by
  constructor
  · show (e.1.take _).length < _
    rw [length_take_u32]
    exact u32_lt _
  · show (e.2.take _).length < _
    rw [length_take_u32]
    exact u32_lt _

theorem writeItem_take (s : Bytes) : writeItem (s.take (u32 s.length)) = writeItem s := by
  have hlt : (s.take (u32 s.length)).length < 2 ^ 32 := by
    rw [length_take_u32]
    exact u32_lt _
  rw [writeItem_of_lt hlt, length_take_u32, writeItem]

theorem persist_written (l : List (Bytes × Bytes)) : persist (l.map written) = persist l := by
  induction l with
  | nil => rfl
  | cons e l ih =>
      rw [List.map_cons, persist_cons, persist_cons, ih, record, record, written, writeItem_take,
        writeItem_take]

theorem written_of_fits {e : Bytes × Bytes} (h : Fits e) : written e = e := by
  rw [written, u32_of_lt h.1, u32_of_lt h.2, List.take_length, List.take_length]

theorem fits_of_mem_written (l : List (Bytes × Bytes)) : ∀ e ∈ l.map written, Fits e := by
  intro e he
  obtain ⟨e', -, rfl⟩ := List.mem_map.mp he
  exact fits_written e'

/-! ## A record cut after `t` bytes -/

/-- The second size word where `j` of its bytes were read over the first. -/
def mixedSize (keySize valueSize j : Nat) : Nat :=
  keySize / 256 ^ j * 256 ^ j + valueSize % 256 ^ j

/-- What has to hold of a record with `key` and `value`, cut after `t` bytes,
behind a record with `pkey` and `pvalue`. -/
def CutHarmless (m : Index Bytes Bytes) (pkey pvalue key value : Bytes) (t : Nat) : Prop :=
  if t < 4 + key.length then
    -- in the size of the key, which is then what is there of it, or in the key
    key.length % 256 ^ min t 4 = 0 ∨
      m.lookup (key.take (t - 4) ++ (resize pkey (key.length % 256 ^ min t 4)).drop (t - 4)) =
        some (resize pvalue (key.length % 256 ^ min t 4))
  else if t < 8 + key.length then
    -- in the size of the value
    m.lookup key = some (resize pvalue (mixedSize key.length value.length (t - 4 - key.length)))
  else
    m.lookup key = some (value.take (t - 8 - key.length) ++
      (resize pvalue value.length).drop (t - 8 - key.length))

/-- The key that a cut record is inserted under, if it is inserted. -/
def cutKey (pkey key : Bytes) (t : Nat) : List Bytes :=
  if key.length % 256 ^ min t 4 = 0 then []
  else [key.take (t - 4) ++ (resize pkey (key.length % 256 ^ min t 4)).drop (t - 4)]

/-- The keys of the records in the first `c` bytes of the file of `l`, the cut
one's as it is read. -/
def keysRead : Bytes → List (Bytes × Bytes) → Nat → List Bytes
  | _, [], _ => []
  | pkey, e :: l, c =>
      if e.1 = [] then []
      else if c < 8 + e.1.length + e.2.length then cutKey pkey e.1 c
      else e.1 :: keysRead e.1 l (c - (8 + e.1.length + e.2.length))

/-- Cutting the file of `l` after `c` bytes adds nothing to the map.  Nothing is
asked of a whole record, unless it lost bytes when it was written; the one the cut
falls in is harmless. -/
def Harmless (m : Index Bytes Bytes) : Bytes → Bytes → List (Bytes × Bytes) → Nat → Prop
  | _, _, [], _ => True
  | pkey, pvalue, e :: l, c =>
      let w := written e
      let rest := c - (8 + w.1.length + w.2.length)
      if w.1 = [] then True
      else if c < 8 + w.1.length + w.2.length then CutHarmless m pkey pvalue w.1 w.2 c
      else
        (Fits e ∨ m.lookup w.1 = some w.2 ∨ w.1 ∈ keysRead w.1 (l.map written) rest) ∧
        Harmless m w.1 w.2 l rest

instance (m : Index Bytes Bytes) (pkey pvalue key value : Bytes) (t : Nat) :
    Decidable (CutHarmless m pkey pvalue key value t) :=
  inferInstanceAs (Decidable (if t < 4 + key.length then _ ∨ _
    else if t < 8 + key.length then _ = _ else _ = _))

instance (e : Bytes × Bytes) : Decidable (Fits e) := inferInstanceAs (Decidable (_ ∧ _))

instance decidableHarmless (m : Index Bytes Bytes) : ∀ (l : List (Bytes × Bytes))
    (pkey pvalue : Bytes) (c : Nat), Decidable (Harmless m pkey pvalue l c)
  | [], _, _, _ => inferInstanceAs (Decidable True)
  | e :: l, pkey, pvalue, c =>
      have := decidableHarmless m l (written e).1 (written e).2
      inferInstanceAs (Decidable (if (written e).1 = [] then True
        else if c < 8 + (written e).1.length + (written e).2.length then
          CutHarmless m pkey pvalue (written e).1 (written e).2 c
        else (_ ∨ _ ∨ _) ∧ _))

/-! ## What the cut record is read as -/

theorem sizeOver_nil {n : Nat} (h : n < 2 ^ 32) : sizeOver n [] = n := by
  rw [sizeOver, List.take_nil, memcpy_zero_nil, ofLe_toLe_of_lt h]

theorem bytesOver_nil (old : Bytes) (n : Nat) : bytesOver old n [] = resize old n := by
  rw [bytesOver, List.take_nil, memcpy_zero_nil]

/-- A string of which only the beginning was read. -/
theorem bytesOver_take {old s : Bytes} {i : Nat} (hi : i ≤ s.length) :
    bytesOver old s.length (s.take i) = s.take i ++ (resize old s.length).drop i := by
  have hlen : (s.take i).length = i := by rw [List.length_take]; omega
  rw [bytesOver, List.take_of_length_le (by omega), memcpy_zero_eq, hlen]

/-- The size word after `j` bytes of another one were read over it. -/
theorem sizeOver_mixed {n n' j : Nat} (hn : n < 2 ^ 32) (hj : j ≤ 4) (tail : Bytes) :
    sizeOver n ((toLe 4 n' ++ tail).take j) = mixedSize n n' j := by
  have htake : ((toLe 4 n' ++ tail).take j).take 4 = toLe j n' := by
    rw [List.take_take, Nat.min_eq_right hj,
      List.take_append_of_le_length (by rw [length_toLe]; exact hj), take_toLe,
      Nat.min_eq_left hj]
  have hhigh : n / 256 ^ j < 256 ^ (4 - j) := by
    rw [Nat.div_lt_iff_lt_mul (Nat.pow_pos (by decide)), ← Nat.pow_add, Nat.sub_add_cancel hj]
    exact hn
  rw [sizeOver, htake, memcpy_zero_eq, length_toLe, ofLe_append, drop_toLe, ofLe_toLe,
    length_toLe, ofLe_toLe_of_lt hhigh, mixedSize, Nat.mul_comm (n / _), Nat.add_comm]

namespace Fits

variable {e : Bytes × Bytes} {m : Index Bytes Bytes} {pkey pvalue : Bytes} {t : Nat}

theorem sizeOver_take (h : Fits e) (t : Nat) :
    sizeOver 0 ((record e).take t) = e.1.length % 256 ^ min t 4 := by
  rw [h.record_eq, EDRStore.sizeOver_take]

/-- Cut in the key or before it. -/
theorem entryOver_key (h : Fits e) (ht : t < 4 + e.1.length) :
    entryOver pkey pvalue ((record e).take t) =
      (e.1.take (t - 4) ++ (resize pkey (e.1.length % 256 ^ min t 4)).drop (t - 4),
        resize pvalue (e.1.length % 256 ^ min t 4)) := by
  have hsize := h.sizeOver_take t
  have hlt : e.1.length % 256 ^ min t 4 < 2 ^ 32 := Nat.lt_of_le_of_lt (Nat.mod_le _ _) h.1
  have hbehind : (((record e).take t).drop 4) = e.1.take (t - 4) := by
    rw [h.record_eq, List.drop_take, List.drop_left' (length_toLe 4 _),
      List.take_append_of_le_length (by omega)]
  have hover : bytesOver pkey (e.1.length % 256 ^ min t 4) (e.1.take (t - 4)) =
      e.1.take (t - 4) ++ (resize pkey (e.1.length % 256 ^ min t 4)).drop (t - 4) := by
    by_cases h4 : 4 ≤ t
    · have hmod : e.1.length % 256 ^ min t 4 = e.1.length := by
        rw [Nat.min_eq_right h4]
        exact Nat.mod_eq_of_lt h.1
      rw [hmod]
      exact bytesOver_take (by omega)
    · have h0 : t - 4 = 0 := by omega
      rw [h0, List.take_zero, bytesOver_nil, List.drop_zero, List.nil_append]
  have hnone : (e.1.take (t - 4)).drop (e.1.length % 256 ^ min t 4) = [] := by
    by_cases h4 : 4 ≤ t
    · have hmod : e.1.length % 256 ^ min t 4 = e.1.length := by
        rw [Nat.min_eq_right h4]
        exact Nat.mod_eq_of_lt h.1
      rw [hmod]
      exact List.drop_eq_nil_of_le (by rw [List.length_take]; omega)
    · have h0 : t - 4 = 0 := by omega
      rw [h0, List.take_zero, List.drop_nil]
  simp only [entryOver, hsize, hbehind, hnone, hover, sizeOver_nil hlt, List.drop_nil,
    bytesOver_nil]

/-- Cut in the size of the value. -/
theorem entryOver_word (h : Fits e) (hk : 4 + e.1.length ≤ t) (ht : t < 8 + e.1.length) :
    entryOver pkey pvalue ((record e).take t) =
      (e.1, resize pvalue (mixedSize e.1.length e.2.length (t - 4 - e.1.length))) := by
  have hword : ((toLe 4 e.2.length ++ e.2).take (t - 4 - e.1.length)).drop 4 = [] :=
    List.drop_eq_nil_of_le (by rw [List.length_take]; omega)
  simp only [entryOver, h.take_word hk, sizeOver_toLe h.1, List.drop_left' (length_toLe 4 _),
    List.drop_left, bytesOver_whole, hword, bytesOver_nil,
    sizeOver_mixed h.1 (show t - 4 - e.1.length ≤ 4 by omega)]

/-- Cut in the value. -/
theorem entryOver_value (h : Fits e) (hk : 8 + e.1.length ≤ t)
    (ht : t < 8 + e.1.length + e.2.length) :
    entryOver pkey pvalue ((record e).take t) =
      (e.1, e.2.take (t - 8 - e.1.length) ++
        (resize pvalue e.2.length).drop (t - 8 - e.1.length)) := by
  simp only [entryOver, h.take_value hk, sizeOver_toLe h.1, List.drop_left' (length_toLe 4 _),
    List.drop_left, bytesOver_whole, sizeOver_toLe h.2]
  rw [bytesOver_take (show t - 8 - e.1.length ≤ e.2.length by omega)]

end Fits

/-! ## The condition is exact -/

section Exact

variable {m : Index Bytes Bytes}

/-- The keys that a prefix is read under. -/
theorem map_fst_recordsRead (l : List (Bytes × Bytes)) (hfits : ∀ e ∈ l, Fits e) :
    ∀ pkey pvalue c, (recordsRead pkey pvalue l c).map Prod.fst = keysRead pkey l c := by
  induction l with
  | nil => intro _ _ _; rfl
  | cons e l ih =>
      intro pkey pvalue c
      have he : Fits e := hfits e List.mem_cons_self
      rw [recordsRead, keysRead, he.length_record]
      by_cases hkey : e.1 = []
      · rw [if_pos hkey, if_pos hkey, List.map_nil]
      rw [if_neg hkey, if_neg hkey]
      by_cases hc : c < 8 + e.1.length + e.2.length
      · rw [if_pos hc, if_pos hc, cutKey, he.sizeOver_take]
        by_cases hz : e.1.length % 256 ^ min c 4 = 0
        · rw [if_pos hz, if_pos hz, List.map_nil]
        rw [if_neg hz, if_neg hz, List.map_singleton]
        by_cases hk : c < 4 + e.1.length
        · rw [he.entryOver_key hk]
        · -- the whole key is there, and nothing is left of the one before
          have hmod : e.1.length % 256 ^ min c 4 = e.1.length := by
            rw [Nat.min_eq_right (by omega)]
            exact Nat.mod_eq_of_lt he.1
          have hkeyEq : e.1.take (c - 4) ++ (resize pkey (e.1.length % 256 ^ min c 4)).drop (c - 4) =
              e.1 := by
            rw [hmod, List.take_of_length_le (by omega), List.drop_eq_nil_of_le, List.append_nil]
            rw [length_resize]
            omega
          rw [hkeyEq]
          by_cases hw : c < 8 + e.1.length
          · rw [he.entryOver_word (Nat.not_lt.mp hk) hw]
          · rw [he.entryOver_value (Nat.not_lt.mp hw) hc]
      · rw [if_neg hc, if_neg hc, List.map_cons, ih (fun e h => hfits e (List.mem_cons_of_mem _ h))]

/-- The record the cut falls in. -/
theorem lastIn_cut {e : Bytes × Bytes} (he : Fits e) (hkey : e.1 ≠ []) {pkey pvalue : Bytes}
    {c : Nat} (hc : c < 8 + e.1.length + e.2.length) :
    Index.LastIn m (if sizeOver 0 ((record e).take c) = 0 then []
      else [entryOver pkey pvalue ((record e).take c)]) ↔
      CutHarmless m pkey pvalue e.1 e.2 c := by
  have hpos : 0 < e.1.length := List.length_pos_iff.mpr hkey
  have hone : ∀ a : Bytes × Bytes, Index.LastIn m [a] ↔ m.lookup a.1 = some a.2 := by
    intro a
    simp [Index.LastIn]
  rw [he.sizeOver_take, CutHarmless]
  by_cases hk : c < 4 + e.1.length
  · rw [if_pos hk]
    by_cases hz : e.1.length % 256 ^ min c 4 = 0
    · rw [if_pos hz]
      exact iff_of_true trivial (Or.inl hz)
    · rw [if_neg hz, hone, he.entryOver_key hk, or_iff_right hz]
  · have hmod : e.1.length % 256 ^ min c 4 = e.1.length := by
      rw [Nat.min_eq_right (by omega)]
      exact Nat.mod_eq_of_lt he.1
    rw [if_neg hk, hmod, if_neg (Nat.pos_iff_ne_zero.mp hpos), hone]
    by_cases hw : c < 8 + e.1.length
    · rw [if_pos hw, he.entryOver_word (Nat.not_lt.mp hk) hw]
    · rw [if_neg hw, he.entryOver_value (Nat.not_lt.mp hw) hc]

/-- The condition says that no entry read is new, unless a later one replaces it. -/
theorem lastIn_recordsRead (l : List (Bytes × Bytes))
    (hentry : ∀ e ∈ l, m.lookup e.1 = some e.2) : ∀ pkey pvalue c,
    Index.LastIn m (recordsRead pkey pvalue (l.map written) c) ↔ Harmless m pkey pvalue l c := by
  induction l with
  | nil => intro _ _ _; exact Iff.rfl
  | cons e l ih =>
      intro pkey pvalue c
      have he : Fits (written e) := fits_written e
      have hl : ∀ e ∈ l, m.lookup e.1 = some e.2 :=
        fun e h => hentry e (List.mem_cons_of_mem _ h)
      rw [List.map_cons, recordsRead, Harmless, he.length_record]
      by_cases hkey : (written e).1 = []
      · rw [if_pos hkey, if_pos hkey]
        exact iff_of_true trivial trivial
      rw [if_neg hkey, if_neg hkey]
      by_cases hc : c < 8 + (written e).1.length + (written e).2.length
      · rw [if_pos hc, if_pos hc]
        exact lastIn_cut he hkey hc
      · rw [if_neg hc, if_neg hc, Index.LastIn, map_fst_recordsRead _ (fits_of_mem_written l),
          ih hl]
        refine and_congr_left fun _ => (or_iff_right_of_imp fun hfits => Or.inl ?_).symm
        rw [written_of_fits hfits]
        exact hentry e List.mem_cons_self

end Exact

/-! ## The torn file -/

/-- Every prefix of the file is loaded, and what is loaded are entries of the map
just when the cut is harmless. -/
theorem openDB_take_sub_iff {m : Index Bytes Bytes} {l : List (Bytes × Bytes)}
    (hl : Index.Lists m l) {c fuel : Nat} (hf : c < fuel) :
    ∃ index, openDB fuel (some ((persist l).take c)) = some index ∧
      ((∀ key value, index.lookup key = some value → m.lookup key = some value) ↔
        Harmless m [] [] l c) := by
  have hlen : ((persist (l.map written)).take c).length < fuel := by
    rw [List.length_take]
    omega
  have hread := openDB_take (fits_of_mem_written l) hlen
  rw [persist_written] at hread
  refine ⟨_, hread, ?_⟩
  show Index.Sub _ m ↔ _
  rw [Index.insertList_empty_sub_iff]
  exact lastIn_recordsRead l (fun e he => hl.mem_iff.mp he) [] [] c

/-- The second record loses its last byte, and the padding replaces it. -/
theorem openDB_take_sub_iff_padded :
    ∃ index, openDB 22 (some ((persist [([1], [7, 0]), ([2], [9, 0])]).take 21)) = some index ∧
      ((∀ key value, index.lookup key = some value →
        (Index.ofList [([1], [7, 0]), ([2], [9, 0])] (by decide)).lookup key = some value) ↔
          Harmless (Index.ofList [([1], [7, 0]), ([2], [9, 0])] (by decide)) [] []
            [([1], [7, 0]), ([2], [9, 0])] 21) :=
  openDB_take_sub_iff (Index.lists_ofList (by decide)) (by decide)

example : Harmless (Index.ofList [([1], [7, 0]), ([2], [9, 0])] (by decide)) [] []
    [([1], [7, 0]), ([2], [9, 0])] 21 := by decide +kernel

/-- The only record loses its last byte, which is not the padding: the key is
loaded with a value that the map never held. -/
theorem torn_value_loaded :
    Index.Lists (Index.ofList [([1], [2, 3])] (by decide)) [([1], [2, 3])] ∧
      10 < (persist [([1], [2, 3])]).length ∧
      openDB 11 (some ((persist [([1], [2, 3])]).take 10)) =
        some (Index.ofList [([1], [2, 0])] (by decide)) ∧
      (Index.ofList [([1], [2, 0])] (by decide)).lookup [1] = some ([2, 0] : Bytes) ∧
      (Index.ofList [([1], [2, 3])] (by decide)).lookup [1] ≠ some ([2, 0] : Bytes) := by
  refine ⟨Index.lists_ofList (by decide), by decide +kernel, by decide +kernel, ?_, ?_⟩
  · decide +kernel
  · decide +kernel

end EDRStore
