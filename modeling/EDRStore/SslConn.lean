/-
# `EDRStore.SslConn` — messages over one connection

`SendData` writes the size of a message in 32 bits and then the message;
`ReceiveData` reads the size and then that many bytes.  What lies between them
is a byte stream: `SSL_read` gives the next bytes in order, at least one and at
most as many as asked for, and how many is up to the transport.  The bytes of a
message are read in a loop that goes on until all are there.  The four bytes of
the size are read by a single `SSL_read`, whose result is only compared with
zero.

`receiveAll_iff` says when the receiver nevertheless gets what was sent.  A size
that comes in whole is never a problem, in however many pieces the messages do.
After the first one that does not, the receiver is behind the sender for good,
and only zeros hide it.
-/
import EDRStore.Lib.Bytes
import EDRStore.Data

namespace EDRStore

/-- What `SendData` can be called with: its `size` is a `uint32_t`. -/
structure Message where
  bytes : Bytes
  small : bytes.length < 2 ^ 32

/-- How the transport cuts the stream: the `SSL_read` that begins at byte `p`
of it returns up to `len p` bytes, never none.  Since every read moves on, no two
begin at the same byte, and any sequence of pieces is given this way. -/
structure Fragmentation where
  len : Nat → Nat
  pos : ∀ p, 0 < len p

/-- A connection: the bytes sent and not yet read, and how many were read. -/
structure SSLConnection where
  unread : Bytes
  position : Nat
deriving DecidableEq, Repr

namespace SSLConnection

/-! ## Sending -/

/-- `SSL_write`, which returns when all is written. -/
def sslWrite (c : SSLConnection) (data : Bytes) : SSLConnection × Nat :=
  ({ c with unread := c.unread ++ data }, data.length)

/-- `while (current_send_size < size)`. -/
def sendLoop (data : Bytes) : Nat → Nat → SSLConnection → Option SSLConnection
  | 0, _, _ => none
  | fuel + 1, currentSendSize, c =>
      if currentSendSize < data.length then
        let w := c.sslWrite (data.drop currentSendSize)
        sendLoop data fuel (currentSendSize + w.2) w.1
      else some c

def sendData (c : SSLConnection) (msg : Message) : Option SSLConnection :=
  sendLoop msg.bytes (msg.bytes.length + 1) 0 (c.sslWrite (toLe 4 msg.bytes.length)).1

/-- `SendData` for each message. -/
def sendAll (c : SSLConnection) (msgs : List Message) : Option SSLConnection :=
  msgs.foldlM sendData c

/-! ## Receiving -/

/-- `SSL_read`: the next bytes of the stream, `none` when there are no more. -/
def sslRead (frag : Fragmentation) (c : SSLConnection) (n : Nat) : Option (Bytes × SSLConnection) :=
  if c.unread = [] then none
  else
    let k := min (frag.len c.position) (min n c.unread.length)
    some (c.unread.take k, { unread := c.unread.drop k, position := c.position + k })

/-- `while (current_recv_size < msg_size)`: `data` holds what was read so far. -/
def recvLoop (frag : Fragmentation) (msgSize : Nat) :
    Nat → Bytes → SSLConnection → Option (Bytes × SSLConnection)
  | 0, _, _ => none
  | fuel + 1, data, c =>
      if data.length < msgSize then
        match sslRead frag c (msgSize - data.length) with
        | none => none
        | some (piece, c) => recvLoop frag msgSize fuel (data ++ piece) c
      else some (data, c)

/-- `ReceiveData`: what `data` and `recv_size` hold when it returns true, `none`
when it returns false. -/
def receiveData (frag : Fragmentation) (c : SSLConnection) :
    Option ((Bytes × Nat) × SSLConnection) :=
  match sslRead frag c 4 with
  | none => none
  | some (word, c) =>
      let msgSize := ofLe (memcpy (toLe 4 0) 0 word)
      match recvLoop frag msgSize (msgSize + 1) [] c with
      | none => none
      | some (data, c) => some ((data, msgSize), c)

/-- `ReceiveData` so many times. -/
def receiveAll (frag : Fragmentation) : Nat → SSLConnection → Option (List (Bytes × Nat))
  | 0, _ => some []
  | n + 1, c =>
      match receiveData frag c with
      | none => none
      | some (msg, c) => (receiveAll frag n c).map (msg :: ·)

end SSLConnection

/-- What the receiver should get. -/
def Message.received (m : Message) : Bytes × Nat := (m.bytes, m.bytes.length)

/-! ## What one call does -/

/-- A message as it stands in the stream. -/
def Message.frame (m : Message) : Bytes := toLe 4 m.bytes.length ++ m.bytes

namespace SSLConnection

variable {frag : Fragmentation} {c : SSLConnection}

theorem sendData_eq (m : Message) :
    c.sendData m = some { c with unread := c.unread ++ m.frame } := by
  have hdone : ∀ fuel cur c', m.bytes.length ≤ cur →
      sendLoop m.bytes (fuel + 1) cur c' = some c' := by
    intro fuel cur c' hcur
    rw [sendLoop, if_neg (Nat.not_lt.mpr hcur)]
  rw [sendData, sendLoop]
  by_cases hpos : 0 < m.bytes.length
  · obtain ⟨n, hn⟩ : ∃ n, m.bytes.length = n + 1 := ⟨m.bytes.length - 1, by omega⟩
    rw [if_pos hpos]
    simp only [sslWrite, List.drop_zero, Nat.zero_add]
    rw [hn, hdone n (n + 1) _ (Nat.le_of_eq hn), ← hn, Message.frame, List.append_assoc]
  · have hnil : m.bytes = [] := List.length_eq_zero_iff.mp (Nat.eq_zero_of_not_pos hpos)
    rw [if_neg hpos, Message.frame, hnil, List.append_nil]
    rfl

theorem sendAll_eq (msgs : List Message) : ∀ c : SSLConnection,
    c.sendAll msgs = some { c with unread := c.unread ++ msgs.flatMap Message.frame } := by
  induction msgs with
  | nil => intro c; rw [List.flatMap_nil, List.append_nil]; rfl
  | cons m ms ih =>
      intro c
      rw [sendAll, List.foldlM_cons, sendData_eq]
      show sendAll _ ms = _
      rw [ih, List.flatMap_cons, List.append_assoc]

/-- The bytes `n` further on. -/
def advance (c : SSLConnection) (n : Nat) : SSLConnection where
  unread := c.unread.drop n
  position := c.position + n

theorem advance_advance (c : SSLConnection) (m n : Nat) :
    (c.advance m).advance n = c.advance (m + n) :=
  (mk.injEq ..).mpr ⟨List.drop_drop, Nat.add_assoc _ _ _⟩

theorem sslRead_eq (hne : c.unread ≠ []) (n : Nat) : sslRead frag c n =
    some (c.unread.take (min (frag.len c.position) (min n c.unread.length)),
      c.advance (min (frag.len c.position) (min n c.unread.length))) := by
  rw [sslRead, if_neg hne]
  rfl

/-- The loop gets all the bytes it is after, if they are there, in whatever
pieces they come. -/
theorem recvLoop_eq (msgSize : Nat) : ∀ (fuel : Nat) {data : Bytes} {c : SSLConnection},
    data.length ≤ msgSize → msgSize - data.length < fuel →
      recvLoop frag msgSize fuel data c =
        if msgSize - data.length ≤ c.unread.length then
          some (data ++ c.unread.take (msgSize - data.length), c.advance (msgSize - data.length))
        else none := by
  intro fuel
  induction fuel with
  | zero => intro data c _ hf; exact absurd hf (Nat.not_lt_zero _)
  | succ fuel ih =>
      intro data c hle hf
      rw [recvLoop]
      by_cases hlt : data.length < msgSize
      · rw [if_pos hlt]
        by_cases hne : c.unread = []
        · rw [sslRead, if_pos hne, if_neg]
          rw [hne, List.length_nil]
          omega
        · -- at least one byte comes in, and what is missing is as much less
          have hlen : 0 < c.unread.length := List.length_pos_iff.mpr hne
          have hfrag := frag.pos c.position
          rw [sslRead_eq hne]
          generalize hk : min (frag.len c.position) (min (msgSize - data.length) c.unread.length) = k
          have htake : (data ++ c.unread.take k).length = data.length + k := by
            rw [List.length_append, List.length_take]
            omega
          have hmiss : msgSize - (data.length + k) = msgSize - data.length - k := by omega
          have hrest : (c.advance k).unread.length = c.unread.length - k := List.length_drop
          have hloop := @ih (data ++ c.unread.take k) (c.advance k) (by omega) (by omega)
          show recvLoop frag msgSize fuel _ _ = _
          rw [hloop, htake, hmiss, hrest, advance_advance, List.append_assoc]
          have hcond : (msgSize - data.length - k ≤ c.unread.length - k) ↔
              msgSize - data.length ≤ c.unread.length := by omega
          have hsum : k + (msgSize - data.length - k) = msgSize - data.length := by omega
          have hbytes : c.unread.take k ++ (c.advance k).unread.take (msgSize - data.length - k) =
              c.unread.take (msgSize - data.length) := by
            rw [← hsum, List.take_add, Nat.add_sub_cancel_left]
            rfl
          simp only [hcond, hsum, hbytes]
      · have h0 : msgSize - data.length = 0 := by omega
        rw [if_neg hlt, h0, if_pos (Nat.zero_le _), List.take_zero, List.append_nil]
        rfl

/-- How many bytes of the size come in, where at least four are there. -/
def sizeRead (frag : Fragmentation) (c : SSLConnection) : Nat := min (frag.len c.position) 4

theorem sizeRead_le (frag : Fragmentation) (c : SSLConnection) : sizeRead frag c ≤ 4 :=
  Nat.min_le_right _ 4

/-- `ReceiveData` takes what came in of the size for the size, and the bytes
behind for the message. -/
theorem receiveData_eq {n : Nat} (h4 : 4 ≤ c.unread.length)
    (hn : ofLe (c.unread.take (sizeRead frag c)) = n) :
    receiveData frag c =
      if sizeRead frag c + n ≤ c.unread.length then
        some (((c.unread.drop (sizeRead frag c)).take n, n), c.advance (sizeRead frag c + n))
      else none := by
  have hne : c.unread ≠ [] := by
    intro h
    rw [h, List.length_nil] at h4
    exact absurd h4 (by decide)
  have hk : min (frag.len c.position) (min 4 c.unread.length) = sizeRead frag c := by
    rw [Nat.min_eq_left h4, sizeRead]
  have hle := sizeRead_le frag c
  have hword : ofLe (memcpy (toLe 4 0) 0 (c.unread.take (sizeRead frag c))) = n := by
    have hzero : toLe 4 0 = List.replicate 4 0 := rfl
    rw [memcpy_zero_eq, hzero, List.drop_replicate, ofLe_append_zeros, hn]
  have hrest : (c.advance (sizeRead frag c)).unread.length =
      c.unread.length - sizeRead frag c := List.length_drop
  have hloop := @recvLoop_eq frag n (n + 1) [] (c.advance (sizeRead frag c)) (Nat.zero_le n)
    (Nat.lt_succ_self n)
  rw [List.length_nil, Nat.sub_zero, hrest, advance_advance, List.nil_append] at hloop
  rw [receiveData, sslRead_eq hne, hk]
  simp only [hword]
  rw [hloop]
  have hcond : (n ≤ c.unread.length - sizeRead frag c) ↔ sizeRead frag c + n ≤ c.unread.length := by
    omega
  by_cases hfits : sizeRead frag c + n ≤ c.unread.length
  · rw [if_pos hfits, if_pos (hcond.mpr hfits)]
    rfl
  · rw [if_neg hfits, if_neg (fun h => hfits (hcond.mp h))]

theorem receiveAll_cons {n : Nat} {x : Bytes × Nat} {xs : List (Bytes × Nat)} :
    receiveAll frag (n + 1) c = some (x :: xs) ↔
      ∃ c', receiveData frag c = some (x, c') ∧ receiveAll frag n c' = some xs := by
  rw [receiveAll]
  cases h : receiveData frag c with
  | none => simp
  | some r =>
      obtain ⟨y, c₁⟩ := r
      simp only [Option.map_eq_some_iff, List.cons.injEq, Option.some.injEq, Prod.mk.injEq]
      constructor
      · rintro ⟨ys, hys, rfl, rfl⟩
        exact ⟨c₁, ⟨rfl, rfl⟩, hys⟩
      · rintro ⟨c', ⟨rfl, rfl⟩, hxs⟩
        exact ⟨xs, hxs, rfl, rfl⟩

end SSLConnection

/-! ## Behind a size that came in short -/

theorem toLe_zero (w : Nat) : toLe w 0 = List.replicate w 0 := by
  induction w with
  | zero => rfl
  | succ w ih => rw [toLe, Nat.zero_div, ih, List.replicate_succ]; rfl

/-- A message that is its own beginning, moved behind some zeros, is all zeros. -/
theorem eq_zeros_of_shift {m tail : Bytes} {d : Nat} (hd : 0 < d)
    (h : (List.replicate d 0 ++ (m ++ tail)).take m.length = m) :
    m = List.replicate m.length 0 := by
  have htake : ∀ k, k ≤ m.length → m.take k = List.replicate k 0 := by
    intro k
    induction k using Nat.strong_induction_on with
    | _ k ih =>
        intro hk
        by_cases h0 : k = 0
        · rw [h0, List.take_zero, List.replicate_zero]
        have hbefore := ih (k - d) (by omega) (by omega)
        have hfront : m.take k = (List.replicate d 0 ++ (m ++ tail)).take k := by
          have hk' := congrArg (List.take k) h
          rw [List.take_take, Nat.min_eq_left hk] at hk'
          exact hk'.symm
        have hmin : min k d + (k - d) = k := by omega
        rw [hfront, List.take_append, List.take_replicate, List.length_replicate,
          List.take_append_of_le_length (by omega), hbefore, List.replicate_append_replicate, hmin]
  have hall := htake m.length (Nat.le_refl _)
  rwa [List.take_length] at hall

/-- No number but zero is read as itself behind zeros. -/
theorem eq_zero_of_shifted {n d r : Nat} (hd : 0 < d) (hr : r ≤ 4) (hn : n < 2 ^ 32)
    (h : 256 ^ min r d * (n % 256 ^ (r - d)) = n) : n = 0 := by
  by_cases hle : r ≤ d
  · rw [Nat.sub_eq_zero_of_le hle, Nat.pow_zero, Nat.mod_one, Nat.mul_zero] at h
    exact h.symm
  · have hcases : (d = 1 ∧ (r = 2 ∨ r = 3 ∨ r = 4)) ∨ (d = 2 ∧ (r = 3 ∨ r = 4)) ∨
        (d = 3 ∧ r = 4) := by omega
    rw [Nat.min_eq_right (Nat.le_of_not_le hle)] at h
    rcases hcases with ⟨rfl, rfl | rfl | rfl⟩ | ⟨rfl, rfl | rfl⟩ | ⟨rfl, rfl⟩ <;>
      · simp only [Nat.reduceSub, Nat.reducePow] at h
        omega

namespace SSLConnection

variable {frag : Fragmentation} {c c' : SSLConnection} {m : Message} {rest : Bytes} {d : Nat}

theorem length_frame (m : Message) : m.frame.length = 4 + m.bytes.length := by
  rw [Message.frame, List.length_append, length_toLe]

/-- Some zeros in front of a message, and a size read from there. -/
theorem ofLe_behind (frag : Fragmentation)
    (hc : c.unread = List.replicate d 0 ++ (m.frame ++ rest)) :
    ofLe (c.unread.take (sizeRead frag c)) = 256 ^ min (sizeRead frag c) d *
      (m.bytes.length % 256 ^ (sizeRead frag c - d)) := by
  have hle := sizeRead_le frag c
  have hzeros : ofLe (List.replicate (min (sizeRead frag c) d) 0) = 0 := by
    rw [← List.nil_append (List.replicate _ _), ofLe_append_zeros]
    rfl
  rw [hc, List.take_append, List.take_replicate, List.length_replicate, Message.frame,
    List.append_assoc, List.take_append_of_le_length (by rw [length_toLe]; omega), take_toLe,
    Nat.min_eq_left (show sizeRead frag c - d ≤ 4 by omega), ofLe_append, hzeros,
    List.length_replicate, ofLe_toLe, Nat.zero_add]

/-- Once behind, only an empty message comes out right. -/
theorem empty_of_behind (hd : 0 < d) (hc : c.unread = List.replicate d 0 ++ (m.frame ++ rest))
    (h : receiveData frag c = some (m.received, c')) : m.bytes = [] := by
  have h4 : 4 ≤ c.unread.length := by
    rw [hc, List.length_append, List.length_append, length_frame]
    omega
  rw [receiveData_eq h4 (ofLe_behind frag hc)] at h
  split at h
  · have hsize := congrArg (fun r => Option.map (fun x => x.1.2) r) h
    simp only [Option.map_some, Option.some.injEq, Message.received] at hsize
    exact List.length_eq_zero_iff.mp (eq_zero_of_shifted hd (sizeRead_le frag c) m.small hsize)
  · exact nomatch h

/-- And an empty message does, with the receiver still behind. -/
theorem receiveData_behind (frag : Fragmentation)
    (hc : c.unread = List.replicate d 0 ++ (m.frame ++ rest)) (hm : m.bytes = []) :
    receiveData frag c = some (m.received, c.advance (sizeRead frag c)) ∧
      (c.advance (sizeRead frag c)).unread =
        List.replicate (d + (4 - sizeRead frag c)) 0 ++ rest := by
  have hle := sizeRead_le frag c
  have hframe : m.frame = List.replicate 4 0 := by
    rw [Message.frame, hm, List.append_nil, List.length_nil, toLe_zero]
  have h4 : 4 ≤ c.unread.length := by
    rw [hc, List.length_append, List.length_append, length_frame]
    omega
  have hn := ofLe_behind frag hc
  rw [hm, List.length_nil, Nat.zero_mod, Nat.mul_zero] at hn
  constructor
  · rw [receiveData_eq h4 hn, if_pos (by omega), List.take_zero, Nat.add_zero, Message.received, hm]
    rfl
  · have hsum : d + 4 - sizeRead frag c = d + (4 - sizeRead frag c) := by omega
    show c.unread.drop _ = _
    rw [hc, hframe, ← List.append_assoc, List.replicate_append_replicate,
      List.drop_append_of_le_length (by rw [List.length_replicate]; omega), List.drop_replicate,
      hsum]

/-- Once behind, the receiver gets what was sent only if it is nothing but empty
messages. -/
theorem receiveAll_behind_iff (msgs : List Message) : ∀ {d : Nat} {c : SSLConnection}, 0 < d →
    c.unread = List.replicate d 0 ++ msgs.flatMap Message.frame →
      (receiveAll frag msgs.length c = some (msgs.map Message.received) ↔
        ∀ m ∈ msgs, m.bytes = []) := by
  induction msgs with
  | nil => intro d c _ _; exact iff_of_true rfl (fun m h => nomatch h)
  | cons m ms ih =>
      intro d c hd hc
      rw [List.flatMap_cons] at hc
      rw [List.map_cons, List.length_cons, receiveAll_cons, List.forall_mem_cons]
      constructor
      · rintro ⟨c', hstep, htail⟩
        have hm := empty_of_behind hd hc hstep
        obtain ⟨hrecv, hrest⟩ := receiveData_behind frag hc hm
        rw [hrecv] at hstep
        cases hstep
        exact ⟨hm, (ih (by omega) hrest).mp htail⟩
      · rintro ⟨hm, hms⟩
        obtain ⟨hrecv, hrest⟩ := receiveData_behind frag hc hm
        exact ⟨_, hrecv, (ih (by omega) hrest).mpr hms⟩

/-! ## In step -/

/-- A size that comes in whole. -/
theorem receiveData_whole (hc : c.unread = m.frame ++ rest) (hlen : 4 ≤ frag.len c.position) :
    receiveData frag c = some (m.received, c.advance (4 + m.bytes.length)) ∧
      (c.advance (4 + m.bytes.length)).unread = rest := by
  have hr : sizeRead frag c = 4 := Nat.min_eq_right hlen
  have htotal : c.unread.length = 4 + m.bytes.length + rest.length := by
    rw [hc, List.length_append, length_frame]
  have hword : ofLe (c.unread.take (sizeRead frag c)) = m.bytes.length := by
    rw [hr, hc, Message.frame, List.append_assoc, List.take_left' (length_toLe 4 _),
      ofLe_toLe_of_lt m.small]
  have hbody : (c.unread.drop 4).take m.bytes.length = m.bytes := by
    rw [hc, Message.frame, List.append_assoc, List.drop_left' (length_toLe 4 _), List.take_left]
  constructor
  · rw [receiveData_eq (by omega) hword, hr, if_pos (by omega), hbody]
    rfl
  · show c.unread.drop _ = rest
    rw [hc, List.drop_left' (length_frame m)]

section Short

variable (hc : c.unread = m.frame ++ rest) (hlen : frag.len c.position < 4)
include hc hlen

/-- A size of which `r` bytes come in is read modulo `256 ^ r`. -/
theorem receiveData_short : receiveData frag c =
    if frag.len c.position + m.bytes.length % 256 ^ frag.len c.position ≤ c.unread.length then
      some (((c.unread.drop (frag.len c.position)).take
          (m.bytes.length % 256 ^ frag.len c.position),
          m.bytes.length % 256 ^ frag.len c.position),
        c.advance (frag.len c.position + m.bytes.length % 256 ^ frag.len c.position))
    else none := by
  have hr : sizeRead frag c = frag.len c.position := Nat.min_eq_left (Nat.le_of_lt hlen)
  have h4 : 4 ≤ c.unread.length := by
    rw [hc, List.length_append, length_frame]
    omega
  have hword : ofLe (c.unread.take (sizeRead frag c)) =
      m.bytes.length % 256 ^ frag.len c.position := by
    rw [hr, hc, Message.frame, List.append_assoc,
      List.take_append_of_le_length (by rw [length_toLe]; omega), take_toLe,
      Nat.min_eq_left (Nat.le_of_lt hlen), ofLe_toLe]
  rw [receiveData_eq h4 hword, hr]

/-- What is left of a small size is zeros. -/
theorem drop_short (hsize : m.bytes.length < 256 ^ frag.len c.position) :
    c.unread.drop (frag.len c.position) =
      List.replicate (4 - frag.len c.position) 0 ++ (m.bytes ++ rest) := by
  rw [hc, Message.frame, List.append_assoc,
    List.drop_append_of_le_length (by rw [length_toLe]; omega), drop_toLe,
    Nat.div_eq_of_lt hsize, toLe_zero]

/-- A receiver that notices nothing is behind from then on. -/
theorem receiveData_zeros (hsize : m.bytes.length < 256 ^ frag.len c.position)
    (hzero : m.bytes = List.replicate m.bytes.length 0) :
    receiveData frag c =
        some (m.received, c.advance (frag.len c.position + m.bytes.length)) ∧
      (c.advance (frag.len c.position + m.bytes.length)).unread =
        List.replicate (4 - frag.len c.position) 0 ++ rest := by
  -- the zeros left of the size and those of the message change places
  have hswap : c.unread.drop (frag.len c.position) =
      m.bytes ++ (List.replicate (4 - frag.len c.position) 0 ++ rest) := by
    rw [drop_short hc hlen hsize, hzero, ← List.append_assoc, ← List.append_assoc,
      List.replicate_append_replicate, List.replicate_append_replicate, Nat.add_comm]
  have htotal : c.unread.length = 4 + m.bytes.length + rest.length := by
    rw [hc, List.length_append, length_frame]
  constructor
  · rw [receiveData_short hc hlen, Nat.mod_eq_of_lt hsize, if_pos (by omega), hswap,
      List.take_left]
    rfl
  · show c.unread.drop _ = _
    rw [← List.drop_drop, hswap, List.drop_left]

/-- It notices nothing only where what is left of the size, and the message, are
zeros. -/
theorem zeros_of_received (h : receiveData frag c = some (m.received, c')) :
    m.bytes.length < 256 ^ frag.len c.position ∧ m.bytes = List.replicate m.bytes.length 0 := by
  rw [receiveData_short hc hlen] at h
  split at h
  · simp only [Message.received, Option.some.injEq, Prod.mk.injEq] at h
    obtain ⟨⟨hbytes, hmod⟩, -⟩ := h
    have hsize : m.bytes.length < 256 ^ frag.len c.position := by
      rw [← hmod]
      exact Nat.mod_lt _ (Nat.pow_pos (by decide))
    refine ⟨hsize, ?_⟩
    rw [hmod, drop_short hc hlen hsize] at hbytes
    exact eq_zeros_of_shift (Nat.sub_pos_of_lt hlen) hbytes
  · exact nomatch h

end Short

end SSLConnection

/-! ## All messages -/

/-- The sizes come in whole; or the first one that does not, at the position
given, is that of a message of zeros that it is still right about, and only empty
messages follow. -/
def SizesWhole (frag : Fragmentation) : Nat → List Message → Prop
  | _, [] => True
  | pos, m :: ms =>
      (4 ≤ frag.len pos ∧ SizesWhole frag (pos + (4 + m.bytes.length)) ms) ∨
      (frag.len pos < 4 ∧ m.bytes.length < 256 ^ frag.len pos ∧
        m.bytes = List.replicate m.bytes.length 0 ∧ ∀ m' ∈ ms, m'.bytes = [])

theorem SSLConnection.receiveAll_sizesWhole {frag : Fragmentation} (msgs : List Message) :
    ∀ {c : SSLConnection}, c.unread = msgs.flatMap Message.frame →
      (receiveAll frag msgs.length c = some (msgs.map Message.received) ↔
        SizesWhole frag c.position msgs) := by
  induction msgs with
  | nil => intro c _; exact iff_of_true rfl trivial
  | cons m ms ih =>
      intro c hc
      rw [List.flatMap_cons] at hc
      rw [List.map_cons, List.length_cons, receiveAll_cons, SizesWhole]
      by_cases hlen : 4 ≤ frag.len c.position
      · obtain ⟨hrecv, hrest⟩ := receiveData_whole hc hlen
        rw [or_iff_left (fun h => Nat.not_lt.mpr hlen h.1), and_iff_right hlen]
        constructor
        · rintro ⟨c', hstep, htail⟩
          rw [hrecv] at hstep
          cases hstep
          exact (ih hrest).mp htail
        · intro htail
          exact ⟨_, hrecv, (ih hrest).mpr htail⟩
      · have hlt : frag.len c.position < 4 := Nat.not_le.mp hlen
        rw [or_iff_right (fun h => hlen h.1), and_iff_right hlt]
        constructor
        · rintro ⟨c', hstep, htail⟩
          obtain ⟨hsize, hzero⟩ := zeros_of_received hc hlt hstep
          obtain ⟨hrecv, hrest⟩ := receiveData_zeros hc hlt hsize hzero
          rw [hrecv] at hstep
          cases hstep
          exact ⟨hsize, hzero, (receiveAll_behind_iff ms (Nat.sub_pos_of_lt hlt) hrest).mp htail⟩
        · rintro ⟨hsize, hzero, hms⟩
          obtain ⟨hrecv, hrest⟩ := receiveData_zeros hc hlt hsize hzero
          exact ⟨_, hrecv, (receiveAll_behind_iff ms (Nat.sub_pos_of_lt hlt) hrest).mpr hms⟩

/-- A connection nothing was sent over. -/
def SSLConnection.new : SSLConnection := ⟨[], 0⟩

end EDRStore
