/-
# `EDRStore.Download` — the two threads of a download

`DataReaderThd::Run` reads the recipe in batches, fetches the chunk of each
fingerprint together with its base, and pushes the pair; `DataDecoderThd::Run`
pops, decodes and sends:

    read        DataReaderThd    a batch of the recipe, of what is in the file now
    fetch       DataReaderThd    FetchChunk, and Push
    readEnd     DataReaderThd    _done is set
    decode      DataDecoderThd   Pop, DecodeChunk, and SendChunks if the message is full
    decodeEnd   DataDecoderThd   the last message, SERVER_RESTORE_FINAL, and the wait
                                 for the client to close the connection

`FetchChunk` is one step; it changes nothing that sessions share.  `Push` spins on
a full queue: an element that waits for room is counted among the elements
already, and its thread does not go on before the queue is back at its size.

Whatever is in the queue, one of the two threads can go on (`goes`), and `work`
counts what is left to do.
-/
import EDRStore.Interleaving
import EDRStore.Recipe

namespace EDRStore

/-- What the server is configured with, and what memory holds that nobody has set: the
head of a recipe, the buffer of recipes, the buffer of messages and the container of a
download. -/
structure ServerConfig where
  sendChunkBatchSize : Nat
  sendRecipeBatchSize : Nat
  /-- How many elements a queue takes before `Push` spins. -/
  chunkQueueSize : Nat
  unsetHead : Bytes
  buf : Bytes
  sendBuf : Bytes
  container : Container

/-- Why a step does not go on: the whole server exits, or a thread waits. -/
inductive RunStop where
  | loginType
  | notClosed
  /-- `SendData` fails. -/
  | notSent
  | recipeOpen
  /-- `UnlockClientID` finds no mutex. -/
  | nullMutex
  | thread (e : Exit)
  | disabled
deriving DecidableEq

/-- A stop of a session's thread. -/
def RunStop.ofStop : Stop → RunStop
  | .exit e => .thread e
  | .disabled => .disabled

/-- A flag that is not set yet. -/
def unset : Bool → Nat
  | true => 0
  | false => 1

/-- `ClientVar` of a download, with what its threads hold between two steps: `fps` is all
that was read of the recipe, `toFetch` what is left of the last batch. -/
structure Download where
  informCache : InformCache
  cur : ClientStore
  recipeReadHdl : Nat
  fps : List Fp
  toFetch : List Fp
  isEnd : Bool
  reader2DecoderMq : List Reader2Decoder
  /-- `_reader_2_decoder_mq->_done`. -/
  done : Bool
  decoder : DecoderState
  decoderEnded : Bool

inductive DownloadAction where
  | read
  /-- The headers hold what nobody sets. -/
  | fetch (stale baseStale : SendChunkHeader)
  | readEnd
  /-- `sent` is what `SendData` returns, if it is called. -/
  | decode (sent : Bool)
  /-- `closes` is what the client does after the final message. -/
  | decodeEnd (sent closes : Bool)

/-- One turn of the loop of `DataReaderThd::Run`, up to the chunks: what is in the file
now. -/
def DataReaderThd.readBatch (config : ServerConfig) (file : Bytes) (d : Download) : Download :=
  let n := recipeBatchBytes config.sendRecipeBatchSize
  let got := (file.drop d.recipeReadHdl).take n
  let readItemNum := got.length / chunkHashSize
  if readItemNum = 0 then { d with isEnd := true }
  else
    { d with
      recipeReadHdl := d.recipeReadHdl + n
      fps := d.fps ++ blocks chunkHashSize readItemNum got
      toFetch := blocks chunkHashSize readItemNum got
      isEnd := decide (got.length < n) }

namespace DataDecoderThd

variable (clientId : Nat)

/-- The end of `DataDecoderThd::Run`: the last message, if it holds anything. -/
def finish (s : DecoderState) : DecoderState :=
  if s.sendChunkBuf.curItemNum ≠ 0 then sendChunks clientId s else s

/-- What `DataDecoderThd::SendEnd` sends: a header. -/
def sendEnd (s : DecoderState) : DecoderState :=
  { s with sent := s.sent ++ [(s.sendChunkBuf.head clientId .serverRestoreFinal).encode] }

/-- Up to `SendEnd`, `run` is its loop and this. -/
theorem run_eq (cfg : Components) (batchSize : Nat) (s : DecoderState)
    (queue : List Reader2Decoder) : run cfg clientId batchSize s queue =
      queue.foldlM (runChunk cfg clientId batchSize) s >>= fun s => .ok (finish clientId s) :=
  rfl

end DataDecoderThd

namespace Download

variable (cfg : Components) (config : ServerConfig)

/-- `ClientVar::ClientVar`; `ServerOptThd::Run` reads the head of the recipe itself. -/
def new (files : InformFiles) : Download where
  informCache := InformCache.loadCntIdx files
  cur := StorageCore.openReader cfg config.container
  recipeReadHdl := fileRecipeHeadSize
  fps := []
  toFetch := []
  isEnd := false
  reader2DecoderMq := []
  done := false
  decoder := DataDecoderThd.new config.sendBuf
  decoderEnded := false

/-- The last `Push` of the reader has returned. -/
def Pushed (d : Download) : Prop := d.reader2DecoderMq.length ≤ config.chunkQueueSize

instance (d : Download) : Decidable (d.Pushed config) :=
  inferInstanceAs (Decidable (_ ≤ _))

/-- Both threads have come to their end. -/
def Ended (d : Download) : Prop := d.done = true ∧ d.decoderEnded = true

instance (d : Download) : Decidable d.Ended := inferInstanceAs (Decidable (_ ∧ _))

def step (clientId : ClientId) (srv : Server) (file : Bytes) (d : Download) :
    DownloadAction → Except RunStop Download
  | .read =>
      if d.Pushed config ∧ d.toFetch = [] ∧ d.isEnd = false then
        .ok (DataReaderThd.readBatch config file d)
      else .error .disabled
  | .fetch stale baseStale =>
      match d.toFetch with
      | [] => .error .disabled
      | fp :: rest =>
          if d.Pushed config then
            match DataReaderThd.fetchChunk cfg srv d.informCache fp d.cur with
            | .ok r =>
                .ok { d with
                  cur := r.2
                  toFetch := rest
                  reader2DecoderMq := d.reader2DecoderMq ++ [⟨r.1, stale, baseStale⟩] }
            | .error e => .error (.thread e)
          else .error .disabled
  | .readEnd =>
      if d.Pushed config ∧ d.toFetch = [] ∧ d.isEnd = true ∧ d.done = false then
        .ok { d with done := true }
      else .error .disabled
  | .decode sent =>
      match d.reader2DecoderMq with
      | [] => .error .disabled
      | x :: q =>
          match DataDecoderThd.runChunk cfg clientId config.sendChunkBatchSize d.decoder x with
          | .ok decoder =>
              if sent = true ∨ decoder.sent.length = d.decoder.sent.length then
                .ok { d with reader2DecoderMq := q, decoder := decoder }
              else .error .notSent
          | .error e => .error (.thread e)
  | .decodeEnd sent closes =>
      if d.reader2DecoderMq = [] ∧ d.done = true ∧ d.decoderEnded = false then
        match sent, closes with
        | false, _ => .error .notSent
        | true, false => .error .notClosed
        | true, true =>
            .ok { d with
              decoder := DataDecoderThd.sendEnd clientId (DataDecoderThd.finish clientId d.decoder)
              decoderEnded := true }
      else .error .disabled

/-! ## What a step can do -/

inductive Stepped (clientId : ClientId) (srv : Server) (file : Bytes) (d : Download) :
    DownloadAction → Download → Prop
  | read (hp : d.Pushed config) (hf : d.toFetch = []) (he : d.isEnd = false) :
      Stepped clientId srv file d .read (DataReaderThd.readBatch config file d)
  | fetch {stale baseStale fp rest r} (hf : d.toFetch = fp :: rest) (hp : d.Pushed config)
      (hr : DataReaderThd.fetchChunk cfg srv d.informCache fp d.cur = .ok r) :
      Stepped clientId srv file d (.fetch stale baseStale) { d with
        cur := r.2
        toFetch := rest
        reader2DecoderMq := d.reader2DecoderMq ++ [⟨r.1, stale, baseStale⟩] }
  | readEnd (hp : d.Pushed config) (hf : d.toFetch = []) (he : d.isEnd = true)
      (hd : d.done = false) : Stepped clientId srv file d .readEnd { d with done := true }
  | decode {sent x q decoder} (hq : d.reader2DecoderMq = x :: q)
      (hr : DataDecoderThd.runChunk cfg clientId config.sendChunkBatchSize d.decoder x =
        .ok decoder) :
      Stepped clientId srv file d (.decode sent) { d with
        reader2DecoderMq := q
        decoder := decoder }
  | decodeEnd (hq : d.reader2DecoderMq = []) (hd : d.done = true) (he : d.decoderEnded = false) :
      Stepped clientId srv file d (.decodeEnd true true) { d with
        decoder := DataDecoderThd.sendEnd clientId (DataDecoderThd.finish clientId d.decoder)
        decoderEnded := true }

variable {cfg config} {clientId : ClientId} {srv : Server} {file : Bytes} {d d' : Download}
  {a : DownloadAction}

theorem step_stepped (h : d.step cfg config clientId srv file a = .ok d') :
    Stepped cfg config clientId srv file d a d' := by
  cases a with
  | read =>
      simp only [step] at h
      split at h
      · rename_i hc
        cases h
        exact .read hc.1 hc.2.1 hc.2.2
      · cases h
  | fetch stale baseStale =>
      simp only [step] at h
      split at h
      · cases h
      · rename_i fp rest hf
        split at h
        · rename_i hp
          split at h
          · rename_i r hr
            cases h
            exact .fetch hf hp hr
          · cases h
        · cases h
  | readEnd =>
      simp only [step] at h
      split at h
      · rename_i hc
        cases h
        exact .readEnd hc.1 hc.2.1 hc.2.2.1 hc.2.2.2
      · cases h
  | decode sent =>
      simp only [step] at h
      split at h
      · cases h
      · rename_i x q hq
        split at h
        · rename_i decoder hr
          split at h
          · cases h
            exact .decode hq hr
          · cases h
        · cases h
  | decodeEnd sent closes =>
      simp only [step] at h
      split at h
      · rename_i hc
        split at h
        · cases h
        · cases h
        · cases h
          exact .decodeEnd hc.1 hc.2.1 hc.2.2
      · cases h

theorem readBatch_informCache (config : ServerConfig) (file : Bytes) (d : Download) :
    (DataReaderThd.readBatch config file d).informCache = d.informCache := by
  simp only [DataReaderThd.readBatch]
  split <;> rfl

/-- A download only looks at its inform cache. -/
theorem Stepped.informCache (h : Stepped cfg config clientId srv file d a d') :
    d'.informCache = d.informCache := by
  cases h with
  | read hp hf he => exact readBatch_informCache ..
  | fetch hf hp hr => rfl
  | readEnd hp hf he hd => rfl
  | decode hq hr => rfl
  | decodeEnd hq hd he => rfl

/-! ## What is left to do -/

/-- Two steps for each fingerprint in the batch, and at most as many as twice the bytes that
are not read. -/
def work (fileLength : Nat) (d : Download) : Nat :=
  (if d.isEnd = true then 0 else 2 * (fileLength - d.recipeReadHdl) + 1) +
    2 * d.toFetch.length + unset d.done + d.reader2DecoderMq.length + unset d.decoderEnded

/-- Each turn reads something, or is the last one. -/
theorem readBatch_work (hf : d.toFetch = []) (he : d.isEnd = false) :
    (DataReaderThd.readBatch config file d).work file.length < d.work file.length := by
  have hlen : ((file.drop d.recipeReadHdl).take
      (recipeBatchBytes config.sendRecipeBatchSize)).length =
        min (recipeBatchBytes config.sendRecipeBatchSize) (file.length - d.recipeReadHdl) := by
    rw [List.length_take, List.length_drop]
  have hdiv := Nat.div_le_self (min (recipeBatchBytes config.sendRecipeBatchSize)
    (file.length - d.recipeReadHdl)) chunkHashSize
  simp only [DataReaderThd.readBatch]
  split
  · simp only [work, hf, he, if_true, Bool.false_eq_true, if_false]
    omega
  · rename_i hn
    rw [hlen] at hn
    have hpos : 0 < min (recipeBatchBytes config.sendRecipeBatchSize)
        (file.length - d.recipeReadHdl) :=
      Nat.pos_of_ne_zero fun h0 => hn (by rw [h0]; rfl)
    have hsmall := Nat.div_lt_self hpos (show 1 < chunkHashSize by decide)
    simp only [work, hf, he, length_blocks, hlen, decide_eq_true_eq, Bool.false_eq_true, if_false,
      List.length_nil]
    split <;> omega

theorem Stepped.work (h : Stepped cfg config clientId srv file d a d') :
    d'.work file.length < d.work file.length := by
  cases h with
  | read hp hf he => exact readBatch_work hf he
  | fetch hf hp hr =>
      simp only [Download.work, hf, List.length_append, List.length_cons, List.length_nil]
      omega
  | readEnd hp hf he hd =>
      simp only [Download.work, hd, unset]
      omega
  | decode hq hr =>
      simp only [Download.work, hq, List.length_cons]
      omega
  | decodeEnd hq hd he =>
      simp only [Download.work, he, unset]
      omega

variable (cfg config clientId srv file) in
/-- Until both threads have ended, one of them can go on, or ends the server. -/
theorem goes (h : ¬ d.Ended) : ∃ a, (∃ d', d.step cfg config clientId srv file a = .ok d') ∨
    ∃ e, d.step cfg config clientId srv file a = .error (.thread e) := by
  -- the decoder first, so that whoever pushes finds the queue empty
  cases hq : d.reader2DecoderMq with
  | cons x q =>
      refine ⟨.decode true, ?_⟩
      simp only [step, hq, true_or, if_true]
      cases DataDecoderThd.runChunk cfg clientId config.sendChunkBatchSize d.decoder x with
      | ok decoder => exact Or.inl ⟨_, rfl⟩
      | error e => exact Or.inr ⟨e, rfl⟩
  | nil =>
  have hp : d.Pushed config := by
    rw [Pushed, hq]
    exact Nat.zero_le _
  cases hf : d.toFetch with
  | cons fp rest =>
      refine ⟨.fetch ⟨0, 0, ⟨0, 0, 0⟩, []⟩ ⟨0, 0, ⟨0, 0, 0⟩, []⟩, ?_⟩
      simp only [step, hf, if_pos hp]
      cases DataReaderThd.fetchChunk cfg srv d.informCache fp d.cur with
      | ok r => exact Or.inl ⟨_, rfl⟩
      | error e => exact Or.inr ⟨e, rfl⟩
  | nil =>
  cases he : d.isEnd with
  | false => exact ⟨.read, Or.inl ⟨_, if_pos ⟨hp, hf, he⟩⟩⟩
  | true =>
  cases hd : d.done with
  | false => exact ⟨.readEnd, Or.inl ⟨_, if_pos ⟨hp, hf, he, hd⟩⟩⟩
  | true =>
      have hnot : d.decoderEnded = false := Bool.eq_false_iff.mpr fun hend => h ⟨hd, hend⟩
      exact ⟨.decodeEnd true true, Or.inl ⟨_, if_pos ⟨hq, hd, hnot⟩⟩⟩

end Download

end EDRStore
