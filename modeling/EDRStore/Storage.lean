/-
# `EDRStore.Storage` — `StorageCore`

`ReadChunk`, `WriteChunk` and `SaveContainer` of `storage_core.cc`, over the
container files and the part of `ClientVar` they touch: the open container and
the container cache.
-/
import EDRStore.Components
import EDRStore.ReadCache
import EDRStore.Lib.AppendLog

namespace EDRStore

/-- The address part of a record. -/
def KeyForChunkHashDB.extent (a : KeyForChunkHashDB) : Extent ContainerId :=
  ⟨a.containerId, a.offset, a.len⟩

/-- The container files, how many names have been drawn so far, and
`_write_chunk_num`. -/
structure StorageCore where
  containers : Index ContainerId Bytes
  uuidCnt : Nat
  writeChunkNum : Nat

/-- `_cur_container` and `_container_cache` of a `ClientVar`. -/
structure ClientStore where
  curContainer : Container
  containerCache : ReadCache

namespace StorageCore

variable (cfg : Components)

/-- Nothing stored yet. -/
def empty : StorageCore := { containers := ∅, uuidCnt := 0, writeChunkNum := 0 }

/-- `StorageCore::SaveContainer`. -/
def saveContainer (st : StorageCore) (newContainer : Container) : StorageCore :=
  { st with containers := st.containers.insert newContainer.id newContainer.body }

/-- `StorageCore::ReadChunk`; `none` is the returned `false`, with the caller's
buffer left alone. -/
def readChunk (st : StorageCore) (addr : KeyForChunkHashDB) (cur : ClientStore) :
    Option Bytes × ClientStore :=
  let reqName := addr.containerId
  if cur.containerCache.exist reqName then
    match cur.containerCache.read reqName with
    | some (containerBuf, cache) =>
        (some (slice containerBuf addr.offset addr.len), { cur with containerCache := cache })
    | none => (none, cur)
  else
    match st.containers.lookup reqName with
    | none =>
        if cur.curContainer.id = reqName then
          (some (slice cur.curContainer.body addr.offset addr.len), cur)
        else (none, cur)
    | some body =>
        (some (slice body addr.offset addr.len),
          { cur with containerCache := cur.containerCache.insert reqName body })

/-- The first half of `WriteChunk`: a container that cannot take `size` more
bytes goes to its file and a new one is opened. -/
def makeRoom (st : StorageCore) (size : Nat) (cur : Container) : StorageCore × Container :=
  if cur.curSize + size > maxContainerSize then
    ({ st.saveContainer cur with uuidCnt := st.uuidCnt + 1 },
      { id := cfg.createUUID st.uuidCnt, body := [] })
  else (st, cur)

/-- `StorageCore::WriteChunk`: the updated address, the files, the client. -/
def writeChunk (st : StorageCore) (addr : KeyForChunkHashDB) (data : Bytes) (cur : ClientStore) :
    KeyForChunkHashDB × StorageCore × ClientStore :=
  let r := st.makeRoom cfg data.length cur.curContainer
  ({ addr with
      containerId := r.2.id
      len := data.length
      offset := r.2.curSize },
    { r.1 with writeChunkNum := r.1.writeChunkNum + 1 },
    { cur with curContainer := { r.2 with body := r.2.body ++ data } })

/-- `InitUploadBuffer`: a new open container and an empty cache. -/
def openClient (st : StorageCore) : StorageCore × ClientStore :=
  ({ st with uuidCnt := st.uuidCnt + 1 },
    { curContainer := { id := cfg.createUUID st.uuidCnt, body := [] }
      containerCache := ReadCache.new cfg.containerCacheSize maxContainerSize })

/-- `InitDownloadBuffer` opens no container; `_cur_container` stays as it was allocated. -/
def openReader (garbage : Container) : ClientStore :=
  { curContainer := garbage
    containerCache := ReadCache.new cfg.containerCacheSize maxContainerSize }

/-- The end of `DataWriterThd::Run`: the tail container, if it holds anything. -/
def saveTail (st : StorageCore) (cur : ClientStore) : StorageCore :=
  if cur.curContainer.curSize ≠ 0 then st.saveContainer cur.curContainer else st

end StorageCore

end EDRStore
