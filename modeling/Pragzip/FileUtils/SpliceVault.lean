import Pragzip.SizeT
import Pragzip.FileUtils.Write

/-!
# File output — the splice vault

`vmsplice` hands the pipe pages of the caller's memory, so a buffer must live until its bytes
have left the pipe. `SpliceVault` keeps the owners of the spliced buffers in a deque with the
bytes spliced from each, merging consecutive splices of one owner, and a running total. After
each splice it releases owners from the front while the bytes spliced after the front one reach
the pipe buffer size. All counts are `size_t`.

* `SpliceVault`, `SpliceVault.new`, `addToBack`, `releaseFront`, `SpliceVault.account`,
  `SpliceVault.splice`, `SpliceVault.spliceVector`: the model;
* `SplicesTo`: runs of successful `splice` calls.
-/

namespace Pragzip.FileUtils

/-- The members of `SpliceVault` that `splice` reads and writes: `m_pipeBufferSize`, what
`fcntl(fileDescriptor, F_GETPIPE_SZ)` returned (negative where the descriptor is not a pipe);
`m_splicedData`, front first, each owner named by the address `splicedData.get()` it is compared
by, with the bytes spliced from it; and `m_totalSplicedBytes`. -/
structure SpliceVault where
  pipeBufferSize : Int
  splicedData : List (Nat × Nat)
  totalSplicedBytes : Nat
  deriving DecidableEq, Repr

namespace SpliceVault

/-- The constructor, with what `fcntl(fileDescriptor, F_GETPIPE_SZ)` returned. -/
def new (pipeBufferSize : Int) : SpliceVault := ⟨pipeBufferSize, [], 0⟩

/-- The loop that ends `account`: while the bytes spliced after the front owner,
`m_totalSplicedBytes - get<2>(front)` in `size_t`, reach the pipe buffer size, the front owner is
released and its bytes leave the total. -/
def releaseFront (pipeBufferSize : Nat) : Nat → List (Nat × Nat) → Nat × List (Nat × Nat)
  | totalSplicedBytes, [] => (totalSplicedBytes, [])
  | totalSplicedBytes, (owner, bytes) :: splicedData =>
    if sizeT (totalSplicedBytes + 2 ^ 64 - bytes) ≥ pipeBufferSize then
      releaseFront pipeBufferSize (sizeT (totalSplicedBytes + 2 ^ 64 - bytes)) splicedData
    else (totalSplicedBytes, (owner, bytes) :: splicedData)

/-- The start of `account`: the bytes are added to the back entry where it is the same owner's,
and `emplace_back`ed as a new entry otherwise. -/
def addToBack (splicedData : List (Nat × Nat)) (owner dataToWriteSize : Nat) :
    List (Nat × Nat) :=
  match splicedData.getLast? with
  | some (lastOwner, bytes) =>
    if lastOwner = owner then splicedData.dropLast ++ [(lastOwner, sizeT (bytes + dataToWriteSize))]
    else splicedData ++ [(owner, dataToWriteSize)]
  | none => splicedData ++ [(owner, dataToWriteSize)]

variable (vault : SpliceVault)

/-- `account(splicedData, dataToWriteSize)`, with `owner` the address `splicedData.get()`. It runs
only where `m_pipeBufferSize` is not negative, and there `static_cast<size_t>` keeps the value. -/
def account (owner dataToWriteSize : Nat) : SpliceVault :=
  let (totalSplicedBytes, splicedData) :=
    releaseFront vault.pipeBufferSize.toNat (sizeT (vault.totalSplicedBytes + dataToWriteSize))
      (addToBack vault.splicedData owner dataToWriteSize)
  { vault with totalSplicedBytes, splicedData }

/-- What `splice` does once the bytes are written: where the write returned `true`, it accounts
`size` bytes to `owner`; it returns what the write returned. -/
def accountIfSpliced (owner size : Nat) : Outcome Bool × Fd → Outcome Bool × Fd × SpliceVault
  | (.returned true, fd) => (.returned true, fd, vault.account owner size)
  | (outcome, fd) => (outcome, fd, vault)

variable (results : Nat → Nat → Option Nat)

/-- `splice(dataToWrite, dataToWriteSize, splicedData)`, with `owner` the address of
`splicedData`. -/
def splice (fd : Fd) (dataToWrite : List UInt8) (owner fuel : Nat) :
    Option (Outcome Bool × Fd × SpliceVault) :=
  if vault.pipeBufferSize < 0 then some (.returned false, fd, vault)
  else (writeAllSpliceUnsafe results fd dataToWrite fuel).map
    (vault.accountIfSpliced owner dataToWrite.length)

/-- `splice(buffersToWrite, splicedData)`: the bytes accounted are the `size_t` sum of the buffer
sizes. -/
def spliceVector (debug : Bool) (fd : Fd) (buffersToWrite : List (List UInt8)) (owner fuel : Nat) :
    Option (Outcome Bool × Fd × SpliceVault) :=
  if vault.pipeBufferSize < 0 then some (.returned false, fd, vault)
  else (writeAllSpliceUnsafeVector results debug fd buffersToWrite fuel).map
    (vault.accountIfSpliced owner
      (buffersToWrite.foldl (fun sum buffer => sizeT (sum + buffer.length)) 0))

end SpliceVault

/-- Runs of successful `splice` calls, of one buffer or of a vector, each against any kernel;
`history` lists the owner of each call and the bytes it accounts, and `vectors` the bytes of the
buffers of each splice of a vector. -/
inductive SplicesTo : SpliceVault → List (Nat × Nat) → List Nat → SpliceVault → Prop
  | nil (vault : SpliceVault) : SplicesTo vault [] [] vault
  | splice {vault vault' vault'' : SpliceVault} {history : List (Nat × Nat)} {vectors : List Nat}
      {results : Nat → Nat → Option Nat} {fd fd' : Fd} {dataToWrite : List UInt8}
      {owner fuel : Nat} :
      SplicesTo vault history vectors vault' →
      vault'.splice results fd dataToWrite owner fuel = some (.returned true, fd', vault'') →
      SplicesTo vault (history ++ [(owner, dataToWrite.length)]) vectors vault''
  | spliceVector {vault vault' vault'' : SpliceVault} {history : List (Nat × Nat)}
      {vectors : List Nat} {results : Nat → Nat → Option Nat} {debug : Bool} {fd fd' : Fd}
      {buffersToWrite : List (List UInt8)} {owner fuel : Nat} :
      SplicesTo vault history vectors vault' →
      vault'.spliceVector results debug fd buffersToWrite owner fuel =
        some (.returned true, fd', vault'') →
      SplicesTo vault
        (history ++ [(owner, buffersToWrite.foldl (fun sum buffer => sizeT (sum + buffer.length)) 0)])
        (vectors ++ [buffersToWrite.flatten.length]) vault''

end Pragzip.FileUtils
