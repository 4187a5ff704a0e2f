import Pragzip.SizeT

/-!
# Block finder — the model

`GzipBlockFinder` keeps the sorted bit offsets of the deflate blocks confirmed so far, starting
with the one after the gzip header, and answers every other block index with a guess on a grid
of `m_spacingInBits`, then with the file size, then with nothing. For a BGZF file, `get` first
gathers more confirmed offsets from the BGZF scanner.

* `GzipBlockFinder`, `GzipBlockFinder.create` (the constructor), `lowerBound` (`std::lower_bound`);
* `insertUnsafe`, `insert`, `finalize`, `gatherMoreBgzfBlocks`,
  `firstPartitionIndex`, `blockOffsetAt`, `get`, `find`, `setBlockOffsets`;
* `FinderCall`, `GzipBlockFinder.call`, `GzipBlockFinder.run`: runs of the owner's calls; a call
  that throws leaves the state as it was, since every throw precedes the first write.

A mutex guards every public call, so a run is a sequence of calls. Offsets, indexes and sizes
are natural numbers with the wrapping of `size_t` made explicit where the code can overflow.
-/

namespace Pragzip

/-- The exceptions the block finder throws. -/
inductive FinderError
  | invalidArgument (what : String)
  | outOfRange (what : String)
  deriving DecidableEq, Repr

/-- The members of `GzipBlockFinder`; `m_bgzfBlockFinder` is set exactly for a BGZF file, and its
offsets enter through `get`. -/
structure GzipBlockFinder where
  fileSizeInBits : Nat
  finalized : Bool
  spacingInBits : Nat
  blockOffsets : List Nat
  isBgzfFile : Bool
  batchFetchCount : Nat
  deriving DecidableEq, Repr

/-- `std::lower_bound` on a sorted sequence: the position of the first element not below `x`. -/
def lowerBound (xs : List Nat) (x : Nat) : Nat := (xs.takeWhile (· < x)).length

namespace GzipBlockFinder

/-- The constructor, given the file size and the spacing in bytes, whether
`Bgzf::isBgzfFile` recognised the file, `std::thread::hardware_concurrency()` (an `unsigned int`, so `3U *` it wraps modulo `2 ^ 32`),
and what `gzip::readHeader` gave: the bit offset after the header, or its error. -/
def create (fileSize spacing : Nat) (isBgzfFile : Bool) (hardwareConcurrency : Nat)
    (header : Except String Nat) : Except FinderError GzipBlockFinder :=
  let fileSizeInBits := sizeT (fileSize * 8)
  let spacingInBits := sizeT (spacing * 8)
  if spacingInBits < 32 * 1024 then
    .error (.invalidArgument "A spacing smaller than the window size makes no sense!")
  else match header with
    | .error error =>
      .error (.invalidArgument ("Encountered error while reading gzip header: " ++ error))
    | .ok headerEnd =>
      .ok { fileSizeInBits, finalized := false, spacingInBits, blockOffsets := [headerEnd],
            isBgzfFile, batchFetchCount := max 16 ((3 * hardwareConcurrency) % 2 ^ 32) }

variable (st : GzipBlockFinder)

/-- `finalize()`. -/
def finalize : GzipBlockFinder := { st with finalized := true }

/-- `insertUnsafe(blockOffset)`: offsets at or past the file end are ignored, known ones too; a
new one is inserted at its sorted position unless the finder is finalized. -/
def insertUnsafe (blockOffset : Nat) : Except FinderError GzipBlockFinder :=
  if blockOffset ≥ st.fileSizeInBits then .ok st
  else
    let position := lowerBound st.blockOffsets blockOffset
    if st.blockOffsets[position]? ≠ some blockOffset then
      if st.finalized then
        .error (.invalidArgument "Already finalized, may not insert further block offsets!")
      else .ok { st with blockOffsets :=
        st.blockOffsets.take position ++ blockOffset :: st.blockOffsets.drop position }
    else .ok st

/-- `insert(blockOffset)`. -/
def insert (blockOffset : Nat) : Except FinderError GzipBlockFinder := st.insertUnsafe blockOffset

/-- `gatherMoreBgzfBlocks(blockNumber)`, where `scan` is what `m_bgzfBlockFinder->find()` returns
in this call: offsets closer than the spacing to the last one are skipped, one at or past the file
end stops the loop, and a scan that runs out has reached the file end. -/
def gatherMoreBgzfBlocks (st : GzipBlockFinder) (blockNumber : Nat) :
    List Nat → Except FinderError GzipBlockFinder
  | [] => .ok st
  | nextOffset :: scan =>
    if sizeT (blockNumber + st.batchFetchCount) ≥ st.blockOffsets.length then
      if nextOffset < sizeT (st.blockOffsets.getLastD 0 + st.spacingInBits) then
        gatherMoreBgzfBlocks st blockNumber scan
      else if nextOffset ≥ st.fileSizeInBits then .ok st
      else do
        let st ← st.insertUnsafe nextOffset
        gatherMoreBgzfBlocks st blockNumber scan
    else .ok st

/-- `firstPartitionIndex()`: the index on the spacing grid of the first guess, the first grid
point above the last confirmed offset. -/
def firstPartitionIndex : Nat := sizeT (st.blockOffsets.getLastD 0 / st.spacingInBits + 1)

/-- What `get(blockIndex)` returns once it has gathered: a confirmed offset, a guess on the
spacing grid below the file end, the file size once after the last guess, or nothing. -/
def blockOffsetAt (blockIndex : Nat) : Option Nat :=
  if blockIndex < st.blockOffsets.length then st.blockOffsets[blockIndex]?
  else
    let blockIndexOutside := blockIndex - st.blockOffsets.length
    let partitionIndex := sizeT (st.firstPartitionIndex + blockIndexOutside)
    let blockOffset := sizeT (partitionIndex * st.spacingInBits)
    if blockOffset < st.fileSizeInBits then some blockOffset
    else if partitionIndex > 0 ∧ sizeT ((partitionIndex - 1) * st.spacingInBits) < st.fileSizeInBits
    then some st.fileSizeInBits
    else none

/-- `get(blockIndex)`, with the offsets the BGZF scanner yields during the call. -/
def get (blockIndex : Nat) (scan : List Nat) : Except FinderError (GzipBlockFinder × Option Nat) := do
  let st ← if st.isBgzfFile && !st.finalized then st.gatherMoreBgzfBlocks blockIndex scan
    else pure st
  return (st, st.blockOffsetAt blockIndex)

/-- `find(encodedBlockOffsetInBits)`: the index of a confirmed offset by bisection, or of a grid
guess by the inverse of the formula in `get`. -/
def find (encodedBlockOffsetInBits : Nat) : Except FinderError Nat :=
  let position := lowerBound st.blockOffsets encodedBlockOffsetInBits
  if st.blockOffsets[position]? = some encodedBlockOffsetInBits then .ok position
  else if encodedBlockOffsetInBits > st.blockOffsets.getLastD 0 ∧
      encodedBlockOffsetInBits < st.fileSizeInBits ∧
      encodedBlockOffsetInBits % st.spacingInBits = 0 then
    .ok (sizeT (st.blockOffsets.length +
      sizeT (encodedBlockOffsetInBits / st.spacingInBits + 2 ^ 64 - st.firstPartitionIndex)))
  else .error (.outOfRange ("No block with the specified offset " ++ toString encodedBlockOffsetInBits
    ++ " exists in the block finder map!"))

/-- `setBlockOffsets(blockOffsets)`: the offsets are replaced by the given ones, then `finalize()`. -/
def setBlockOffsets (blockOffsets : List Nat) : GzipBlockFinder := { st with blockOffsets }.finalize

end GzipBlockFinder

/-- The calls of the owner thread that change a block finder. -/
inductive FinderCall
  | insert (blockOffset : Nat)
  | finalize
  | get (blockIndex : Nat) (scan : List Nat)

namespace GzipBlockFinder

/-- The state after a call; a call that throws leaves it unchanged. -/
def call (st : GzipBlockFinder) : FinderCall → GzipBlockFinder
  | .insert blockOffset => match st.insert blockOffset with
    | .ok st' => st'
    | .error _ => st
  | .finalize => st.finalize
  | .get blockIndex scan => match st.get blockIndex scan with
    | .ok (st', _) => st'
    | .error _ => st

/-- The state after a sequence of calls. -/
def run (st : GzipBlockFinder) (calls : List FinderCall) : GzipBlockFinder := calls.foldl call st

end GzipBlockFinder

end Pragzip
