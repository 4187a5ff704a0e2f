import Mathlib

/-!
# File output — the write loops

`writeAllToFd` and `pwriteAllToFd` call `write` or `pwrite` until all the data is written, and
throw where a call fails or writes nothing. `writeAllToFdVector`, `pwriteAllToFdVector` and
`writeAllSpliceUnsafe` for a vector of `iovec` buffers give the kernel up to `IOV_MAX` buffers a
call. After a short write they skip the buffers written fully, finish the one written in part
with the loop for a single buffer, and go on from the next buffer; before finishing that buffer
they `assert` that it is shorter than the count left over from the skipping.

The kernel is a parameter: `results call size` is what system call number `call` of the run
answers when asked to write `size` bytes, the number of bytes it accepted or `none` for a
failure; `vmsplice` also fails where more bytes are asked than its result can count. A loop
runs for at most `fuel` turns and gives `none` when the fuel runs out. `debug`
says whether `assert` is compiled in, that is whether `NDEBUG` is undefined.

* `Fd`, `Fd.write`, `Fd.pwrite`, `Fd.vmsplice`: the file descriptor and the system calls;
* `WriteError`, `Outcome`: how a loop ends;
* `writeAllLoop`, `writeAllToFd`, `pwriteAllToFd`, `writeAllSpliceUnsafeLoop`,
  `writeAllSpliceUnsafe`: the loops for one buffer;
* `IOV_MAX`, `skipWritten`, `vectorLoop`: the loop for a vector of buffers, with its members
  `writeAllToFdVector`, `pwriteAllToFdVector` and `writeAllSpliceUnsafeVector`.
-/

namespace Pragzip.FileUtils

/-! ## The file descriptor -/

/-- What a file descriptor has received: the number of system calls made on it, the bytes
written to it as a stream (by `write`, `writev` and `vmsplice`), and the bytes written to it at
offsets (by `pwrite` and `pwritev`), each with its offset, in the order of the calls. -/
structure Fd where
  calls : Nat
  stream : List UInt8
  file : List (Nat × UInt8)
  deriving DecidableEq, Repr

namespace Fd

variable (results : Nat → Nat → Option Nat) (fd : Fd)

/-- `write` or `writev` of `bytes`, the concatenation of the buffers it is given: the
first bytes, as many as the kernel accepts, go to the stream. -/
def write (bytes : List UInt8) : Option Nat × Fd :=
  let accepted := results fd.calls bytes.length
  (accepted, { fd with calls := fd.calls + 1, stream := fd.stream ++ bytes.take (accepted.getD 0) })

/-- `pwrite` or `pwritev` of `bytes` at `offset`: the first bytes, as many as the kernel
accepts, are written at `offset`, `offset + 1`, and so on. -/
def pwrite (bytes : List UInt8) (offset : Nat) : Option Nat × Fd :=
  let accepted := results fd.calls bytes.length
  (accepted, { fd with
    calls := fd.calls + 1, file := fd.file ++ (bytes.take (accepted.getD 0)).enumFrom offset })

end Fd

/-- `SSIZE_MAX` of `<limits.h>`, the largest count a `ssize_t` result holds. -/
def SSIZE_MAX : Nat := 2 ^ 63 - 1

/-- The kernel as `vmsplice` answers it: a request of more bytes than its `ssize_t` result
counts fails with `EINVAL`. -/
def vmspliceResults (results : Nat → Nat → Option Nat) (call size : Nat) : Option Nat :=
  if size ≤ SSIZE_MAX then results call size else none

/-- `vmsplice` of `bytes`, the concatenation of the buffers it is given: a `write` to the stream
against the kernel as `vmsplice` answers it. -/
def Fd.vmsplice (results : Nat → Nat → Option Nat) (fd : Fd) (bytes : List UInt8) : Option Nat × Fd :=
  fd.write (vmspliceResults results) bytes

/-! ## How a loop ends -/

/-- The `std::runtime_error`s of the write loops. The texts of `strerror(errno)` and `errno` are
left out. -/
inductive WriteError
  /-- `"Unable to write all data to the given file descriptor. Wrote " << nTotalWritten
  << " out of " << dataToWriteSize << " (" << strerror( errno ) << ")."` -/
  | unableToWriteAllData (nTotalWritten dataToWriteSize : Nat)
  /-- `"Failed to write all bytes because of: " << strerror( errno ) << " (" << errno << ")"` -/
  | failedToWriteAllBytes
  /-- `"Failed to write to pipe"` -/
  | failedToWriteToPipe
  /-- `"Failed to write to pipe subsequently."` -/
  | failedToWriteToPipeSubsequently
  deriving DecidableEq, Repr

/-- How a loop ended: it returned `value`, threw, or a failed `assert` aborted the program. -/
inductive Outcome (α : Type)
  | returned (value : α)
  | threw (error : WriteError)
  | aborted
  deriving DecidableEq, Repr

/-! ## One buffer -/

/-- The loop of `writeAllToFd` and `pwriteAllToFd`, with `nTotalWritten` bytes written:
`call fd bytes position` is the system call that writes `bytes`, the data not written yet, at
`position`, that is `fileOffset + nTotalWritten`, which only `pwrite` reads. A call that fails
or writes nothing throws. -/
def writeAllLoop (call : Fd → List UInt8 → Nat → Option Nat × Fd) (dataToWrite : List UInt8)
    (fileOffset : Nat) : Nat → Nat → Fd → Option (Outcome Unit × Fd)
  | 0, _, _ => none
  | fuel + 1, nTotalWritten, fd =>
    if nTotalWritten < dataToWrite.length then
      match call fd (dataToWrite.drop nTotalWritten) (fileOffset + nTotalWritten) with
      | (some (nBytesWritten + 1), fd) =>
        writeAllLoop call dataToWrite fileOffset fuel (nTotalWritten + (nBytesWritten + 1)) fd
      | (_, fd) => some (.threw (.unableToWriteAllData nTotalWritten dataToWrite.length), fd)
    else some (.returned (), fd)

variable (results : Nat → Nat → Option Nat)

/-- `writeAllToFd(outputFileDescriptor, dataToWrite, dataToWriteSize)`. -/
def writeAllToFd (fd : Fd) (dataToWrite : List UInt8) (fuel : Nat) : Option (Outcome Unit × Fd) :=
  writeAllLoop (fun fd bytes _ => fd.write results bytes) dataToWrite 0 fuel 0 fd

/-- `pwriteAllToFd(outputFileDescriptor, dataToWrite, dataToWriteSize, fileOffset)`. -/
def pwriteAllToFd (fd : Fd) (dataToWrite : List UInt8) (fileOffset fuel : Nat) :
    Option (Outcome Unit × Fd) :=
  writeAllLoop (fun fd bytes position => fd.pwrite results bytes position) dataToWrite fileOffset
    fuel 0 fd

/-- The loop of `writeAllSpliceUnsafe` for one buffer, with `dataToSplice` the bytes not spliced
yet: a failed `vmsplice` returns `false` while nothing is spliced, and throws after. -/
def writeAllSpliceUnsafeLoop (dataToWrite : List UInt8) :
    Nat → List UInt8 → Fd → Option (Outcome Bool × Fd)
  | 0, _, _ => none
  | fuel + 1, dataToSplice, fd =>
    if 0 < dataToSplice.length then
      match fd.vmsplice results dataToSplice with
      | (none, fd) =>
        if dataToSplice.length = dataToWrite.length then some (.returned false, fd)
        else some (.threw .failedToWriteToPipe, fd)
      | (some nBytesWritten, fd) =>
        writeAllSpliceUnsafeLoop dataToWrite fuel (dataToSplice.drop nBytesWritten) fd
    else some (.returned true, fd)

/-- `writeAllSpliceUnsafe(outputFileDescriptor, dataToWrite, dataToWriteSize)`. -/
def writeAllSpliceUnsafe (fd : Fd) (dataToWrite : List UInt8) (fuel : Nat) :
    Option (Outcome Bool × Fd) :=
  writeAllSpliceUnsafeLoop results dataToWrite fuel dataToWrite fd

/-! ## A vector of buffers -/

/-- `IOV_MAX` of `<limits.h>`, the most buffers one call takes: `1024` on Linux. -/
def IOV_MAX : Nat := 1024

/-- The loop that skips the buffers written fully: from the buffers from `i` on and the count
the call returned, the number of buffers skipped and the count left for the next buffer. -/
def skipWritten : List (List UInt8) → Nat → Nat × Nat
  | [], nBytesWritten => (0, nBytesWritten)
  | iovBuffer :: dataToWrite, nBytesWritten =>
    if iovBuffer.length ≤ nBytesWritten then
      let (skipped, nBytesWritten) := skipWritten dataToWrite (nBytesWritten - iovBuffer.length)
      (skipped + 1, nBytesWritten)
    else (0, nBytesWritten)

variable {α : Type}

/-- The loop shared by the three vector writes, from buffer `i` on, with `fileOffset` the offset
that only `pwriteAllToFdVector` keeps. `call fd bytes fileOffset` is the vectored system call on
the buffers whose concatenation is `bytes`; `onError i` is what a failed call at buffer `i`
does; `writePartial fuel fd bytes fileOffset` writes the rest of a buffer written in part; `done`
is the value returned at the end. -/
def vectorLoop (debug : Bool) (call : Fd → List UInt8 → Nat → Option Nat × Fd)
    (onError : Nat → Outcome α)
    (writePartial : Nat → Fd → List UInt8 → Nat → Option (Outcome Unit × Fd)) (done : α)
    (dataToWrite : List (List UInt8)) : Nat → Nat → Nat → Fd → Option (Outcome α × Fd)
  | 0, _, _, _ => none
  | fuel + 1, i, fileOffset, fd =>
    if i < dataToWrite.length then
      let segmentCount := min IOV_MAX (dataToWrite.length - i)
      match call fd ((dataToWrite.drop i).take segmentCount).flatten fileOffset with
      | (none, fd) => some (onError i, fd)
      | (some nBytesWritten, fd) =>
        let fileOffset := fileOffset + nBytesWritten
        let (skipped, nBytesWritten) := skipWritten (dataToWrite.drop i) nBytesWritten
        let i := i + skipped
        if i < dataToWrite.length ∧ 0 < nBytesWritten then
          let iovBuffer := dataToWrite.getD i []
          if debug ∧ ¬iovBuffer.length < nBytesWritten then some (.aborted, fd)
          else
            let remainingSize := iovBuffer.length - nBytesWritten
            match writePartial fuel fd (iovBuffer.drop nBytesWritten) fileOffset with
            | some (.returned (), fd) =>
              vectorLoop debug call onError writePartial done dataToWrite fuel (i + 1)
                (fileOffset + remainingSize) fd
            | some (.threw error, fd) => some (.threw error, fd)
            | some (.aborted, fd) => some (.aborted, fd)
            | none => none
        else vectorLoop debug call onError writePartial done dataToWrite fuel i fileOffset fd
    else some (.returned done, fd)

/-- `writeAllToFdVector(outputFileDescriptor, dataToWrite)`. -/
def writeAllToFdVector (debug : Bool) (fd : Fd) (dataToWrite : List (List UInt8)) (fuel : Nat) :
    Option (Outcome Unit × Fd) :=
  vectorLoop debug (fun fd bytes _ => fd.write results bytes) (fun _ => .threw .failedToWriteAllBytes)
    (fun fuel fd remainingData _ => writeAllToFd results fd remainingData fuel) () dataToWrite fuel
    0 0 fd

/-- `pwriteAllToFdVector(outputFileDescriptor, dataToWrite, fileOffset)`. -/
def pwriteAllToFdVector (debug : Bool) (fd : Fd) (dataToWrite : List (List UInt8))
    (fileOffset fuel : Nat) : Option (Outcome Unit × Fd) :=
  vectorLoop debug (fun fd bytes fileOffset => fd.pwrite results bytes fileOffset)
    (fun _ => .threw .failedToWriteAllBytes)
    (fun fuel fd remainingData fileOffset => pwriteAllToFd results fd remainingData fileOffset fuel)
    () dataToWrite fuel 0 fileOffset fd

/-- The vector loop of `writeAllSpliceUnsafe` on the splice of the rest of a buffer: where it
returns `false`, the loop throws. -/
def spliceSubsequently : Outcome Bool → Outcome Unit
  | .returned true => .returned ()
  | .returned false => .threw .failedToWriteToPipeSubsequently
  | .threw error => .threw error
  | .aborted => .aborted

/-- `writeAllSpliceUnsafe(outputFileDescriptor, dataToWrite)` for a vector of buffers: a failed
first call returns `false`, a failed later one throws. -/
def writeAllSpliceUnsafeVector (debug : Bool) (fd : Fd) (dataToWrite : List (List UInt8))
    (fuel : Nat) : Option (Outcome Bool × Fd) :=
  vectorLoop debug (fun fd bytes _ => fd.vmsplice results bytes)
    (fun i => if i = 0 then .returned false else .threw .failedToWriteAllBytes)
    (fun fuel fd remainingData _ =>
      (writeAllSpliceUnsafe results fd remainingData fuel).map fun (outcome, fd) =>
        (spliceSubsequently outcome, fd))
    true dataToWrite fuel 0 0 fd

end Pragzip.FileUtils
