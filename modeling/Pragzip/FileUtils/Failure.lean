import Pragzip.FileUtils.WriteAll
import Pragzip.FileUtils.SpliceVault

/-!
# File output — what a failure leaves

Against any kernel, a write loop that fails says how far it got. `writeAllToFd` and
`pwriteAllToFd` throw only with the count they wrote and the count asked, and what they wrote is
exactly the data up to that count. `writeAllSpliceUnsafe` returns `false` only where no byte was
spliced, for one buffer and for a vector; so a `SpliceVault::splice` that returns `false` has put
no byte into the pipe and accounted nothing, and its caller may write the data by other means
without a byte arriving twice.

* `Sink.Records`, `write_records`, `pwrite_records`: a call delivers the bytes it accepts, and
  none where it fails;
* `writeAllLoop_threw`: the loop for one buffer throws only with the count it delivered;
* **`writeAllToFd_reports_written`**: the error of `writeAllToFd` and `pwriteAllToFd` names the
  bytes they wrote;
* `writeAllSpliceUnsafeLoop_false`, `vectorLoop_false`: the splice loops return `false` only
  before any byte;
* **`spliceVault_false_leaves_pipe_untouched`**: a `splice` that returns `false` leaves the pipe
  and the vault as they were.
-/

namespace Pragzip.FileUtils

variable {results : Nat → Nat → Option Nat}

/-! ## A failed write -/

/-- A system call that delivers to `S` the bytes it accepts, at the position it is given, and none
where it fails. -/
def Sink.Records {Out : Type} (S : Sink Out) (call : Fd → List UInt8 → Nat → Option Nat × Fd) :
    Prop :=
  ∀ fd bytes position accepted fd', call fd bytes position = (accepted, fd') →
    S.view fd' = S.view fd ++ S.emit position (bytes.take (accepted.getD 0))

theorem write_records : Sink.stream.Records fun fd bytes _ => fd.write results bytes := by
  rintro fd bytes _ _ _ ⟨⟩
  rfl

theorem pwrite_records :
    Sink.file.Records fun fd bytes position => fd.pwrite results bytes position := by
  rintro fd bytes _ _ _ ⟨⟩
  rfl

variable {Out : Type} (S : Sink Out)

/-- **The loop for one buffer throws only with the count it delivered**, short of the data. -/
theorem writeAllLoop_threw {call : Fd → List UInt8 → Nat → Option Nat × Fd} (hcall : S.Records call)
    (dataToWrite : List UInt8) (fileOffset : Nat) :
    ∀ fuel nTotalWritten fd error fd',
      writeAllLoop call dataToWrite fileOffset fuel nTotalWritten fd = some (.threw error, fd') →
      ∃ k, error = .unableToWriteAllData k dataToWrite.length ∧ nTotalWritten ≤ k ∧
        k < dataToWrite.length ∧ S.view fd' = S.view fd ++
          S.emit (fileOffset + nTotalWritten) ((dataToWrite.drop nTotalWritten).take (k - nTotalWritten))
  | 0, _, _, _, _, h => by cases h
  | fuel + 1, nTotalWritten, fd, error, fd', h => by
    rw [writeAllLoop] at h
    split_ifs at h with hlt
    swap
    · cases h
    rcases hc : call fd (dataToWrite.drop nTotalWritten) (fileOffset + nTotalWritten) with
      ⟨_ | _ | n, fd₁⟩ <;> simp only [hc] at h
    · -- the call failed: nothing was delivered
      obtain ⟨rfl, rfl⟩ := Prod.mk.inj (Option.some.inj h) |>.imp_left Outcome.threw.inj
      refine ⟨nTotalWritten, rfl, le_rfl, hlt, ?_⟩
      simpa using hcall _ _ _ _ _ hc
    · -- the call wrote nothing
      obtain ⟨rfl, rfl⟩ := Prod.mk.inj (Option.some.inj h) |>.imp_left Outcome.threw.inj
      refine ⟨nTotalWritten, rfl, le_rfl, hlt, ?_⟩
      simpa using hcall _ _ _ _ _ hc
    · -- the call wrote `n + 1` bytes, all of them left to write
      obtain ⟨k, rfl, hk, hklt, hview⟩ :=
        writeAllLoop_threw hcall dataToWrite fileOffset fuel _ fd₁ error fd' h
      have hview₁ := hcall _ _ _ _ _ hc
      have hn : (List.take (n + 1) (List.drop nTotalWritten dataToWrite)).length = n + 1 := by
        rw [List.length_take, List.length_drop]; omega
      have hsplit : List.take (k - nTotalWritten) (List.drop nTotalWritten dataToWrite) =
          List.take (n + 1) (List.drop nTotalWritten dataToWrite) ++
            List.take (k - (nTotalWritten + (n + 1))) (List.drop (nTotalWritten + (n + 1)) dataToWrite) := by
        rw [show k - nTotalWritten = n + 1 + (k - (nTotalWritten + (n + 1))) by omega, List.take_add,
          List.drop_drop]
      refine ⟨k, rfl, by omega, hklt, ?_⟩
      rw [hview, hview₁, Option.getD_some, List.append_assoc, hsplit, S.emit_append, hn,
        Nat.add_assoc]

/-- **The error of `writeAllToFd` and `pwriteAllToFd` names the bytes they wrote**: against any
kernel, a call that throws throws `"Unable to write all data to the given file descriptor. Wrote
" << k << " out of " << dataToWriteSize`, with `k` short of the size, and the first `k` bytes of
the data, and no other, have reached the stream, or the file at their offsets. -/
theorem writeAllToFd_reports_written (results : Nat → Nat → Option Nat) (fd : Fd)
    (dataToWrite : List UInt8) (fuel : Nat) :
    (∀ error fd', writeAllToFd results fd dataToWrite fuel = some (.threw error, fd') →
      ∃ k, error = .unableToWriteAllData k dataToWrite.length ∧ k < dataToWrite.length ∧
        fd'.stream = fd.stream ++ dataToWrite.take k) ∧
    ∀ fileOffset error fd',
      pwriteAllToFd results fd dataToWrite fileOffset fuel = some (.threw error, fd') →
      ∃ k, error = .unableToWriteAllData k dataToWrite.length ∧ k < dataToWrite.length ∧
        fd'.file = fd.file ++ (dataToWrite.take k).enumFrom fileOffset := by
  refine ⟨fun error fd' h => ?_, fun fileOffset error fd' h => ?_⟩
  · obtain ⟨k, he, -, hk, hview⟩ := writeAllLoop_threw Sink.stream write_records _ _ _ _ _ _ _ h
    exact ⟨k, he, hk, by simpa [Sink.stream] using hview⟩
  · obtain ⟨k, he, -, hk, hview⟩ := writeAllLoop_threw Sink.file pwrite_records _ _ _ _ _ _ _ h
    exact ⟨k, he, hk, by simpa [Sink.file] using hview⟩

/-- A kernel that accepts two bytes, then fails: `writeAllToFd` of three bytes throws after two. -/
theorem writeAllToFd_reports_written_example :
    writeAllToFd (fun call _ => if call = 0 then some 2 else none) ⟨0, [], []⟩ [7, 8, 9] 4 =
        some (.threw (.unableToWriteAllData 2 3), ⟨2, [7, 8], []⟩) ∧
      ∃ k, WriteError.unableToWriteAllData 2 3 = .unableToWriteAllData k [7, 8, 9].length ∧
        k < [7, 8, 9].length ∧ [7, 8] = ([] : List UInt8) ++ [7, 8, 9].take k :=
  ⟨rfl, (writeAllToFd_reports_written (fun call _ => if call = 0 then some 2 else none) ⟨0, [], []⟩
    [7, 8, 9] 4).1 _ ⟨2, [7, 8], []⟩ rfl⟩

/-! ## A splice that returns `false` -/

/-- **The splice loop for one buffer returns `false` only before any byte**: from the data after
its first `m` bytes, it returns `false` only where `m` is `0` and it spliced nothing. -/
theorem writeAllSpliceUnsafeLoop_false (dataToWrite : List UInt8) :
    ∀ fuel m fd fd', writeAllSpliceUnsafeLoop results dataToWrite fuel (dataToWrite.drop m) fd =
      some (.returned false, fd') → m = 0 ∧ fd'.stream = fd.stream
  | 0, _, _, _, h => by cases h
  | fuel + 1, m, fd, fd', h => by
    rw [writeAllSpliceUnsafeLoop] at h
    by_cases hpos : 0 < (dataToWrite.drop m).length
    swap
    · rw [if_neg hpos] at h
      cases h
    rw [if_pos hpos] at h
    rcases hc : fd.vmsplice results (dataToWrite.drop m) with ⟨_ | n, fd₁⟩ <;> simp only [hc] at h
    · split_ifs at h with hall
      · obtain ⟨-, rfl⟩ := Prod.mk.inj (Option.some.inj h)
        rw [List.length_drop] at hpos hall
        exact ⟨by omega, by simpa [Sink.stream] using write_records _ _ 0 _ _ hc⟩
      · cases h
    · rw [List.drop_drop] at h
      obtain ⟨hm, hstream⟩ := writeAllSpliceUnsafeLoop_false dataToWrite fuel _ fd₁ fd' h
      obtain ⟨rfl, rfl⟩ : n = 0 ∧ m = 0 := by omega
      exact ⟨rfl, by simpa [hstream, Sink.stream] using write_records _ _ 0 _ _ hc⟩

theorem skipWritten_snd_of_fst_eq_zero {bs : List (List UInt8)} {n : Nat}
    (h : (skipWritten bs n).1 = 0) : (skipWritten bs n).2 = n := by
  match bs with
  | [] => rfl
  | b :: bs =>
    by_cases hb : b.length ≤ n
    · exact absurd h (Nat.pos_iff_ne_zero.1 (skipWritten_pos bs n hb))
    · rw [skipWritten_of_lt bs n (Nat.lt_of_not_le hb)]

/-- **The vector loop returns `false` only from a failed first call**: where its errors return
`false` only at the first buffer and it returns `true` at its end, it returns `false` only while
at buffer `0`, where no byte has been written. -/
theorem vectorLoop_false {debug : Bool} {onError : Nat → Outcome Bool}
    {writePartial : Nat → Fd → List UInt8 → Nat → Option (Outcome Unit × Fd)}
    (honError : ∀ i, onError i = .returned false → i = 0) (dataToWrite : List (List UInt8)) :
    ∀ fuel i fileOffset fd fd',
      vectorLoop debug (fun fd bytes _ => fd.write results bytes) onError writePartial true
        dataToWrite fuel i fileOffset fd = some (.returned false, fd') →
      i = 0 ∧ fd'.stream = fd.stream
  | 0, _, _, _, _, h => by cases h
  | fuel + 1, i, fileOffset, fd, fd', h => by
    rw [vectorLoop] at h
    by_cases hi : i < dataToWrite.length
    swap
    · rw [if_neg hi] at h
      cases h
    rw [if_pos hi] at h
    rcases hc : fd.write results ((dataToWrite.drop i).take (min IOV_MAX (dataToWrite.length - i))).flatten
      with ⟨_ | n, fd₁⟩ <;> simp only [hc] at h
    · -- the call failed
      obtain ⟨he, rfl⟩ := Prod.mk.inj (Option.some.inj h)
      exact ⟨honError i he, by simpa [Sink.stream] using write_records _ _ 0 _ _ hc⟩
    · rcases hs : skipWritten (dataToWrite.drop i) n with ⟨skipped, rest⟩
      simp only [hs] at h
      split_ifs at h with hpart hdebug
      · cases h
      · -- the rest of a buffer written in part: the loop goes on past buffer `0`
        split at h
        · exact absurd (vectorLoop_false honError dataToWrite fuel _ _ _ _ h).1 (Nat.succ_ne_zero _)
        all_goals cases h
      · -- no buffer written in part: a call at buffer `0` wrote nothing
        obtain ⟨hi0, hstream⟩ := vectorLoop_false honError dataToWrite fuel _ _ _ _ h
        have hskip : skipped = 0 := by omega
        have hrest : rest = n := by
          simpa [hs] using @skipWritten_snd_of_fst_eq_zero (dataToWrite.drop i) n
            (by rw [hs, hskip])
        have hn : n = 0 := by omega
        subst hn
        exact ⟨by omega, by simpa [hstream, Sink.stream] using write_records _ _ 0 _ _ hc⟩

namespace SpliceVault

theorem accountIfSpliced_false {vault vault' : SpliceVault} {owner size : Nat}
    {result : Outcome Bool × Fd} {fd' : Fd}
    (h : vault.accountIfSpliced owner size result = (.returned false, fd', vault')) :
    result = (.returned false, fd') ∧ vault' = vault := by
  rcases result with ⟨(_ | _) | _ | _, _⟩ <;> simp [accountIfSpliced] at h ⊢
  exact ⟨h.1, h.2.symm⟩

end SpliceVault

/-- **A `splice` that returns `false` leaves the pipe and the vault as they were**: against any
kernel, with or without `assert`, for one buffer and for a vector of buffers, no byte has reached
the pipe and no owner or byte has been accounted, so the data may be written by other means
without a byte arriving twice. -/
theorem spliceVault_false_leaves_pipe_untouched (results : Nat → Nat → Option Nat)
    (vault : SpliceVault) (fd : Fd) :
    (∀ dataToWrite owner fuel fd' vault',
      vault.splice results fd dataToWrite owner fuel = some (.returned false, fd', vault') →
      fd'.stream = fd.stream ∧ vault' = vault) ∧
    ∀ debug buffersToWrite owner fuel fd' vault',
      vault.spliceVector results debug fd buffersToWrite owner fuel =
        some (.returned false, fd', vault') →
      fd'.stream = fd.stream ∧ vault' = vault := by
  refine ⟨fun dataToWrite owner fuel fd' vault' h => ?_,
    fun debug buffersToWrite owner fuel fd' vault' h => ?_⟩
  · unfold SpliceVault.splice at h
    split_ifs at h
    · obtain ⟨-, rfl, rfl⟩ := Prod.mk.inj (Option.some.inj h) |>.imp_right Prod.mk.inj
      exact ⟨rfl, rfl⟩
    · obtain ⟨result, hloop, hresult⟩ := Option.map_eq_some'.1 h
      obtain ⟨rfl, rfl⟩ := SpliceVault.accountIfSpliced_false hresult
      exact ⟨(writeAllSpliceUnsafeLoop_false dataToWrite fuel 0 fd fd' hloop).2, rfl⟩
  · unfold SpliceVault.spliceVector at h
    split_ifs at h
    · obtain ⟨-, rfl, rfl⟩ := Prod.mk.inj (Option.some.inj h) |>.imp_right Prod.mk.inj
      exact ⟨rfl, rfl⟩
    · obtain ⟨result, hloop, hresult⟩ := Option.map_eq_some'.1 h
      obtain ⟨rfl, rfl⟩ := SpliceVault.accountIfSpliced_false hresult
      refine ⟨(vectorLoop_false (fun i he => ?_) buffersToWrite fuel 0 0 fd fd' hloop).2, rfl⟩
      split_ifs at he with hi
      exact hi

/-- Against a kernel that fails every call, a pipe vault's splice of one buffer, and of a vector,
returns `false`. -/
theorem spliceVault_false_leaves_pipe_untouched_failing :
    (SpliceVault.new 65536).splice (fun _ _ => none) ⟨0, [], []⟩ [1, 2] 0 3 =
        some (.returned false, ⟨1, [], []⟩, SpliceVault.new 65536) ∧
      (SpliceVault.new 65536).spliceVector (fun _ _ => none) false ⟨0, [], []⟩ [[1], [2]] 0 3 =
        some (.returned false, ⟨1, [], []⟩, SpliceVault.new 65536) ∧
      (([] : List UInt8) = [] ∧ SpliceVault.new 65536 = SpliceVault.new 65536) ∧
      (([] : List UInt8) = [] ∧ SpliceVault.new 65536 = SpliceVault.new 65536) :=
  ⟨rfl, rfl,
    (spliceVault_false_leaves_pipe_untouched (fun _ _ => none) (SpliceVault.new 65536)
      ⟨0, [], []⟩).1 [1, 2] 0 3 ⟨1, [], []⟩ _ rfl,
    (spliceVault_false_leaves_pipe_untouched (fun _ _ => none) (SpliceVault.new 65536)
      ⟨0, [], []⟩).2 false [[1], [2]] 0 3 ⟨1, [], []⟩ _ rfl⟩

end Pragzip.FileUtils
