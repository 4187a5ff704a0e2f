import Pragzip.FileUtils.Write

/-!
# File output — every byte once

Against a kernel that fails a call or accepts between one byte and the bytes asked, the write
loops finish. Each has then either delivered the data, each byte once and in order, or reports a
failure right after a call the kernel failed; `pwriteAllToFdVector` writes byte `k` of the
concatenation at `fileOffset + k`. This holds where `assert` is compiled out. The `assert` of the
vector loops states the reverse of what the skip loop leaves: the buffer it stops at is longer
than the count left over, so in a debug build every short write that ends inside a buffer
aborts.

* `ValidResults`: a kernel that accepts at most the bytes asked, and at least one where any are
  asked;
* `Sink`, `Sink.stream`, `Sink.file`, `Sink.Delivers`, `LastCallFailed`, `Sink.Finishes`: where the
  bytes of a call arrive, and what a finished loop has delivered or which call it failed at;
* `skipWritten_split`, `skipWritten_lt`, `skipWritten_drop`: the bytes a short write delivered,
  and the buffer the skip loop stops at;
* `writeAllLoop_finishes`, `writeAllSpliceUnsafeLoop_finishes`, `vectorLoop_finishes`: the loops
  finish within their fuel, and deliver or fail a call;
* **`writeAllVector_delivers_each_byte_once`**: the three vector writes, without `assert`, and
  `writeAllVector_delivers_of_never_fails`: against a kernel that fails no call;
* `vectorLoop_aborts`, **`writeAllVector_assert_fails`**, `writeAllToFdVector_debug_aborts`: with
  `assert`, a short write that ends inside a buffer aborts.
-/

namespace Pragzip.FileUtils

/-- A valid kernel: each call fails, or accepts between one byte and the bytes asked,
and nothing where it is asked for nothing. -/
def ValidResults (results : Nat → Nat → Option Nat) : Prop :=
  ∀ call size n, results call size = some n → n ≤ size ∧ (0 < size → 0 < n)

theorem ValidResults.vmspliceResults {results : Nat → Nat → Option Nat} (h : ValidResults results) :
    ValidResults (vmspliceResults results) := by
  intro call size n hn
  unfold FileUtils.vmspliceResults at hn
  split_ifs at hn
  exact h call size n hn

/-! ## Where the bytes arrive -/

/-- Where the bytes of the calls arrive: `view fd` is what has arrived so far, and
`emit position bytes` is what arrives when `bytes` are written at `position`. -/
structure Sink (Out : Type) where
  view : Fd → List Out
  emit : Nat → List UInt8 → List Out
  emit_append : ∀ position a b,
    emit position (a ++ b) = emit position a ++ emit (position + a.length) b

/-- The stream, to which `write`, `writev` and `vmsplice` append. -/
def Sink.stream : Sink UInt8 := ⟨Fd.stream, fun _ bytes => bytes, fun _ _ _ => rfl⟩

/-- The file, where `pwrite` and `pwritev` write each byte at its offset. -/
def Sink.file : Sink (Nat × UInt8) :=
  ⟨Fd.file, fun position bytes => bytes.enumFrom position,
    fun position a b => List.enumFrom_append a b position⟩

/-- The last system call of a loop from `fd` to `fd'` failed: it was call number `fd'.calls - 1`,
made by the loop, and `kernel` fails that call for a request of a size `Asked` allows. -/
def LastCallFailed (kernel : Nat → Nat → Option Nat) (Asked : Nat → Prop) (fd fd' : Fd) : Prop :=
  fd.calls < fd'.calls ∧ ∃ size, Asked size ∧ kernel (fd'.calls - 1) size = none

namespace Sink

variable {Out α : Type} (S : Sink Out)

@[simp]
theorem emit_nil (position : Nat) : S.emit position [] = [] := by
  simpa using S.emit_append position [] []

theorem emit_append₃ (position : Nat) (a b c : List UInt8) :
    S.emit position (a ++ (b ++ c)) =
      S.emit position a ++ (S.emit (position + a.length) b ++
        S.emit (position + a.length + b.length) c) := by
  rw [S.emit_append, S.emit_append]

/-- A system call that answers as `kernel` answers its call number and the size of its request,
counts one call, and delivers to `S` the bytes it accepts, at the position it is given; the
kernel accepts as a valid kernel does. -/
def Delivers (kernel : Nat → Nat → Option Nat) (call : Fd → List UInt8 → Nat → Option Nat × Fd) :
    Prop :=
  ∀ fd bytes position accepted fd', call fd bytes position = (accepted, fd') →
    accepted = kernel fd.calls bytes.length ∧ fd'.calls = fd.calls + 1 ∧
      ∀ n, accepted = some n → n ≤ bytes.length ∧ (0 < bytes.length → 0 < n) ∧
        S.view fd' = S.view fd ++ S.emit position (bytes.take n)

/-- A loop from `fd` finished: it did not abort and made calls only; where it returned `done`
the sink received `emitted` after what it had, and where it ended otherwise its last call
failed. -/
def Finishes (kernel : Nat → Nat → Option Nat) (Asked : Nat → Prop) (done : α) (fd : Fd)
    (emitted : List Out) : Option (Outcome α × Fd) → Prop
  | some (outcome, fd') =>
    outcome ≠ .aborted ∧ fd.calls ≤ fd'.calls ∧
      (outcome = .returned done → S.view fd' = S.view fd ++ emitted) ∧
      (outcome ≠ .returned done → LastCallFailed kernel Asked fd fd')
  | none => False

/-- A writer of the rest of a buffer that, given more turns than bytes, finishes, delivering
them at their position or failing a call for at most those bytes. -/
def PartialDelivers (kernel : Nat → Nat → Option Nat)
    (writePartial : Nat → Fd → List UInt8 → Nat → Option (Outcome Unit × Fd)) : Prop :=
  ∀ fuel fd bytes position, bytes.length < fuel →
    S.Finishes kernel (· ≤ bytes.length) () fd (S.emit position bytes)
      (writePartial fuel fd bytes position)

variable {S} {kernel : Nat → Nat → Option Nat} {Asked : Nat → Prop}

theorem Finishes.of_failed {call : Fd → List UInt8 → Nat → Option Nat × Fd}
    (hcall : S.Delivers kernel call) {fd fd' : Fd} {bytes : List UInt8} (position : Nat)
    (hc : call fd bytes position = (none, fd')) (hasked : Asked bytes.length) {done : α}
    {emitted : List Out} {outcome : Outcome α} (hne : outcome ≠ .aborted)
    (hdone : outcome ≠ .returned done) :
    S.Finishes kernel Asked done fd emitted (some (outcome, fd')) := by
  obtain ⟨hk, hcalls, -⟩ := hcall _ _ _ _ _ hc
  refine ⟨hne, by omega, fun h => absurd h hdone, fun _ => ⟨by omega, _, hasked, ?_⟩⟩
  rw [hcalls, Nat.add_sub_cancel, ← hk]

theorem Finishes.append {Asked' : Nat → Prop} (hAsked : ∀ size, Asked' size → Asked size)
    {done : α} {fd fd₁ : Fd} {before emitted total : List Out} {result : Option (Outcome α × Fd)}
    (h : S.Finishes kernel Asked' done fd₁ emitted result) (hcalls : fd.calls ≤ fd₁.calls)
    (hview : S.view fd₁ = S.view fd ++ before) (htotal : total = before ++ emitted) :
    S.Finishes kernel Asked done fd total result := by
  match result, h with
  | some (_, _), ⟨hne, hle, hret, hfail⟩ =>
    refine ⟨hne, by omega, fun he => by rw [hret he, hview, htotal, List.append_assoc],
      fun he => ?_⟩
    obtain ⟨hlt, size, hs, hk⟩ := hfail he
    exact ⟨by omega, size, hAsked size hs, hk⟩

theorem Finishes.threw_or_delivered {fd : Fd} {emitted : List Out}
    {result : Option (Outcome Unit × Fd)} (h : S.Finishes kernel Asked () fd emitted result) :
    ∃ outcome fd', result = some (outcome, fd') ∧
      (outcome = .returned () ∧ S.view fd' = S.view fd ++ emitted ∨
        (∃ error, outcome = .threw error) ∧ LastCallFailed kernel Asked fd fd') := by
  match result, h with
  | some (.returned (), fd'), ⟨_, _, hret, _⟩ => exact ⟨_, fd', rfl, .inl ⟨rfl, hret rfl⟩⟩
  | some (.threw error, fd'), ⟨_, _, _, hfail⟩ =>
    exact ⟨_, fd', rfl, .inr ⟨⟨error, rfl⟩, hfail nofun⟩⟩

theorem Finishes.failed_or_delivered {fd : Fd} {emitted : List Out}
    {result : Option (Outcome Bool × Fd)} (h : S.Finishes kernel Asked true fd emitted result) :
    ∃ outcome fd', result = some (outcome, fd') ∧
      (outcome = .returned true ∧ S.view fd' = S.view fd ++ emitted ∨
        (outcome = .returned false ∨ ∃ error, outcome = .threw error) ∧
          LastCallFailed kernel Asked fd fd') := by
  match result, h with
  | some (.returned false, fd'), ⟨_, _, _, hfail⟩ => exact ⟨_, fd', rfl, .inr ⟨.inl rfl, hfail nofun⟩⟩
  | some (.returned true, fd'), ⟨_, _, hret, _⟩ => exact ⟨_, fd', rfl, .inl ⟨rfl, hret rfl⟩⟩
  | some (.threw error, fd'), ⟨_, _, _, hfail⟩ =>
    exact ⟨_, fd', rfl, .inr ⟨.inr ⟨error, rfl⟩, hfail nofun⟩⟩

end Sink

variable {results : Nat → Nat → Option Nat}

theorem write_delivers (h : ValidResults results) :
    Sink.stream.Delivers results fun fd bytes _ => fd.write results bytes := by
  rintro fd bytes _ _ _ ⟨⟩
  exact ⟨rfl, rfl, fun n hn => ⟨(h _ _ _ hn).1, (h _ _ _ hn).2, by simp [Sink.stream, Fd.write, hn]⟩⟩

theorem pwrite_delivers (h : ValidResults results) :
    Sink.file.Delivers results fun fd bytes position => fd.pwrite results bytes position := by
  rintro fd bytes position _ _ ⟨⟩
  exact ⟨rfl, rfl, fun n hn => ⟨(h _ _ _ hn).1, (h _ _ _ hn).2, by simp [Sink.file, Fd.pwrite, hn]⟩⟩

theorem vmsplice_delivers (h : ValidResults results) :
    Sink.stream.Delivers (vmspliceResults results) fun fd bytes _ => fd.vmsplice results bytes :=
  write_delivers h.vmspliceResults

/-! ## The skip loop -/

section Skip

variable (bs : List (List UInt8)) (n : Nat)

theorem skipWritten_le : (skipWritten bs n).1 ≤ bs.length := by
  induction bs generalizing n with
  | nil => exact Nat.le_refl 0
  | cons b bs ih =>
    simp only [skipWritten]
    split_ifs
    · exact Nat.succ_le_succ (ih _)
    · exact Nat.zero_le _

/-- **The skip loop's exit**: the buffer it stops at is longer than the count left over. -/
theorem skipWritten_lt :
    (skipWritten bs n).1 < bs.length →
      (skipWritten bs n).2 < (bs.getD (skipWritten bs n).1 []).length := by
  induction bs generalizing n with
  | nil => exact fun h => absurd h (Nat.not_lt_zero _)
  | cons b bs ih =>
    simp only [skipWritten]
    split_ifs with hb
    · exact fun h => ih _ (Nat.lt_of_succ_lt_succ h)
    · exact fun _ => Nat.lt_of_not_le hb

theorem skipWritten_split :
    bs.flatten.take n ++ ((bs.getD (skipWritten bs n).1 []).drop (skipWritten bs n).2 ++
      (bs.drop ((skipWritten bs n).1 + 1)).flatten) = bs.flatten := by
  induction bs generalizing n with
  | nil => simp [skipWritten]
  | cons b bs ih =>
    simp only [skipWritten, List.flatten_cons]
    split_ifs with hb
    · rw [List.take_append_eq_append_take, List.take_of_length_le hb, List.getD_cons_succ,
        List.drop_succ_cons, List.append_assoc, ih]
    · rw [List.take_append_of_le_length (by omega), List.getD_cons_zero, List.drop_one,
        List.tail_cons, ← List.append_assoc, List.take_append_drop]

theorem skipWritten_pos {b : List UInt8} (hb : b.length ≤ n) : 0 < (skipWritten (b :: bs) n).1 := by
  simp only [skipWritten, if_pos hb]
  exact Nat.succ_pos _

theorem skipWritten_of_lt {b : List UInt8} (hb : n < b.length) : skipWritten (b :: bs) n = (0, n) := by
  simp only [skipWritten, if_neg (Nat.not_le_of_lt hb)]

end Skip

theorem flatten_drop (l : List (List UInt8)) (k : Nat) :
    (l.drop k).flatten = l.getD k [] ++ (l.drop (k + 1)).flatten := by
  induction l generalizing k with
  | nil => simp
  | cons b l ih =>
    cases k with
    | zero => simp
    | succ k => simpa using ih k

theorem length_flatten_drop_le (l : List (List UInt8)) {i j : Nat} (h : i ≤ j) :
    (l.drop j).flatten.length ≤ (l.drop i).flatten.length := by
  rw [show j = i + (j - i) by omega, ← List.drop_drop, ← List.take_append_drop (j - i) (l.drop i),
    List.flatten_append, List.length_append, List.take_append_drop]
  exact Nat.le_add_left _ _

theorem length_window_le (bs : List (List UInt8)) (m : Nat) :
    (bs.take m).flatten.length ≤ bs.flatten.length := by
  conv_rhs => rw [← List.take_append_drop m bs, List.flatten_append, List.length_append]
  exact Nat.le_add_right _ _

theorem window_take {bs : List (List UInt8)} {m n : Nat} (h : n ≤ (bs.take m).flatten.length) :
    (bs.take m).flatten.take n = bs.flatten.take n := by
  conv_rhs => rw [← List.take_append_drop m bs, List.flatten_append]
  exact (List.take_append_of_le_length h).symm

theorem skipWritten_progress {l : List (List UInt8)} {m n : Nat} (hl : l ≠ []) (hm : 0 < m)
    (hpos : 0 < (l.take m).flatten.length → 0 < n) :
    0 < (skipWritten l n).1 ∨ 0 < (skipWritten l n).2 := by
  obtain ⟨b, rest, rfl⟩ := List.exists_cons_of_ne_nil hl
  obtain ⟨m, rfl⟩ := Nat.exists_eq_succ_of_ne_zero hm.ne'
  by_cases hb : b.length ≤ n
  · exact .inl (skipWritten_pos rest n hb)
  · rw [skipWritten_of_lt rest n (by omega)]
    exact .inr (hpos (by simp; omega))

theorem getD_drop (l : List (List UInt8)) (i k : Nat) : (l.drop i).getD k [] = l.getD (i + k) [] := by
  simp [List.getElem?_drop]

theorem skipWritten_drop {l : List (List UInt8)} {i n k r : Nat}
    (hs : skipWritten (l.drop i) n = (k, r)) :
    k ≤ l.length - i ∧ (i + k < l.length → r < (l.getD (i + k) []).length) ∧
      (l.drop i).flatten.take n ++ ((l.getD (i + k) []).drop r ++ (l.drop (i + k + 1)).flatten) =
        (l.drop i).flatten := by
  have hk := skipWritten_le (l.drop i) n
  have hr := skipWritten_lt (l.drop i) n
  have hsplit := skipWritten_split (l.drop i) n
  simp only [hs, List.length_drop, getD_drop, List.drop_drop, ← Nat.add_assoc] at hk hr hsplit
  exact ⟨hk, fun h => hr (by omega), hsplit⟩

/-- The bytes the vector loop hands the kernel in its call at buffer `i`: the buffers from `i`,
`segmentCount` of them. -/
def windowBytes (dataToWrite : List (List UInt8)) (i : Nat) : Nat :=
  ((dataToWrite.drop i).take (min IOV_MAX (dataToWrite.length - i))).flatten.length

/-- A request of at most the bytes of one window of buffers. -/
def InWindow (dataToWrite : List (List UInt8)) (size : Nat) : Prop :=
  ∃ i, size ≤ windowBytes dataToWrite i

theorem length_getD_le_windowBytes (l : List (List UInt8)) {j : Nat} (hj : j < l.length) :
    (l.getD j []).length ≤ windowBytes l j := by
  obtain ⟨m, hm⟩ : ∃ m, min IOV_MAX (l.length - j) = m + 1 :=
    Nat.exists_eq_succ_of_ne_zero (Nat.lt_min.2 ⟨by decide, by omega⟩).ne'
  rw [windowBytes, List.drop_eq_getElem_cons hj, hm, List.take_succ_cons, List.flatten_cons,
    List.length_append, List.getD_eq_getElem _ _ hj]
  exact Nat.le_add_right _ _

/-! ## The loops -/

section Loops

variable {Out α : Type} (S : Sink Out) {kernel : Nat → Nat → Option Nat}

/-- **The loop for one buffer** finishes within one turn more than the bytes left, and where it
returns it has delivered them at their positions. -/
theorem writeAllLoop_finishes {call : Fd → List UInt8 → Nat → Option Nat × Fd}
    (hcall : S.Delivers kernel call) (dataToWrite : List UInt8) (fileOffset : Nat) :
    ∀ fuel nTotalWritten fd, dataToWrite.length - nTotalWritten < fuel →
      S.Finishes kernel (· ≤ (dataToWrite.drop nTotalWritten).length) () fd
        (S.emit (fileOffset + nTotalWritten) (dataToWrite.drop nTotalWritten))
        (writeAllLoop call dataToWrite fileOffset fuel nTotalWritten fd)
  | 0, _, _, h => absurd h (Nat.not_lt_zero _)
  | fuel + 1, nTotalWritten, fd, h => by
    rw [writeAllLoop]
    split_ifs with hlt
    · rcases hc : call fd (dataToWrite.drop nTotalWritten) (fileOffset + nTotalWritten) with
        ⟨_ | _ | n, fd₁⟩
      · refine Sink.Finishes.of_failed hcall _ hc ?_ ?_ ?_; exacts [le_rfl, nofun, nofun]
      · -- a valid kernel accepts a byte of a request that has one
        have := ((hcall _ _ _ _ _ hc).2.2 0 rfl).2.1 (by rw [List.length_drop]; omega)
        exact absurd this (Nat.lt_irrefl 0)
      · obtain ⟨-, hcalls, hn⟩ := hcall _ _ _ _ _ hc
        obtain ⟨hn, -, hview⟩ := hn _ rfl
        rw [List.length_drop] at hn
        refine (writeAllLoop_finishes hcall dataToWrite fileOffset fuel (nTotalWritten + (n + 1))
          fd₁ (by omega)).append (fun size hs => ?_) (by omega) hview ?_
        · simp only [List.length_drop] at hs ⊢
          omega
        · conv_lhs => rw [← List.take_append_drop (n + 1) (dataToWrite.drop nTotalWritten)]
          rw [S.emit_append, List.drop_drop, List.length_take, List.length_drop,
            Nat.min_eq_left hn, Nat.add_assoc]
    · simp [Sink.Finishes, List.drop_eq_nil_of_le (Nat.le_of_not_lt hlt)]

theorem writeAllToFd_finishes (h : ValidResults results) (fd : Fd) (dataToWrite : List UInt8)
    {fuel : Nat} (hfuel : dataToWrite.length < fuel) :
    Sink.stream.Finishes results (· ≤ dataToWrite.length) () fd dataToWrite
      (writeAllToFd results fd dataToWrite fuel) :=
  writeAllLoop_finishes Sink.stream (write_delivers h) dataToWrite 0 fuel 0 fd hfuel

theorem pwriteAllToFd_finishes (h : ValidResults results) (fd : Fd) (dataToWrite : List UInt8)
    (fileOffset : Nat) {fuel : Nat} (hfuel : dataToWrite.length < fuel) :
    Sink.file.Finishes results (· ≤ dataToWrite.length) () fd (dataToWrite.enumFrom fileOffset)
      (pwriteAllToFd results fd dataToWrite fileOffset fuel) :=
  writeAllLoop_finishes Sink.file (pwrite_delivers h) dataToWrite fileOffset fuel 0 fd hfuel

/-- **The splice loop for one buffer** finishes within one turn more than the bytes left, and
where it returns `true` it has spliced them. -/
theorem writeAllSpliceUnsafeLoop_finishes (h : ValidResults results) (dataToWrite : List UInt8) :
    ∀ fuel dataToSplice fd, dataToSplice.length < fuel →
      Sink.stream.Finishes (vmspliceResults results) (· ≤ dataToSplice.length) true fd
        dataToSplice (writeAllSpliceUnsafeLoop results dataToWrite fuel dataToSplice fd)
  | 0, _, _, hf => absurd hf (Nat.not_lt_zero _)
  | fuel + 1, dataToSplice, fd, hf => by
    rw [writeAllSpliceUnsafeLoop]
    by_cases hpos : 0 < dataToSplice.length
    · rw [if_pos hpos]
      rcases hc : fd.vmsplice results dataToSplice with ⟨_ | n, fd₁⟩
      · simp only [hc]
        split_ifs
        all_goals refine Sink.Finishes.of_failed (vmsplice_delivers h) 0 hc ?_ ?_ ?_; exacts [le_rfl, nofun, nofun]
      · simp only [hc]
        obtain ⟨-, hcalls, hn⟩ := vmsplice_delivers h fd dataToSplice 0 _ fd₁ hc
        obtain ⟨hn, hn₀, hview⟩ := hn n rfl
        refine (writeAllSpliceUnsafeLoop_finishes h dataToWrite fuel (dataToSplice.drop n) fd₁
          (by rw [List.length_drop]; omega)).append (fun size hs => ?_) (by omega) hview
          (List.take_append_drop n dataToSplice).symm
        rw [List.length_drop] at hs
        omega
    · rw [if_neg hpos, List.eq_nil_of_length_eq_zero (Nat.eq_zero_of_not_pos hpos)]
      exact ⟨nofun, le_rfl, fun _ => (List.append_nil _).symm, fun h => absurd rfl h⟩

theorem spliceSubsequently_delivers (h : ValidResults results) :
    Sink.stream.PartialDelivers (vmspliceResults results) fun fuel fd remainingData _ =>
      (writeAllSpliceUnsafe results fd remainingData fuel).map fun (outcome, fd) =>
        (spliceSubsequently outcome, fd) := by
  intro fuel fd bytes _ hfuel
  have hsplice := writeAllSpliceUnsafeLoop_finishes h bytes fuel bytes fd hfuel
  simp only [writeAllSpliceUnsafe]
  generalize writeAllSpliceUnsafeLoop results bytes fuel bytes fd = result at hsplice ⊢
  match result, hsplice with
  | some (.returned false, _), ⟨_, hle, _, hfail⟩ => exact ⟨nofun, hle, nofun, fun _ => hfail nofun⟩
  | some (.returned true, _), ⟨_, hle, hret, _⟩ =>
    exact ⟨nofun, hle, fun _ => hret rfl, fun h => absurd rfl h⟩
  | some (.threw _, _), ⟨_, hle, _, hfail⟩ => exact ⟨nofun, hle, nofun, fun _ => hfail nofun⟩

/-- **The vector loop**, without `assert`, finishes within one turn more than the buffers and
the bytes left. Where it returns `done` it has delivered the bytes of the buffers from `i` on
at their positions from `fileOffset`; where it ends otherwise, its last call failed, asking for
at most one window of buffers. -/
theorem vectorLoop_finishes {call : Fd → List UInt8 → Nat → Option Nat × Fd}
    {onError : Nat → Outcome α}
    {writePartial : Nat → Fd → List UInt8 → Nat → Option (Outcome Unit × Fd)} {done : α}
    (hcall : S.Delivers kernel call) (hwritePartial : S.PartialDelivers kernel writePartial)
    (honError : ∀ i, onError i ≠ .aborted ∧ onError i ≠ .returned done)
    (dataToWrite : List (List UInt8)) :
    ∀ fuel i fileOffset fd, dataToWrite.length - i + (dataToWrite.drop i).flatten.length < fuel →
      S.Finishes kernel (InWindow dataToWrite) done fd (S.emit fileOffset (dataToWrite.drop i).flatten)
        (vectorLoop false call onError writePartial done dataToWrite fuel i fileOffset fd)
  | 0, _, _, _, h => absurd h (Nat.not_lt_zero _)
  | fuel + 1, i, fileOffset, fd, h => by
    rw [vectorLoop]
    by_cases hi : i < dataToWrite.length
    swap
    · rw [if_neg hi, List.drop_eq_nil_of_le (Nat.le_of_not_lt hi)]
      exact ⟨nofun, le_rfl, fun _ => by simp, fun h => absurd rfl h⟩
    rw [if_pos hi]
    rcases hc : call fd ((dataToWrite.drop i).take (min IOV_MAX (dataToWrite.length - i))).flatten
      fileOffset with ⟨_ | n, fd₁⟩
    · simp only [hc]
      exact Sink.Finishes.of_failed hcall _ hc ⟨i, le_rfl⟩ (honError i).1 (honError i).2
    obtain ⟨-, hcalls, hn⟩ := hcall _ _ _ _ _ hc
    obtain ⟨hn, hpos, hview⟩ := hn n rfl
    rw [window_take hn] at hview
    have hnL := hn.trans (length_window_le _ _)
    have hprogress := skipWritten_progress (by simpa using hi)
      (Nat.lt_min.2 ⟨by decide, by omega⟩) hpos
    rcases hs : skipWritten (dataToWrite.drop i) n with ⟨k, r⟩
    obtain ⟨hk, hr, hsplit⟩ := skipWritten_drop hs
    rw [hs] at hprogress
    have hlen := congrArg List.length hsplit
    simp only [List.length_append, List.length_take, Nat.min_eq_left hnL, List.length_drop] at hlen
    have hmono := length_flatten_drop_le dataToWrite (Nat.le_add_right i (k + 1))
    rw [← Nat.add_assoc] at hmono
    simp only [hc, hs, Bool.false_eq_true, false_and, if_false]
    by_cases hpart : i + k < dataToWrite.length ∧ 0 < r
    · rw [if_pos hpart]
      have hw := hwritePartial fuel fd₁ ((dataToWrite.getD (i + k) []).drop r) (fileOffset + n)
        (by rw [List.length_drop]; omega)
      -- what the rest of the buffer asks for is in the window that starts at the buffer
      have hasked : ∀ size, size ≤ ((dataToWrite.getD (i + k) []).drop r).length →
          InWindow dataToWrite size := fun size hs =>
        ⟨i + k, hs.trans ((List.length_drop _ _).trans_le
          ((Nat.sub_le _ _).trans (length_getD_le_windowBytes _ hpart.1)))⟩
      revert hw
      rcases writePartial fuel fd₁ ((dataToWrite.getD (i + k) []).drop r) (fileOffset + n) with
        _ | ⟨(_ | _) | error | _, fd₂⟩
      · exact False.elim
      · rintro ⟨-, hle, hret, -⟩
        refine (vectorLoop_finishes hcall hwritePartial honError dataToWrite fuel (i + k + 1)
          (fileOffset + n + ((dataToWrite.getD (i + k) []).length - r)) fd₂ (by omega)).append
          (fun _ hs => hs) (by omega) (by rw [hret rfl, hview, List.append_assoc]) ?_
        conv_lhs => rw [← hsplit]
        rw [S.emit_append₃, List.length_take, List.length_drop, Nat.min_eq_left hnL,
          List.append_assoc]
      · rintro ⟨-, hle, -, hfail⟩
        obtain ⟨hlt, size, hs, hk⟩ := hfail nofun
        exact ⟨nofun, by omega, nofun, fun _ => ⟨by omega, size, hasked size hs, hk⟩⟩
      · exact fun hw => absurd rfl hw.1
    · rw [if_neg hpart]
      have hk₁ : 0 < k := by omega
      refine (vectorLoop_finishes hcall hwritePartial honError dataToWrite fuel (i + k)
        (fileOffset + n) fd₁
        (by have := length_flatten_drop_le dataToWrite (Nat.le_add_right i k); omega)).append
        (fun _ hs => hs) (by omega) hview ?_
      have hrest : (dataToWrite.getD (i + k) []).drop r = dataToWrite.getD (i + k) [] := by
        rcases Nat.eq_zero_or_pos r with h0 | h0
        · rw [h0, List.drop_zero]
        · simp [List.getElem?_eq_none (by omega : dataToWrite.length ≤ i + k)]
      conv_lhs => rw [← hsplit]
      rw [hrest, ← flatten_drop, S.emit_append, List.length_take, Nat.min_eq_left hnL]

end Loops

/-! ## The three vector writes -/

theorem validResults_min {c : Nat} (hc : 0 < c) : ValidResults fun _ size => some (min c size) :=
  fun _ _ _ h => by
    cases h
    omega

section Vector

variable (hvalid : ValidResults results) (fd : Fd) (dataToWrite : List (List UInt8))
  (fileOffset : Nat) {fuel : Nat} (hfuel : dataToWrite.length + dataToWrite.flatten.length < fuel)
include hvalid hfuel

theorem writeAllToFdVector_finishes :
    Sink.stream.Finishes results (InWindow dataToWrite) () fd dataToWrite.flatten
      (writeAllToFdVector results false fd dataToWrite fuel) :=
  vectorLoop_finishes Sink.stream (write_delivers hvalid)
    (fun _ fd bytes _ h => writeAllToFd_finishes hvalid fd bytes h)
    (by exact fun _ => ⟨nofun, nofun⟩) dataToWrite fuel 0 0 fd hfuel

theorem pwriteAllToFdVector_finishes :
    Sink.file.Finishes results (InWindow dataToWrite) () fd
      (dataToWrite.flatten.enumFrom fileOffset)
      (pwriteAllToFdVector results false fd dataToWrite fileOffset fuel) :=
  vectorLoop_finishes Sink.file (pwrite_delivers hvalid)
    (fun _ fd bytes position h => pwriteAllToFd_finishes hvalid fd bytes position h)
    (by exact fun _ => ⟨nofun, nofun⟩) dataToWrite fuel 0 fileOffset fd hfuel

theorem writeAllSpliceUnsafeVector_finishes :
    Sink.stream.Finishes (vmspliceResults results) (InWindow dataToWrite) true fd
      dataToWrite.flatten (writeAllSpliceUnsafeVector results false fd dataToWrite fuel) :=
  vectorLoop_finishes Sink.stream (vmsplice_delivers hvalid) (spliceSubsequently_delivers hvalid)
    (by exact fun i => by by_cases hi : i = 0 <;> simp [hi]) dataToWrite fuel 0 0 fd hfuel

/-- **Every byte once, or a failed call.** Where `assert` is compiled out and the kernel is
valid, the three vector writes finish within one turn more than the buffers and their bytes.
Each has then delivered the concatenation of the buffers, each byte once and in order
(`pwriteAllToFdVector` writes byte `k` of it at `fileOffset + k`), or it reports a failure, by
throwing or, for `writeAllSpliceUnsafe`, by returning `false`, right after its last system call,
which the kernel failed for a request of at most one window of buffers. -/
theorem writeAllVector_delivers_each_byte_once :
    (∃ outcome fd', writeAllToFdVector results false fd dataToWrite fuel = some (outcome, fd') ∧
      (outcome = .returned () ∧ fd'.stream = fd.stream ++ dataToWrite.flatten ∨
        (∃ error, outcome = .threw error) ∧ LastCallFailed results (InWindow dataToWrite) fd fd')) ∧
    (∃ outcome fd',
      pwriteAllToFdVector results false fd dataToWrite fileOffset fuel = some (outcome, fd') ∧
      (outcome = .returned () ∧ fd'.file = fd.file ++ dataToWrite.flatten.enumFrom fileOffset ∨
        (∃ error, outcome = .threw error) ∧ LastCallFailed results (InWindow dataToWrite) fd fd')) ∧
    (∃ outcome fd',
      writeAllSpliceUnsafeVector results false fd dataToWrite fuel = some (outcome, fd') ∧
      (outcome = .returned true ∧ fd'.stream = fd.stream ++ dataToWrite.flatten ∨
        (outcome = .returned false ∨ ∃ error, outcome = .threw error) ∧
          LastCallFailed (vmspliceResults results) (InWindow dataToWrite) fd fd')) :=
  ⟨(writeAllToFdVector_finishes hvalid fd dataToWrite hfuel).threw_or_delivered,
    (pwriteAllToFdVector_finishes hvalid fd dataToWrite fileOffset hfuel).threw_or_delivered,
    (writeAllSpliceUnsafeVector_finishes hvalid fd dataToWrite hfuel).failed_or_delivered⟩

end Vector

/-- Two buffers of two and one bytes, at file offset `10`, against a kernel that accepts up to
two bytes a call. -/
theorem writeAllVector_delivers_each_byte_once_example :
    ValidResults (fun _ size => some (min 2 size)) ∧
      [[1, 2], [3]].length + ([[1, 2], [3]] : List (List UInt8)).flatten.length < 6 ∧
      (∃ outcome fd', writeAllToFdVector (fun _ size => some (min 2 size)) false ⟨0, [], []⟩
          [[1, 2], [3]] 6 = some (outcome, fd') ∧
        (outcome = .returned () ∧ fd'.stream = [1, 2, 3] ∨
          (∃ error, outcome = .threw error) ∧
            LastCallFailed (fun _ size => some (min 2 size)) (InWindow [[1, 2], [3]]) ⟨0, [], []⟩
              fd')) ∧
      (∃ outcome fd', pwriteAllToFdVector (fun _ size => some (min 2 size)) false ⟨0, [], []⟩
          [[1, 2], [3]] 10 6 = some (outcome, fd') ∧
        (outcome = .returned () ∧ fd'.file = [(10, 1), (11, 2), (12, 3)] ∨
          (∃ error, outcome = .threw error) ∧
            LastCallFailed (fun _ size => some (min 2 size)) (InWindow [[1, 2], [3]]) ⟨0, [], []⟩
              fd')) ∧
      (∃ outcome fd', writeAllSpliceUnsafeVector (fun _ size => some (min 2 size)) false
          ⟨0, [], []⟩ [[1, 2], [3]] 6 = some (outcome, fd') ∧
        (outcome = .returned true ∧ fd'.stream = [1, 2, 3] ∨
          (outcome = .returned false ∨ ∃ error, outcome = .threw error) ∧
            LastCallFailed (vmspliceResults fun _ size => some (min 2 size))
              (InWindow [[1, 2], [3]]) ⟨0, [], []⟩ fd')) :=
  ⟨validResults_min (by decide), by decide,
    writeAllVector_delivers_each_byte_once (validResults_min (by decide)) ⟨0, [], []⟩ [[1, 2], [3]]
      10 (by decide)⟩

/-! ## With `assert` -/

/-- **With `assert`, a short write that ends inside a buffer aborts**: the skip loop stops at a
buffer longer than the count left over, and the `assert` requires it to be shorter. -/
theorem vectorLoop_aborts {call : Fd → List UInt8 → Nat → Option Nat × Fd}
    {onError : Nat → Outcome α}
    {writePartial : Nat → Fd → List UInt8 → Nat → Option (Outcome Unit × Fd)} {done : α}
    {dataToWrite : List (List UInt8)} {fuel i fileOffset n : Nat} {fd fd₁ : Fd}
    (hi : i < dataToWrite.length)
    (hc : call fd ((dataToWrite.drop i).take (min IOV_MAX (dataToWrite.length - i))).flatten
      fileOffset = (some n, fd₁))
    (hbranch : i + (skipWritten (dataToWrite.drop i) n).1 < dataToWrite.length ∧
      0 < (skipWritten (dataToWrite.drop i) n).2) :
    vectorLoop true call onError writePartial done dataToWrite (fuel + 1) i fileOffset fd =
      some (.aborted, fd₁) := by
  rcases hs : skipWritten (dataToWrite.drop i) n with ⟨k, r⟩
  rw [hs] at hbranch
  rw [vectorLoop, if_pos hi]
  simp only [hc, hs, if_pos hbranch]
  rw [if_pos ⟨trivial, Nat.not_lt_of_lt ((skipWritten_drop hs).2.1 hbranch.1)⟩]

/-- **The assertion fails.** With `assert` compiled in, one buffer of three bytes and a kernel
that accepts one byte a call: the first call writes one byte, the skip loop stops at the buffer
with one byte over, and `assert(iovBuffer.iov_len < nBytesWritten)`, here `3 < 1`, aborts each
of the three vector writes. -/
theorem writeAllVector_assert_fails :
    writeAllToFdVector (fun _ size => some (min 1 size)) true ⟨0, [], []⟩ [[1, 2, 3]] 8 =
        some (.aborted, ⟨1, [1], []⟩) ∧
      pwriteAllToFdVector (fun _ size => some (min 1 size)) true ⟨0, [], []⟩ [[1, 2, 3]] 0 8 =
        some (.aborted, ⟨1, [], [(0, 1)]⟩) ∧
      writeAllSpliceUnsafeVector (fun _ size => some (min 1 size)) true ⟨0, [], []⟩ [[1, 2, 3]] 8 =
        some (.aborted, ⟨1, [1], []⟩) :=
  ⟨rfl, rfl, rfl⟩

/-- A debug build of `writeAllToFdVector` on the buffers `{1, 2}` and `{3, 4}`, against a kernel
that accepts up to three bytes a call, aborts after the first call, where the build without
`assert` writes the four bytes. -/
theorem writeAllToFdVector_debug_aborts :
    ValidResults (fun _ size => some (min 3 size)) ∧
      writeAllToFdVector (fun _ size => some (min 3 size)) true ⟨0, [], []⟩ [[1, 2], [3, 4]] 8 =
        some (.aborted, ⟨1, [1, 2, 3], []⟩) ∧
      writeAllToFdVector (fun _ size => some (min 3 size)) false ⟨0, [], []⟩ [[1, 2], [3, 4]] 8 =
        some (.returned (), ⟨2, [1, 2, 3, 4], []⟩) :=
  ⟨validResults_min (by decide), rfl, rfl⟩

end Pragzip.FileUtils
