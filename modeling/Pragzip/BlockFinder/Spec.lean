import Pragzip.BlockFinder.Model

/-!
# Block finder — the sorted set plus the grid

What the block finder is for: a set of confirmed block offsets, read in increasing order, then
the guesses on the spacing grid above the last of them, then the file size once.

* `FinderConfig`: what no call changes;
* `FinderSpec`: the confirmed offsets, a set that is never empty, and whether it is final;
* `FinderSpec.confirm`, `FinderSpec.gather`, `FinderSpec.call`, `FinderSpec.run`: the calls on
  the set;
* `guesses`, `FinderSpec.table`, `FinderSpec.lookup`: the sequence that `get` is to return;
* `guesses_eq`: the guesses are the grid points `p * S` for `p` from `L / S + 1` on, as long as
  they stay below the file size;
* **`FinderSpec.run_lt_fileSize`**: from a header that ends before the end of the file, every
  confirmed offset stays below the file size;
* **`FinderSpec.table_sorted`**: then the table is strictly increasing;
* **`FinderSpec.lookup_card_add`**: past the confirmed offsets, the table is the grid point, then
  the file size, then nothing.
-/

namespace Pragzip

/-- What no call of a block finder changes: the file size and the spacing in bits, the batch
size of the BGZF gatherer, and whether the file is BGZF. -/
structure FinderConfig where
  fileSizeInBits : Nat
  spacingInBits : Nat
  batchFetchCount : Nat
  isBgzfFile : Bool
  deriving DecidableEq, Repr

/-- The confirmed block offsets as a set, never empty since the header's end is one of them, and
whether the set is final. -/
structure FinderSpec where
  confirmed : Finset Nat
  finalized : Bool
  nonempty : confirmed.Nonempty

/-- The multiples `k * S` with `L < k * S < F`, in increasing order: the guesses after the last
confirmed offset `L`. -/
def guesses (L S F : Nat) : List Nat :=
  ((List.range (F / S + 1)).filter fun k => L < k * S ∧ k * S < F).map (· * S)

namespace FinderSpec

variable (K : FinderConfig)

/-- After the constructor: the header's end alone. -/
def init (headerEnd : Nat) : FinderSpec := ⟨{headerEnd}, false, Finset.singleton_nonempty headerEnd⟩

/-- The largest confirmed offset. -/
def last (A : FinderSpec) : Nat := A.confirmed.max' A.nonempty

/-- Confirm an offset: only one below the file size, and only while the set is not final. -/
def confirm (A : FinderSpec) (o : Nat) : FinderSpec :=
  if o < K.fileSizeInBits ∧ A.finalized = false then
    ⟨insert o A.confirmed, A.finalized, Finset.insert_nonempty o A.confirmed⟩
  else A

/-- The BGZF gatherer on the set: which of the scanned offsets it confirms. -/
def gather (A : FinderSpec) (blockNumber : Nat) : List Nat → FinderSpec
  | [] => A
  | nextOffset :: scan =>
    if sizeT (blockNumber + K.batchFetchCount) ≥ A.confirmed.card then
      if nextOffset < sizeT (A.last + K.spacingInBits) then gather A blockNumber scan
      else if nextOffset ≥ K.fileSizeInBits then A
      else gather (A.confirm K nextOffset) blockNumber scan
    else A

/-- A call on the set. -/
def call (A : FinderSpec) : FinderCall → FinderSpec
  | .insert o => A.confirm K o
  | .finalize => { A with finalized := true }
  | .get i scan => if K.isBgzfFile && !A.finalized then A.gather K i scan else A

/-- A sequence of calls on the set. -/
def run (A : FinderSpec) (calls : List FinderCall) : FinderSpec := calls.foldl (call K) A

/-- The offsets in the order of the block indexes: the confirmed ones, the guesses, the file
size. -/
def table (A : FinderSpec) : List Nat :=
  A.confirmed.sort (· ≤ ·) ++ guesses A.last K.spacingInBits K.fileSizeInBits ++
    [K.fileSizeInBits]

/-- The offset of block `i`, if there is one. -/
def lookup (A : FinderSpec) (i : Nat) : Option Nat := (A.table K)[i]?

/-! ## Confirmed offsets stay below the file size -/

@[simp]
theorem confirm_finalized (A : FinderSpec) (o : Nat) : (A.confirm K o).finalized = A.finalized := by
  unfold confirm; split <;> rfl

theorem confirm_confirmed (A : FinderSpec) (o : Nat) :
    (A.confirm K o).confirmed =
      if o < K.fileSizeInBits ∧ A.finalized = false then insert o A.confirmed else A.confirmed := by
  unfold confirm; split <;> rfl

theorem confirm_of_mem {A : FinderSpec} {o : Nat} (hm : o ∈ A.confirmed) :
    (A.confirm K o).confirmed = A.confirmed := by
  rw [confirm_confirmed]; split_ifs <;> simp [hm]

theorem confirm_of_ge {A : FinderSpec} {o : Nat} (ho : K.fileSizeInBits ≤ o) : A.confirm K o = A :=
  if_neg fun h => absurd h.1 (by omega)

theorem confirm_of_finalized {A : FinderSpec} {o : Nat} (hf : A.finalized = true) :
    A.confirm K o = A :=
  if_neg fun h => Bool.false_ne_true (h.2.symm.trans hf)

/-- The offsets every confirmed one is below. -/
def Below (A : FinderSpec) : Prop := ∀ o ∈ A.confirmed, o < K.fileSizeInBits

theorem Below.confirm {A : FinderSpec} (hA : A.Below K) (o : Nat) : (A.confirm K o).Below K := by
  intro x hx
  rw [confirm_confirmed] at hx
  split at hx
  · rcases Finset.mem_insert.1 hx with rfl | hx
    exacts [‹_ ∧ _›.1, hA x hx]
  · exact hA x hx

theorem Below.gather {A : FinderSpec} (hA : A.Below K) (blockNumber : Nat) (scan : List Nat) :
    (A.gather K blockNumber scan).Below K := by
  induction scan generalizing A with
  | nil => exact hA
  | cons o scan ih =>
    unfold FinderSpec.gather
    split_ifs
    exacts [ih hA, hA, ih (hA.confirm K o), hA]

theorem Below.call {A : FinderSpec} (hA : A.Below K) (c : FinderCall) : (A.call K c).Below K := by
  cases c with
  | insert o => exact hA.confirm K o
  | finalize => exact hA
  | get i scan =>
    rw [FinderSpec.call]
    split
    exacts [hA.gather K i scan, hA]

/-- **A run from a header that ends before the end of the file confirms only offsets below the
file size.** -/
theorem run_lt_fileSize {headerEnd : Nat} (hh : headerEnd < K.fileSizeInBits)
    (calls : List FinderCall) : ((init headerEnd).run K calls).Below K := by
  have hinit : (init headerEnd).Below K := fun o ho => by
    rwa [Finset.mem_singleton.1 ho]
  unfold run
  induction calls using List.reverseRecOn with
  | nil => exact hinit
  | append_singleton calls c ih => rw [List.foldl_append]; exact ih.call K c

end FinderSpec

/-! ## The grid -/

theorem filter_range_between (n a b : Nat) :
    (List.range n).filter (fun k => a ≤ k ∧ k < b) = List.range' a (min n b - a) := by
  induction n with
  | zero => simp
  | succ n ih =>
    rw [List.range_succ, List.filter_append, ih]
    by_cases h : a ≤ n ∧ n < b
    · rw [show min (n + 1) b - a = min n b - a + 1 by omega, List.range'_concat]
      simp [h, show a + (min n b - a) = n by omega]
    · simp only [List.filter_cons, List.filter_nil, decide_eq_true_eq, h, if_false, List.append_nil]
      congr 1
      omega

theorem lt_ceilDiv_iff {k S F : Nat} (hS : 0 < S) : k < (F + S - 1) / S ↔ k * S < F := by
  rw [Nat.lt_iff_add_one_le, Nat.le_div_iff_mul_le hS, Nat.add_mul, Nat.one_mul]
  omega

theorem guesses_eq {L S F : Nat} (hS : 0 < S) :
    guesses L S F = (List.range' (L / S + 1) ((F + S - 1) / S - (L / S + 1))).map (· * S) := by
  have hpred : ∀ k ∈ List.range (F / S + 1), decide (L < k * S ∧ k * S < F) =
      decide (L / S + 1 ≤ k ∧ k < (F + S - 1) / S) := fun k _ =>
    decide_eq_decide.2 (by rw [lt_ceilDiv_iff hS, Nat.add_one_le_iff, Nat.div_lt_iff_lt_mul hS])
  have hmin : min (F / S + 1) ((F + S - 1) / S) = (F + S - 1) / S := by
    have : (F + S - 1) / S ≤ (F + S) / S := Nat.div_le_div_right (by omega)
    rw [Nat.add_div_right F hS] at this
    omega
  rw [guesses, List.filter_congr hpred, filter_range_between, hmin]

theorem guesses_getElem? {L S F : Nat} (hS : 0 < S) (m : Nat) :
    (guesses L S F)[m]? =
      if (L / S + 1 + m) * S < F then some ((L / S + 1 + m) * S) else none := by
  rw [guesses_eq hS, List.getElem?_map]
  split_ifs with h
  · rw [List.getElem?_range' _ _ (by rw [← lt_ceilDiv_iff hS] at h; omega)]
    simp
  · rw [List.getElem?_eq_none (by rw [List.length_range', ← lt_ceilDiv_iff hS] at *; omega)]
    rfl

theorem length_guesses {L S F : Nat} (hS : 0 < S) :
    (guesses L S F).length = (F + S - 1) / S - (L / S + 1) := by
  rw [guesses_eq hS, List.length_map, List.length_range']

theorem guesses_append_getElem? {L S F : Nat} (hS : 0 < S) (hL : L < F) (m : Nat) :
    (guesses L S F ++ [F])[m]? =
      if (L / S + 1 + m) * S < F then some ((L / S + 1 + m) * S)
      else if (L / S + m) * S < F then some F else none := by
  have hlen := length_guesses (L := L) (F := F) hS
  have hc : L / S < (F + S - 1) / S := (lt_ceilDiv_iff hS).2 (lt_of_le_of_lt (Nat.div_mul_le_self _ _) hL)
  by_cases hm : m < (F + S - 1) / S - (L / S + 1)
  · have hp : (L / S + 1 + m) * S < F := (lt_ceilDiv_iff hS).1 (by omega)
    rw [List.getElem?_append_left (by omega), guesses_getElem? hS, if_pos hp, if_pos hp]
  · have hp : ¬ (L / S + 1 + m) * S < F := by rw [← lt_ceilDiv_iff hS]; omega
    rw [List.getElem?_append_right (by omega), hlen, if_neg hp]
    rcases Nat.lt_or_ge ((F + S - 1) / S - (L / S + 1)) m with hgt | hle
    · rw [List.getElem?_eq_none (by simp; omega), if_neg (by rw [← lt_ceilDiv_iff hS]; omega)]
    · rw [show m - ((F + S - 1) / S - (L / S + 1)) = 0 by omega,
        if_pos ((lt_ceilDiv_iff hS).1 (by omega))]
      rfl

namespace FinderSpec

variable (K : FinderConfig)

theorem getLastD_sort (A : FinderSpec) : (A.confirmed.sort (· ≤ ·)).getLastD 0 = A.last := by
  rw [last, Finset.max'_eq_sorted_last, List.getLastD_eq_getLast?, List.getLast?_eq_getElem?,
    List.getElem?_eq_getElem]
  rfl

theorem le_last {A : FinderSpec} {o : Nat} (ho : o ∈ A.confirmed) : o ≤ A.last :=
  A.confirmed.le_max' o ho

/-- **Past the confirmed offsets, the table is the grid point `p * S` while it stays below the
file size, then the file size once, then nothing.** Here `p = L / S + 1 + m` for the `m`-th index
past the confirmed ones. -/
theorem lookup_card_add {A : FinderSpec} (hS : 0 < K.spacingInBits) (hA : A.Below K) (m : Nat) :
    A.lookup K (A.confirmed.card + m) =
      if (A.last / K.spacingInBits + 1 + m) * K.spacingInBits < K.fileSizeInBits then
        some ((A.last / K.spacingInBits + 1 + m) * K.spacingInBits)
      else if (A.last / K.spacingInBits + m) * K.spacingInBits < K.fileSizeInBits then
        some K.fileSizeInBits
      else none := by
  rw [lookup, table, List.append_assoc, List.getElem?_append_right (by simp), Finset.length_sort,
    Nat.add_sub_cancel_left, guesses_append_getElem? (L := A.last) hS (hA _ (A.confirmed.max'_mem A.nonempty))]

/-- **When every confirmed offset is below the file size, the table is strictly increasing.** -/
theorem table_sorted {A : FinderSpec} (hS : 0 < K.spacingInBits) (hA : A.Below K) :
    (A.table K).Sorted (· < ·) := by
  have hguess : ∀ g ∈ guesses A.last K.spacingInBits K.fileSizeInBits,
      A.last < g ∧ g < K.fileSizeInBits := by
    intro g hg
    obtain ⟨k, hk, rfl⟩ := List.mem_map.1 hg
    simpa using (List.mem_filter.1 hk).2
  have hsorted : (guesses A.last K.spacingInBits K.fileSizeInBits).Sorted (· < ·) :=
    ((List.pairwise_lt_range _).filter _).map _ fun _ _ h => Nat.mul_lt_mul_of_pos_right h hS
  refine List.pairwise_append.2 ⟨List.pairwise_append.2 ⟨A.confirmed.sort_sorted_lt, hsorted,
    fun a ha b hb => ?_⟩, List.pairwise_singleton _ _, fun a ha b hb => ?_⟩
  · exact lt_of_le_of_lt (le_last ((Finset.mem_sort _).1 ha)) (hguess b hb).1
  · rw [List.mem_singleton.1 hb]
    rcases List.mem_append.1 ha with ha | ha
    exacts [hA a ((Finset.mem_sort _).1 ha), (hguess a ha).2]

end FinderSpec

end Pragzip
