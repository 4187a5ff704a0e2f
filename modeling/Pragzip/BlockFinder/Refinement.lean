import Pragzip.BlockFinder.Spec

/-!
# Block finder — the code refines the sorted set

`GzipBlockFinder` stands for a `FinderSpec` when its offsets are the confirmed set in increasing
order and the flags agree. Every call keeps that relation, with the call on the set.

* `lowerBound` on a strictly increasing list: `getElem?_lowerBound_eq_some`,
  `insert_at_lowerBound`;
* `GzipBlockFinder.config`, `GzipBlockFinder.Represents`;
* the four outcomes of `insertUnsafe`, `Represents.gather`, **`Represents.call`**,
  **`Represents.run`**;
* `GzipBlockFinder.NoWrap`: the partition index of a guess times the spacing fits in `size_t`;
* `blockOffsetAt_of_le`: past the confirmed offsets, `get` computes the grid point without
  wrapping; **`Represents.blockOffsetAt_eq`**: it is the table's entry;
* **`Represents.get`**: `get` answers from the table of the set it has gathered.
-/

namespace Pragzip

/-! ## `std::lower_bound` on a strictly increasing list -/

section LowerBound

variable {xs : List Nat} {x : Nat}

theorem take_lowerBound : xs.take (lowerBound xs x) = xs.takeWhile (· < x) := by
  have h : xs.take (lowerBound xs x) =
      (xs.takeWhile (· < x) ++ xs.dropWhile (· < x)).take (xs.takeWhile (· < x)).length := by
    rw [List.takeWhile_append_dropWhile]; rfl
  rw [h, List.take_left' rfl]

theorem drop_lowerBound : xs.drop (lowerBound xs x) = xs.dropWhile (· < x) := by
  have h : xs.drop (lowerBound xs x) =
      (xs.takeWhile (· < x) ++ xs.dropWhile (· < x)).drop (xs.takeWhile (· < x)).length := by
    rw [List.takeWhile_append_dropWhile]; rfl
  rw [h, List.drop_left' rfl]

theorem getElem?_lowerBound : xs[lowerBound xs x]? = (xs.dropWhile (· < x)).head? := by
  have h : xs[lowerBound xs x]? =
      (xs.takeWhile (· < x) ++ xs.dropWhile (· < x))[(xs.takeWhile (· < x)).length]? := by
    rw [List.takeWhile_append_dropWhile]; rfl
  rw [h, List.getElem?_append_right le_rfl, Nat.sub_self, List.head?_eq_getElem?]

theorem lt_of_mem_takeWhile {y : Nat} (hy : y ∈ xs.takeWhile (· < x)) : y < x := by
  simpa using List.mem_takeWhile_imp hy

theorem le_of_mem_dropWhile (hs : xs.Sorted (· < ·)) {y : Nat} (hy : y ∈ xs.dropWhile (· < x)) :
    x ≤ y := by
  induction xs with
  | nil => simp at hy
  | cons z zs ih =>
    rw [List.sorted_cons] at hs
    by_cases hz : z < x
    · rw [List.dropWhile_cons_of_pos (by simpa using hz)] at hy
      exact ih hs.2 hy
    · rw [List.dropWhile_cons_of_neg (by simpa using hz)] at hy
      rcases List.mem_cons.1 hy with rfl | hy
      · omega
      · exact le_trans (not_lt.1 hz) (le_of_lt (hs.1 y hy))

theorem getElem?_lowerBound_eq_some (hs : xs.Sorted (· < ·)) :
    xs[lowerBound xs x]? = some x ↔ x ∈ xs := by
  refine ⟨List.getElem?_mem, fun hx => ?_⟩
  have hd : x ∈ xs.dropWhile (· < x) := by
    rw [← List.takeWhile_append_dropWhile (· < x) xs, List.mem_append] at hx
    exact hx.resolve_left fun h => lt_irrefl x (lt_of_mem_takeWhile h)
  rw [getElem?_lowerBound]
  match hdw : xs.dropWhile (· < x), hd with
  | d :: ds, hd =>
    have hsd : (d :: ds).Sorted (· < ·) := hdw ▸ hs.sublist (List.dropWhile_sublist _)
    have hxd : x ≤ d := le_of_mem_dropWhile hs (hdw ▸ List.mem_cons_self d ds)
    rcases List.mem_cons.1 hd with rfl | hd
    · rfl
    · exact absurd (List.sorted_cons.1 hsd).1 fun h => by have := h x hd; omega

theorem insert_at_lowerBound {C : Finset Nat} (hx : x ∉ C) :
    (C.sort (· ≤ ·)).take (lowerBound (C.sort (· ≤ ·)) x) ++
        x :: (C.sort (· ≤ ·)).drop (lowerBound (C.sort (· ≤ ·)) x) =
      (insert x C).sort (· ≤ ·) := by
  have hs : (C.sort (· ≤ ·)).Sorted (· < ·) := C.sort_sorted_lt
  rw [take_lowerBound, drop_lowerBound]
  set tw := (C.sort (· ≤ ·)).takeWhile (· < x)
  set dw := (C.sort (· ≤ ·)).dropWhile (· < x)
  have hsplit : tw ++ dw = C.sort (· ≤ ·) := List.takeWhile_append_dropWhile _ _
  have hparts := List.pairwise_append.1 (show (tw ++ dw).Sorted (· < ·) by rw [hsplit]; exact hs)
  have hdw : ∀ b ∈ dw, x < b := fun b hb => lt_of_le_of_ne (le_of_mem_dropWhile hs hb)
    fun h => hx (h ▸ (Finset.mem_sort _).1 ((List.dropWhile_sublist _).subset hb))
  have hsorted : (tw ++ x :: dw).Sorted (· < ·) := by
    refine List.pairwise_append.2 ⟨hparts.1, List.sorted_cons.2 ⟨hdw, hparts.2.1⟩,
      fun a ha b hb => ?_⟩
    rcases List.mem_cons.1 hb with rfl | hb
    exacts [lt_of_mem_takeWhile ha, lt_trans (lt_of_mem_takeWhile ha) (hdw b hb)]
  have hfin : (tw ++ x :: dw).toFinset = insert x C := by
    rw [List.toFinset_append, List.toFinset_cons, Finset.union_insert, ← List.toFinset_append,
      hsplit, Finset.sort_toFinset]
  rw [← hfin]
  exact ((List.toFinset_sort _ hsorted.nodup).2 hsorted.le_of_lt).symm

end LowerBound

namespace GzipBlockFinder

/-! ## The abstraction -/

/-- The members that no call changes. -/
def config (st : GzipBlockFinder) : FinderConfig :=
  ⟨st.fileSizeInBits, st.spacingInBits, st.batchFetchCount, st.isBgzfFile⟩

/-- Under the configuration `K`, the block finder `st` stands for the set `A`: its offsets are
`A` in increasing order, and it is finalized when `A` is. -/
structure Represents (K : FinderConfig) (st : GzipBlockFinder) (A : FinderSpec) : Prop where
  config_eq : st.config = K
  blockOffsets_eq : st.blockOffsets = A.confirmed.sort (· ≤ ·)
  finalized_eq : st.finalized = A.finalized

variable {K : FinderConfig} {st : GzipBlockFinder} {A : FinderSpec}

namespace Represents

variable (hR : Represents K st A)
include hR

theorem fileSizeInBits_eq : st.fileSizeInBits = K.fileSizeInBits := by rw [← hR.config_eq]; rfl

theorem spacingInBits_eq : st.spacingInBits = K.spacingInBits := by rw [← hR.config_eq]; rfl

theorem batchFetchCount_eq : st.batchFetchCount = K.batchFetchCount := by
  rw [← hR.config_eq]; rfl

theorem isBgzfFile_eq : st.isBgzfFile = K.isBgzfFile := by rw [← hR.config_eq]; rfl

theorem length_eq : st.blockOffsets.length = A.confirmed.card := by
  rw [hR.blockOffsets_eq, Finset.length_sort]

theorem getLastD_eq : st.blockOffsets.getLastD 0 = A.last := by
  rw [hR.blockOffsets_eq, FinderSpec.getLastD_sort]

theorem sorted : st.blockOffsets.Sorted (· < ·) := hR.blockOffsets_eq ▸ A.confirmed.sort_sorted_lt

theorem mem_iff {o : Nat} : o ∈ st.blockOffsets ↔ o ∈ A.confirmed := by
  rw [hR.blockOffsets_eq, Finset.mem_sort]

theorem of_confirmed {B : FinderSpec} (hc : B.confirmed = A.confirmed)
    (hf : B.finalized = A.finalized) : Represents K st B :=
  ⟨hR.config_eq, hc ▸ hR.blockOffsets_eq, hf ▸ hR.finalized_eq⟩

end Represents

/-! ## `insertUnsafe` -/

theorem insertUnsafe_of_ge {o : Nat} (ho : st.fileSizeInBits ≤ o) : st.insertUnsafe o = .ok st :=
  if_pos ho

theorem insertUnsafe_of_mem (hR : Represents K st A) {o : Nat} (hm : o ∈ A.confirmed) :
    st.insertUnsafe o = .ok st := by
  have hlb := (getElem?_lowerBound_eq_some hR.sorted).2 (hR.mem_iff.2 hm)
  unfold insertUnsafe
  split_ifs with h₁ h₂ <;> simp_all

theorem insertUnsafe_of_finalized (hR : Represents K st A) {o : Nat}
    (ho : o < K.fileSizeInBits) (hn : o ∉ A.confirmed) (hf : A.finalized = true) :
    st.insertUnsafe o =
      .error (.invalidArgument "Already finalized, may not insert further block offsets!") := by
  have hlb : st.blockOffsets[lowerBound st.blockOffsets o]? ≠ some o :=
    fun h => hn (hR.mem_iff.1 ((getElem?_lowerBound_eq_some hR.sorted).1 h))
  rw [insertUnsafe, if_neg (by rw [hR.fileSizeInBits_eq]; omega), if_pos hlb,
    if_pos (hR.finalized_eq.trans hf)]

theorem insertUnsafe_of_new (hR : Represents K st A) {o : Nat}
    (ho : o < K.fileSizeInBits) (hn : o ∉ A.confirmed) (hf : A.finalized = false) :
    st.insertUnsafe o = .ok { st with blockOffsets := (Insert.insert o A.confirmed).sort (· ≤ ·) } := by
  have hlb : st.blockOffsets[lowerBound st.blockOffsets o]? ≠ some o :=
    fun h => hn (hR.mem_iff.1 ((getElem?_lowerBound_eq_some hR.sorted).1 h))
  rw [insertUnsafe, if_neg (by rw [hR.fileSizeInBits_eq]; omega), if_pos hlb,
    if_neg (by rw [hR.finalized_eq, hf]; decide), hR.blockOffsets_eq, insert_at_lowerBound hn]

/-- **`insertUnsafe` confirms the offset on the set, or, when the set is final and the offset new
and below the file size, throws and leaves the set as it is.** -/
theorem Represents.insertUnsafe (hR : Represents K st A) (o : Nat) :
    (∃ st', st.insertUnsafe o = .ok st' ∧ Represents K st' (A.confirm K o)) ∨
      (A.finalized = true ∧ A.confirm K o = A ∧ st.insertUnsafe o =
        .error (.invalidArgument "Already finalized, may not insert further block offsets!")) := by
  by_cases ho : o < K.fileSizeInBits
  · by_cases hn : o ∈ A.confirmed
    · exact .inl ⟨st, insertUnsafe_of_mem hR hn,
        hR.of_confirmed (FinderSpec.confirm_of_mem K hn) (FinderSpec.confirm_finalized K A o)⟩
    · cases hf : A.finalized
      · refine .inl ⟨_, insertUnsafe_of_new hR ho hn hf, ⟨hR.config_eq, ?_, ?_⟩⟩
        · rw [FinderSpec.confirm_confirmed, if_pos ⟨ho, hf⟩]
        · simpa using hR.finalized_eq
      · exact .inr ⟨rfl, FinderSpec.confirm_of_finalized K hf,
          insertUnsafe_of_finalized hR ho hn hf⟩
  · rw [FinderSpec.confirm_of_ge K (not_lt.1 ho)]
    exact .inl ⟨st, insertUnsafe_of_ge (by rw [hR.fileSizeInBits_eq]; omega), hR⟩

/-! ## Gathering, calls and runs -/

/-- **While the set is not final, the BGZF gatherer throws nothing and confirms on the list what
it confirms on the set.** -/
theorem Represents.gather (hR : Represents K st A) (hf : A.finalized = false) (blockNumber : Nat)
    (scan : List Nat) : ∃ st', st.gatherMoreBgzfBlocks blockNumber scan = .ok st' ∧
      Represents K st' (A.gather K blockNumber scan) := by
  induction scan generalizing st A with
  | nil => exact ⟨st, rfl, hR⟩
  | cons o scan ih =>
    rw [gatherMoreBgzfBlocks, FinderSpec.gather, hR.batchFetchCount_eq, hR.length_eq,
      hR.getLastD_eq, hR.spacingInBits_eq, hR.fileSizeInBits_eq]
    split_ifs
    · exact ih hR hf
    · exact ⟨st, rfl, hR⟩
    · rcases hR.insertUnsafe o with ⟨st', hst', hR'⟩ | ⟨hf', -⟩
      · rw [hst']
        exact ih hR' (by rw [FinderSpec.confirm_finalized, hf])
      · exact absurd (hf.symm.trans hf') Bool.false_ne_true
    · exact ⟨st, rfl, hR⟩

theorem call_get_of_ok {i : Nat} {scan : List Nat} {st' : GzipBlockFinder} {r : Option Nat}
    (h : st.get i scan = .ok (st', r)) : st.call (.get i scan) = st' := by
  simp only [call, h]

/-- **Every call keeps the relation, with the same call on the set.** -/
theorem Represents.call (hR : Represents K st A) (c : FinderCall) :
    Represents K (st.call c) (A.call K c) := by
  cases c with
  | insert o =>
    rcases hR.insertUnsafe o with ⟨st', hst', hR'⟩ | ⟨-, hA, herr⟩
    · simpa only [GzipBlockFinder.call, insert, hst', FinderSpec.call] using hR'
    · simpa only [GzipBlockFinder.call, insert, herr, FinderSpec.call, hA] using hR
  | finalize => exact ⟨hR.config_eq, hR.blockOffsets_eq, rfl⟩
  | get i scan =>
    simp only [GzipBlockFinder.call, get, FinderSpec.call, hR.isBgzfFile_eq, hR.finalized_eq]
    cases hb : K.isBgzfFile && !A.finalized
    · simpa using hR
    · obtain ⟨st', hst', hR'⟩ := hR.gather (by simp at hb; exact hb.2) i scan
      simpa [hst'] using hR'

/-- **A run keeps the relation, with the same calls on the set.** -/
theorem Represents.run (hR : Represents K st A) (calls : List FinderCall) :
    Represents K (st.run calls) (A.run K calls) := by
  induction calls generalizing st A with
  | nil => exact hR
  | cons c calls ih => exact ih (hR.call c)

/-! ## `get` -/

/-- Block `i` is a confirmed one, or the partition index of its guess, computed without
wrapping, times the spacing fits in `size_t`. -/
def NoWrap (st : GzipBlockFinder) (i : Nat) : Prop :=
  i < st.blockOffsets.length ∨
    (st.blockOffsets.getLastD 0 / st.spacingInBits + 1 + (i - st.blockOffsets.length)) *
      st.spacingInBits < 2 ^ 64

instance (st : GzipBlockFinder) (i : Nat) : Decidable (st.NoWrap i) :=
  inferInstanceAs (Decidable (_ ∨ _))

theorem blockOffsetAt_of_lt {i : Nat} (hi : i < st.blockOffsets.length) :
    st.blockOffsetAt i = st.blockOffsets[i]? := if_pos hi

theorem guess_arith {F S q m : Nat} (hS : 0 < S) (hw : (q + 1 + m) * S < 2 ^ 64) :
    (if sizeT (sizeT (sizeT (q + 1) + m) * S) < F then some (sizeT (sizeT (sizeT (q + 1) + m) * S))
      else if sizeT (sizeT (q + 1) + m) > 0 ∧ sizeT ((sizeT (sizeT (q + 1) + m) - 1) * S) < F
      then some F else none) =
    if (q + 1 + m) * S < F then some ((q + 1 + m) * S)
    else if (q + m) * S < F then some F else none := by
  have hp : q + 1 + m < 2 ^ 64 := lt_of_le_of_lt (Nat.le_mul_of_pos_right _ hS) hw
  have hprev : (q + m) * S < 2 ^ 64 := lt_of_le_of_lt (Nat.mul_le_mul_right _ (by omega)) hw
  rw [sizeT_of_lt (n := q + 1) (by omega), sizeT_of_lt hp, sizeT_of_lt hw,
    show q + 1 + m - 1 = q + m by omega, sizeT_of_lt hprev]
  simp only [gt_iff_lt, show 0 < q + 1 + m by omega, true_and]

theorem blockOffsetAt_of_le {i : Nat} (hS : 0 < st.spacingInBits)
    (hi : st.blockOffsets.length ≤ i)
    (hw : (st.blockOffsets.getLastD 0 / st.spacingInBits + 1 + (i - st.blockOffsets.length)) *
      st.spacingInBits < 2 ^ 64) :
    st.blockOffsetAt i =
      if (st.blockOffsets.getLastD 0 / st.spacingInBits + 1 + (i - st.blockOffsets.length)) *
          st.spacingInBits < st.fileSizeInBits then
        some ((st.blockOffsets.getLastD 0 / st.spacingInBits + 1 + (i - st.blockOffsets.length)) *
          st.spacingInBits)
      else if (st.blockOffsets.getLastD 0 / st.spacingInBits + (i - st.blockOffsets.length)) *
          st.spacingInBits < st.fileSizeInBits then some st.fileSizeInBits
      else none := by
  rw [blockOffsetAt, if_neg (not_lt.2 hi)]
  exact guess_arith hS hw

/-- **At an index that does not wrap, `get` reads the table of the set: a confirmed index always,
a later one when every confirmed offset is below the file size.** -/
theorem Represents.blockOffsetAt_eq (hR : Represents K st A) {i : Nat}
    (hS : 0 < K.spacingInBits) (hw : st.NoWrap i) (hb : i < A.confirmed.card ∨ A.Below K) :
    st.blockOffsetAt i = A.lookup K i := by
  by_cases hi : i < A.confirmed.card
  · rw [blockOffsetAt_of_lt (hR.length_eq ▸ hi), hR.blockOffsets_eq, FinderSpec.lookup,
      FinderSpec.table, List.append_assoc, List.getElem?_append_left (by simpa using hi)]
  · have hw' := hw.resolve_left (by rw [hR.length_eq]; exact hi)
    rw [blockOffsetAt_of_le (hR.spacingInBits_eq ▸ hS) (by rw [hR.length_eq]; omega) hw',
      show i = A.confirmed.card + (i - A.confirmed.card) by omega,
      FinderSpec.lookup_card_add K hS (hb.resolve_left hi)]
    simp only [hR.length_eq, hR.getLastD_eq, hR.spacingInBits_eq, hR.fileSizeInBits_eq,
      Nat.add_sub_cancel_left]

/-- **`get` throws nothing, and returns the state after its gathering with the offset there.** -/
theorem Represents.get (hR : Represents K st A) (i : Nat) (scan : List Nat) :
    st.get i scan = .ok (st.call (.get i scan), (st.call (.get i scan)).blockOffsetAt i) := by
  cases hb : st.isBgzfFile && !st.finalized
  · have hget : st.get i scan = .ok (st, st.blockOffsetAt i) := by simp only [GzipBlockFinder.get, hb]; rfl
    rw [hget, call_get_of_ok hget]
  · obtain ⟨st', hst', -⟩ :=
      hR.gather (by rw [← hR.finalized_eq]; simp at hb; exact hb.2) i scan
    have hget : st.get i scan = .ok (st', st'.blockOffsetAt i) := by
      simp only [GzipBlockFinder.get, hb, if_true, hst']; rfl
    rw [hget, call_get_of_ok hget]

end GzipBlockFinder

end Pragzip
