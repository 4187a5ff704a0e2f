import Pragzip.BlockFinder.Run

/-!
# Block finder — `find` inverts `get`

`find` looks an offset up by bisection among the confirmed ones, and otherwise inverts the grid
formula of `get`.

* `find_of_mem`, `find_of_guess`, `find_of_not_guess`: the three outcomes of `find`;
* `blockOffsetAt_eq_some`: an offset below the file size that `get` returns at an index that does
  not wrap is a confirmed one at that index, or the grid point of that index;
* `FindInvertsGet`, **`find_inverts_get`**: below the file size, `find` throws exactly for the
  offsets that no index returns, and otherwise gives the index that returns the offset;
* two runs where the inverse fails: an index whose grid point wraps, and a BGZF `get` that gathers
  before it answers.
-/

namespace Pragzip

namespace GzipBlockFinder

variable {K : FinderConfig} {st : GzipBlockFinder} {A : FinderSpec}

/-- The only error `find` throws. -/
def findError (o : Nat) : FinderError :=
  .outOfRange ("No block with the specified offset " ++ toString o ++
    " exists in the block finder map!")

theorem div_lt_of_guess {L S o : Nat} (hL : L < o) (hmod : o % S = 0) : L / S + 1 ≤ o / S :=
  Nat.div_lt_div_of_lt_of_dvd (Nat.dvd_of_mod_eq_zero hmod) hL

theorem find_of_mem (hR : Represents K st A) {o : Nat} (hm : o ∈ A.confirmed) :
    st.find o = .ok (lowerBound st.blockOffsets o) ∧
      st.blockOffsets[lowerBound st.blockOffsets o]? = some o := by
  have hlb := (getElem?_lowerBound_eq_some hR.sorted).2 (hR.mem_iff.2 hm)
  exact ⟨if_pos hlb, hlb⟩

theorem find_of_guess (hR : Represents K st A) (hF : K.fileSizeInBits < 2 ^ 64) {o : Nat}
    (hn : o ∉ A.confirmed) (hL : A.last < o) (ho : o < K.fileSizeInBits)
    (hmod : o % K.spacingInBits = 0)
    (hidx : A.confirmed.card + o / K.spacingInBits < 2 ^ 64) :
    st.find o = .ok (A.confirmed.card + (o / K.spacingInBits - (A.last / K.spacingInBits + 1))) := by
  have hlb : st.blockOffsets[lowerBound st.blockOffsets o]? ≠ some o :=
    fun h => hn (hR.mem_iff.1 ((getElem?_lowerBound_eq_some hR.sorted).1 h))
  have hq := div_lt_of_guess hL hmod
  have hfirst : st.firstPartitionIndex = A.last / K.spacingInBits + 1 := by
    rw [firstPartitionIndex, hR.getLastD_eq, hR.spacingInBits_eq, sizeT_of_lt]
    exact lt_of_le_of_lt hq (lt_of_le_of_lt (Nat.div_le_self _ _) (by omega))
  rw [find, if_neg hlb, if_pos ⟨by rw [hR.getLastD_eq]; exact hL, by rw [hR.fileSizeInBits_eq]; exact ho,
    by rw [hR.spacingInBits_eq]; exact hmod⟩, hfirst, hR.length_eq, hR.spacingInBits_eq,
    show o / K.spacingInBits + 2 ^ 64 - (A.last / K.spacingInBits + 1) =
      (o / K.spacingInBits - (A.last / K.spacingInBits + 1)) + 2 ^ 64 by omega,
    sizeT_add_two_pow,
    sizeT_of_lt (show o / K.spacingInBits - (A.last / K.spacingInBits + 1) < 2 ^ 64 by omega),
    sizeT_of_lt (show A.confirmed.card + (o / K.spacingInBits - (A.last / K.spacingInBits + 1)) <
      2 ^ 64 by omega)]

theorem find_of_not_guess (hR : Represents K st A) {o : Nat} (hn : o ∉ A.confirmed)
    (hg : ¬ (A.last < o ∧ o < K.fileSizeInBits ∧ o % K.spacingInBits = 0)) :
    st.find o = .error (findError o) := by
  have hlb : st.blockOffsets[lowerBound st.blockOffsets o]? ≠ some o :=
    fun h => hn (hR.mem_iff.1 ((getElem?_lowerBound_eq_some hR.sorted).1 h))
  rw [find, if_neg hlb, if_neg (by rwa [hR.getLastD_eq, hR.fileSizeInBits_eq, hR.spacingInBits_eq])]
  rfl

theorem blockOffsetAt_eq_some (hR : Represents K st A) (hS : 0 < K.spacingInBits) {i o : Nat}
    (hw : st.NoWrap i) (ho : o < K.fileSizeInBits) (h : st.blockOffsetAt i = some o) :
    (i < A.confirmed.card ∧ st.blockOffsets[i]? = some o) ∨
      (A.confirmed.card ≤ i ∧ o = (A.last / K.spacingInBits + 1 + (i - A.confirmed.card)) *
        K.spacingInBits) := by
  by_cases hi : i < A.confirmed.card
  · exact .inl ⟨hi, blockOffsetAt_of_lt (hR.length_eq ▸ hi) ▸ h⟩
  · refine .inr ⟨not_lt.1 hi, ?_⟩
    rw [blockOffsetAt_of_le (hR.spacingInBits_eq ▸ hS) (by rw [hR.length_eq]; omega)
      (hw.resolve_left (by rw [hR.length_eq]; exact hi))] at h
    simp only [hR.length_eq, hR.getLastD_eq, hR.spacingInBits_eq, hR.fileSizeInBits_eq] at h
    split_ifs at h
    · exact (Option.some.inj h).symm
    · exact absurd (Option.some.inj h) (by omega)

/-- What `find` does on the block finder `st`, for an offset `o` below the file size whose grid
index `size() + o / S` fits in `size_t`: it throws exactly when no index that does not wrap has
`get` return `o`; it returns such an index otherwise; and every such index is the one it
returns. `get` is taken on `st` as it is, without gathering. -/
structure FindInvertsGet (st : GzipBlockFinder) : Prop where
  find_error_iff : ∀ o, o < st.fileSizeInBits →
    st.blockOffsets.length + o / st.spacingInBits < 2 ^ 64 →
    (st.find o = .error (findError o) ↔ ∀ i, st.NoWrap i → st.blockOffsetAt i ≠ some o)
  blockOffsetAt_find : ∀ o i, o < st.fileSizeInBits →
    st.blockOffsets.length + o / st.spacingInBits < 2 ^ 64 →
    st.find o = .ok i → st.NoWrap i ∧ st.blockOffsetAt i = some o
  find_blockOffsetAt : ∀ o i, o < st.fileSizeInBits →
    st.blockOffsets.length + o / st.spacingInBits < 2 ^ 64 →
    st.NoWrap i → st.blockOffsetAt i = some o → st.find o = .ok i

theorem find_cases (hR : Represents K st A) (hS : 0 < K.spacingInBits)
    (hF : K.fileSizeInBits < 2 ^ 64) {o : Nat} (ho : o < K.fileSizeInBits)
    (hidx : A.confirmed.card + o / K.spacingInBits < 2 ^ 64) :
    st.find o = .error (findError o) ∨
      ∃ i, st.find o = .ok i ∧ st.NoWrap i ∧ st.blockOffsetAt i = some o := by
  by_cases hm : o ∈ A.confirmed
  · obtain ⟨hfind, hlb⟩ := find_of_mem hR hm
    have hlt := (List.getElem?_eq_some_iff.1 hlb).1
    exact .inr ⟨_, hfind, .inl hlt, (blockOffsetAt_of_lt hlt).trans hlb⟩
  by_cases hg : A.last < o ∧ o < K.fileSizeInBits ∧ o % K.spacingInBits = 0
  · have hp : (A.last / K.spacingInBits + 1 + (o / K.spacingInBits -
        (A.last / K.spacingInBits + 1))) * K.spacingInBits = o := by
      rw [Nat.add_sub_cancel' (div_lt_of_guess hg.1 hg.2.2),
        Nat.div_mul_cancel (Nat.dvd_of_mod_eq_zero hg.2.2)]
    have hw : (st.blockOffsets.getLastD 0 / st.spacingInBits + 1 +
        (A.confirmed.card + (o / K.spacingInBits - (A.last / K.spacingInBits + 1)) -
          st.blockOffsets.length)) * st.spacingInBits < 2 ^ 64 := by
      rw [hR.length_eq, hR.getLastD_eq, hR.spacingInBits_eq, Nat.add_sub_cancel_left, hp]; omega
    refine .inr ⟨_, find_of_guess hR hF hm hg.1 ho hg.2.2 hidx, .inr hw, ?_⟩
    rw [blockOffsetAt_of_le (hR.spacingInBits_eq ▸ hS) (by rw [hR.length_eq]; omega) hw]
    simp only [hR.length_eq, hR.getLastD_eq, hR.spacingInBits_eq, hR.fileSizeInBits_eq,
      Nat.add_sub_cancel_left, hp, if_pos ho]
  · exact .inl (find_of_not_guess hR hm hg)

theorem find_of_blockOffsetAt (hR : Represents K st A) (hS : 0 < K.spacingInBits)
    (hF : K.fileSizeInBits < 2 ^ 64) {i o : Nat} (ho : o < K.fileSizeInBits)
    (hidx : A.confirmed.card + o / K.spacingInBits < 2 ^ 64) (hw : st.NoWrap i)
    (h : st.blockOffsetAt i = some o) : st.find o = .ok i := by
  rcases blockOffsetAt_eq_some hR hS hw ho h with ⟨hi, hget⟩ | ⟨hi, rfl⟩
  · obtain ⟨hfind, hlb⟩ := find_of_mem hR (hR.mem_iff.1 (List.getElem?_mem hget))
    rw [hfind, List.getElem?_inj (List.getElem?_eq_some_iff.1 hlb).1 hR.sorted.nodup
      (hlb.trans hget.symm)]
  · have hL : A.last < (A.last / K.spacingInBits + 1 + (i - A.confirmed.card)) *
        K.spacingInBits := by
      rw [Nat.mul_comm]
      exact lt_of_lt_of_le (Nat.lt_mul_div_succ _ hS) (Nat.mul_le_mul_left _ (Nat.le_add_right _ _))
    rw [find_of_guess hR hF (fun hm => absurd (FinderSpec.le_last hm) (not_le.2 hL)) hL ho
      (Nat.mul_mod_left _ _) hidx, Nat.mul_div_cancel _ hS]
    congr 1
    omega

theorem Represents.findInvertsGet (hR : Represents K st A) (hS : 0 < K.spacingInBits)
    (hF : K.fileSizeInBits < 2 ^ 64) : FindInvertsGet st := by
  have hidx : ∀ o, st.blockOffsets.length + o / st.spacingInBits < 2 ^ 64 →
      A.confirmed.card + o / K.spacingInBits < 2 ^ 64 := fun o h => by
    rwa [hR.length_eq, hR.spacingInBits_eq] at h
  refine ⟨fun o ho hi => ⟨fun herr i hw hget => ?_, fun hnone => ?_⟩,
    fun o i ho hi hfind => ?_, fun o i ho hi hw hget => ?_⟩
  all_goals rw [hR.fileSizeInBits_eq] at ho
  · rw [find_of_blockOffsetAt hR hS hF ho (hidx o hi) hw hget] at herr
    cases herr
  · rcases find_cases hR hS hF ho (hidx o hi) with herr | ⟨i, -, hw, hget⟩
    exacts [herr, absurd hget (hnone i hw)]
  · rcases find_cases hR hS hF ho (hidx o hi) with herr | ⟨j, hj, hw, hget⟩
    · rw [herr] at hfind; cases hfind
    · rw [hj] at hfind; cases hfind; exact ⟨hw, hget⟩
  · exact find_of_blockOffsetAt hR hS hF ho (hidx o hi) hw hget

end GzipBlockFinder

open GzipBlockFinder

/-- **After any calls from the constructor, `find` inverts `get` below the file size**, for the
offsets whose grid index fits in `size_t` and the indexes whose grid point does not wrap. -/
theorem find_inverts_get {fileSize spacing hardwareConcurrency headerEnd : Nat}
    {isBgzfFile : Bool} {st₀ : GzipBlockFinder}
    (hcreate : create fileSize spacing isBgzfFile hardwareConcurrency (.ok headerEnd) = .ok st₀)
    (calls : List FinderCall) : FindInvertsGet (st₀.run calls) := by
  obtain ⟨hR₀, hS, hF⟩ := create_represents hcreate
  exact (hR₀.run calls).findInvertsGet (by show 0 < st₀.spacingInBits; omega) hF

/-- A finder of a 10 000-byte file with a spacing of 4 KiB, after two inserts. -/
theorem find_inverts_get_example :
    create 10000 4096 false 4 (.ok 80) = .ok ⟨80000, false, 32768, [80], false, 16⟩ ∧
      FindInvertsGet (run ⟨80000, false, 32768, [80], false, 16⟩ [.insert 40000, .insert 1000]) :=
  ⟨rfl, @find_inverts_get 10000 4096 4 80 false _ rfl _⟩

/-- With a file of `2 ^ 20` bits, a spacing of `2 ^ 15` bits and the header ending at `80`,
`get(2 ^ 49)` returns `0`, since its grid point `2 ^ 64` wraps, while `find(0)` throws. For a BGZF
file, `find(32768)` is `1`, but `get(1)` first gathers the offset `40000` and returns it. -/
theorem find_get_counterexample :
    create (2 ^ 17) 4096 false 4 (.ok 80) = .ok ⟨2 ^ 20, false, 32768, [80], false, 16⟩ ∧
      get ⟨2 ^ 20, false, 32768, [80], false, 16⟩ (2 ^ 49) [] =
        .ok (⟨2 ^ 20, false, 32768, [80], false, 16⟩, some 0) ∧
      find ⟨2 ^ 20, false, 32768, [80], false, 16⟩ 0 = .error (findError 0) ∧
      create (2 ^ 17) 4096 true 4 (.ok 80) = .ok ⟨2 ^ 20, false, 32768, [80], true, 16⟩ ∧
      find ⟨2 ^ 20, false, 32768, [80], true, 16⟩ 32768 = .ok 1 ∧
      get ⟨2 ^ 20, false, 32768, [80], true, 16⟩ 1 [40000] =
        .ok (⟨2 ^ 20, false, 32768, [80, 40000], true, 16⟩, some 40000) :=
  ⟨rfl, rfl, rfl, rfl, rfl, rfl⟩

end Pragzip
