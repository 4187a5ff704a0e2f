import Mathlib

/-!
# Block fetcher — the LRU cache

`BlockFetcher` keeps decoded blocks in two `Cache`s keyed by block offset. The cache is not among
the sources; it is modelled from the spec: a least-recently-used cache of fixed capacity with
`get`, `insert`, `test`, `touch`, `evict`, `clear` and `nextNthEviction`. Its statistics are left
out.

* `lookup_eq_none_iff_not_mem`, `mem_of_lookup_eq_some`, `mem_filter_ne`: association lists keyed
  by offset, as the caches and `m_prefetching` hold them;
* `Cache`, `Cache.keys`: the entries, most recently used first;
* `Cache.test`, `Cache.touch`, `Cache.get`, `Cache.insert`, `Cache.evict`, `Cache.clear`,
  `Cache.nextNthEviction`;
* `Cache.mem_keys_touch`, `Cache.mem_keys_insert`, `Cache.mem_keys_evict`: the keys each
  operation leaves; a lookup, a touch and a `get` keep them, an insertion adds at most its key;
* `Cache.mem_entries_touch`, `Cache.mem_entries_insert`, `Cache.mem_entries_evict`: the entries
  each operation leaves; only an insertion adds one, its own.
-/

namespace Pragzip

/-! ## Association lists keyed by offset -/

section Lookup

variable {β : Type} {l : List (Nat × β)} {key : Nat}

theorem lookup_eq_none_iff_not_mem : l.lookup key = none ↔ key ∉ l.map Prod.fst := by
  rw [List.lookup_eq_none_iff]
  simp only [List.mem_map, bne_iff_ne, ne_eq, not_exists, not_and]
  exact ⟨fun h x hx hk => h x hx hk.symm, fun h p hp hk => h p hp hk.symm⟩

theorem mem_of_lookup_eq_some {value : β} (h : l.lookup key = some value) : (key, value) ∈ l := by
  obtain ⟨l₁, l₂, rfl, -⟩ := List.lookup_eq_some_iff.1 h
  simp

theorem mem_filter_ne {x : Nat × β} : x ∈ l.filter (·.1 != key) ↔ x ∈ l ∧ x.1 ≠ key := by
  simp [List.mem_filter]

theorem mem_map_fst_filter_ne {k : Nat} :
    k ∈ (l.filter (·.1 != key)).map Prod.fst ↔ k ∈ l.map Prod.fst ∧ k ≠ key := by
  simp only [List.mem_map, mem_filter_ne]
  constructor
  · rintro ⟨x, ⟨hx, hne⟩, rfl⟩
    exact ⟨⟨x, hx, rfl⟩, hne⟩
  · rintro ⟨⟨x, hx, rfl⟩, hne⟩
    exact ⟨x, ⟨hx, hne⟩, rfl⟩

end Lookup

/-! ## The cache -/

/-- Modelled from the spec: a `Cache<Key, Value>` of capacity `capacity`, its entries in the order
of their last use, the most recent first. -/
structure Cache (Value : Type) where
  capacity : Nat
  entries : List (Nat × Value)
  deriving DecidableEq, Repr

namespace Cache

variable {Value : Type} (cache : Cache Value)

/-- The keys held, most recently used first. -/
def keys : List Nat := cache.entries.map Prod.fst

/-- Modelled from the spec: `test(key)`, whether the cache holds `key`. -/
def test (key : Nat) : Bool := cache.keys.contains key

/-- Modelled from the spec: `touch(key)` makes `key` the most recently used. -/
def touch (key : Nat) : Cache Value :=
  match cache.entries.lookup key with
  | some value => { cache with entries := (key, value) :: cache.entries.filter (·.1 != key) }
  | none => cache

/-- Modelled from the spec: `get(key)`, the value of `key`; a hit touches it. -/
def get (key : Nat) : Option Value × Cache Value := (cache.entries.lookup key, cache.touch key)

/-- Modelled from the spec: `insert(key, value)`; a new key in a full cache evicts the least
recently used one. -/
def insert (key : Nat) (value : Value) : Cache Value :=
  let others := cache.entries.filter (·.1 != key)
  { cache with
    entries := (key, value) :: if others.length < cache.capacity then others else others.dropLast }

/-- Modelled from the spec: `evict(key)`. -/
def evict (key : Nat) : Cache Value := { cache with entries := cache.entries.filter (·.1 != key) }

/-- Modelled from the spec: `clear()`. -/
def clear : Cache Value := { cache with entries := [] }

/-- Modelled from the spec: `nextNthEviction(countNewInsertions)`, the key that the last of
`countNewInsertions` insertions of new keys would evict. -/
def nextNthEviction (countNewInsertions : Nat) : Option Nat :=
  if countNewInsertions = 0 ∨ cache.entries.length + countNewInsertions ≤ cache.capacity then none
  else cache.keys.reverse[countNewInsertions - (cache.capacity - cache.entries.length) - 1]?

/-! ## The keys -/

variable {cache}

theorem test_eq (key : Nat) : cache.test key = decide (key ∈ cache.keys) := by
  simp [test]

theorem lookup_eq_none_iff {key : Nat} : cache.entries.lookup key = none ↔ key ∉ cache.keys :=
  lookup_eq_none_iff_not_mem

theorem mem_keys_of_lookup {key : Nat} {value : Value} (h : cache.entries.lookup key = some value) :
    key ∈ cache.keys :=
  List.mem_map_of_mem _ (mem_of_lookup_eq_some h)

@[simp] theorem mem_keys_touch {key k : Nat} : k ∈ (cache.touch key).keys ↔ k ∈ cache.keys := by
  unfold touch
  split
  · rename_i value h
    have hkey := mem_keys_of_lookup h
    show k ∈ ((key, value) :: cache.entries.filter (·.1 != key)).map Prod.fst ↔ k ∈ cache.keys
    rw [List.map_cons, List.mem_cons, mem_map_fst_filter_ne]
    by_cases hk : k = key
    · simp only [hk, hkey, true_or]
    · simp only [hk, false_or, ne_eq, not_false_eq_true, and_true]
      rfl
  · rfl

theorem head?_keys_touch {key : Nat} (h : key ∈ cache.keys) :
    (cache.touch key).keys.head? = some key := by
  obtain ⟨value, hv⟩ : ∃ value, cache.entries.lookup key = some value :=
    Option.ne_none_iff_exists'.1 fun hn => lookup_eq_none_iff.1 hn h
  simp [touch, hv, keys]

@[simp] theorem get_fst (key : Nat) : (cache.get key).1 = cache.entries.lookup key := rfl

@[simp] theorem get_snd (key : Nat) : (cache.get key).2 = cache.touch key := rfl

theorem touch_of_lookup_eq_none {key : Nat} (h : cache.entries.lookup key = none) :
    cache.touch key = cache := by
  simp [touch, h]

theorem mem_keys_insert {key k : Nat} {value : Value} (h : k ∈ (cache.insert key value).keys) :
    k = key ∨ k ∈ cache.keys := by
  simp only [insert, keys, List.map_cons, List.mem_cons] at h
  refine h.imp_right fun h => (@mem_map_fst_filter_ne _ cache.entries key k |>.1 ?_).1
  split at h
  · exact h
  · exact List.map_subset _ (List.dropLast_subset _) h

@[simp] theorem mem_keys_evict {key k : Nat} : k ∈ (cache.evict key).keys ↔ k ∈ cache.keys ∧ k ≠ key :=
  mem_map_fst_filter_ne

@[simp] theorem keys_clear : cache.clear.keys = [] := rfl

/-! ## The entries -/

theorem mem_entries_touch {key : Nat} {e : Nat × Value} (h : e ∈ (cache.touch key).entries) :
    e ∈ cache.entries := by
  unfold touch at h
  split at h
  · rename_i value hv
    rcases List.mem_cons.1 h with rfl | h
    · exact mem_of_lookup_eq_some hv
    · exact List.mem_of_mem_filter h
  · exact h

theorem mem_entries_insert {key : Nat} {value : Value} {e : Nat × Value}
    (h : e ∈ (cache.insert key value).entries) : e = (key, value) ∨ e ∈ cache.entries := by
  simp only [insert, List.mem_cons] at h
  refine h.imp_right fun h => List.mem_of_mem_filter (p := (·.1 != key)) ?_
  split at h
  · exact h
  · exact List.dropLast_subset _ h

theorem mem_entries_evict {key : Nat} {e : Nat × Value} (h : e ∈ (cache.evict key).entries) :
    e ∈ cache.entries :=
  List.mem_of_mem_filter h

end Cache

end Pragzip
