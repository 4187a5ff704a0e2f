import Pragzip.ThreadPool.Spec

/-!
# Thread pool — `m_tasks` refines the priority queue

The pool stands for a `PoolSpec` when the deque of every priority holds the pending tasks of that
priority, oldest first, and the keys of `m_tasks` increase.

* `lookup_emplaceBack`, `popFront_some`, `popFront_none`: the map operations on deques;
* `ThreadPool.Represents`, **`ThreadPool.Represents.step`**, **`ThreadPool.Represents.run`**:
  every event keeps the relation and takes the same task as the queue;
* `DispatchesInPriorityOrder`, **`threadPool_dispatches_in_priority_order`**: after any events,
  a worker takes the oldest task of the smallest priority, `unprocessedTasksCount` counts the
  pending tasks of a priority, and no task is lost or taken twice.
-/

namespace Pragzip

/-! ## Deques in a map sorted by priority -/

section TaskMap

variable {m : TaskMap}

@[simp]
theorem lookup_cons_ite (q k : Int) (d : List Nat) (m : TaskMap) :
    ((k, d) :: m).lookup q = if q = k then some d else m.lookup q := by
  simp only [List.lookup]
  split <;> simp_all

theorem lookup_eq_none_of_lt {q : Int} (h : ∀ k ∈ m.map Prod.fst, q < k) : m.lookup q = none := by
  induction m with
  | nil => rfl
  | cons e m ih =>
    have hq : q ≠ e.1 := ne_of_lt (h _ (List.mem_cons_self _ _))
    rw [lookup_cons_ite, if_neg hq]
    exact ih fun k hk => h k (List.mem_cons_of_mem _ hk)

theorem mem_keys_of_lookup {q : Int} {d : List Nat} (h : m.lookup q = some d) :
    q ∈ m.map Prod.fst := by
  induction m with
  | nil => cases h
  | cons e m ih =>
    by_cases hq : q = e.1
    · exact hq ▸ List.mem_cons_self _ _
    · rw [lookup_cons_ite, if_neg hq] at h
      exact List.mem_cons_of_mem _ (ih h)

theorem mem_keys_emplaceBack {p k : Int} {t : Nat} (hk : k ∈ (emplaceBack p t m).map Prod.fst) :
    k = p ∨ k ∈ m.map Prod.fst := by
  induction m with
  | nil => simpa [emplaceBack] using hk
  | cons e m ih =>
    simp only [emplaceBack] at hk
    split_ifs at hk <;> simp only [List.map_cons, List.mem_cons] at hk ⊢
    · tauto
    · tauto
    · rcases hk with hk | hk
      exacts [.inr (.inl hk), (ih hk).imp_right .inr]

theorem sorted_emplaceBack (hm : (m.map Prod.fst).Sorted (· < ·)) (p : Int) (t : Nat) :
    ((emplaceBack p t m).map Prod.fst).Sorted (· < ·) := by
  induction m with
  | nil => exact List.sorted_singleton _
  | cons e m ih =>
    rw [List.map_cons, List.sorted_cons] at hm
    simp only [emplaceBack]
    split_ifs with h₁ h₂
    · exact List.sorted_cons.2 ⟨fun k hk => by
        rcases List.mem_cons.1 hk with rfl | hk
        exacts [h₁, lt_trans h₁ (hm.1 k hk)], List.sorted_cons.2 hm⟩
    · exact List.sorted_cons.2 hm
    · refine List.sorted_cons.2 ⟨fun k hk => ?_, ih hm.2⟩
      rcases mem_keys_emplaceBack hk with rfl | hk
      exacts [lt_of_le_of_ne (not_lt.1 h₁) (Ne.symm h₂), hm.1 k hk]

/-- **Appending to the deque of `p` changes that deque only.** -/
theorem lookup_emplaceBack (hm : (m.map Prod.fst).Sorted (· < ·)) (p : Int) (t : Nat) (q : Int) :
    ((emplaceBack p t m).lookup q).getD [] =
      (m.lookup q).getD [] ++ if q = p then [t] else [] := by
  induction m with
  | nil => by_cases hq : q = p <;> simp [emplaceBack, hq]
  | cons e m ih =>
    obtain ⟨k, d⟩ := e
    rw [List.map_cons, List.sorted_cons] at hm
    rcases lt_trichotomy p k with h₁ | rfl | h₁
    · have hnone : m.lookup p = none :=
        lookup_eq_none_of_lt fun k' hk' => lt_trans h₁ (hm.1 k' hk')
      simp only [emplaceBack, if_pos h₁]
      by_cases hq : q = p
      · subst hq; simp [ne_of_lt h₁, hnone]
      · simp [hq]
    · simp only [emplaceBack, lt_irrefl, if_false, if_true]
      by_cases hq : q = p <;> simp [hq]
    · simp only [emplaceBack, if_neg (not_lt.2 h₁.le), if_neg (ne_of_gt h₁)]
      by_cases hq : q = k
      · subst hq; simp [ne_of_lt h₁]
      · simp [hq, ih hm.2]

/-- **The front of the first non-empty deque is the front of the deque of some priority `p`; the
deques of smaller priorities are empty; popping it shortens that deque only.** -/
theorem popFront_some (hm : (m.map Prod.fst).Sorted (· < ·)) {t : Nat} {m' : TaskMap}
    (h : popFront m = some (t, m')) :
    ∃ p d, m.lookup p = some (t :: d) ∧ (∀ q < p, (m.lookup q).getD [] = []) ∧
      m'.map Prod.fst = m.map Prod.fst ∧
      ∀ q, (m'.lookup q).getD [] = if q = p then d else (m.lookup q).getD [] := by
  induction m generalizing m' with
  | nil => cases h
  | cons e m ih =>
    obtain ⟨k, d₀⟩ := e
    rw [List.map_cons, List.sorted_cons] at hm
    cases d₀ with
    | nil =>
      simp only [popFront, Option.map_eq_some'] at h
      obtain ⟨⟨t', m''⟩, hpop, heq⟩ := h
      simp only [Prod.mk.injEq] at heq
      obtain ⟨rfl, rfl⟩ := heq
      obtain ⟨p, d, hp, hlt, hkeys, hm'⟩ := ih hm.2 hpop
      have hkp : k < p := hm.1 p (mem_keys_of_lookup hp)
      refine ⟨p, d, by simp [ne_of_gt hkp, hp], fun q hq => ?_, by simp [hkeys], fun q => ?_⟩
      · by_cases hqk : q = k <;> simp [hqk, hlt q hq]
      · by_cases hqk : q = k
        · subst hqk; simp [ne_of_lt hkp]
        · simp [hqk, hm' q]
    | cons t' d =>
      simp only [popFront, Option.some.injEq, Prod.mk.injEq] at h
      obtain ⟨rfl, rfl⟩ := h
      refine ⟨k, d, by simp, fun q hq => ?_, rfl, fun q => ?_⟩
      · simp [ne_of_lt hq, lookup_eq_none_of_lt fun k' hk' => lt_trans hq (hm.1 k' hk')]
      · by_cases hqk : q = k <;> simp [hqk]

theorem popFront_none (h : popFront m = none) (q : Int) : (m.lookup q).getD [] = [] := by
  induction m with
  | nil => rfl
  | cons e m ih =>
    obtain ⟨k, d⟩ := e
    cases d with
    | nil =>
      simp only [popFront, Option.map_eq_none'] at h
      by_cases hq : q = k <;> simp [hq, ih h]
    | cons t d => cases h

end TaskMap

namespace ThreadPool

/-! ## The relation -/

/-- The pool stands for the queue `A`: the deque of every priority holds the pending tasks of that
priority, oldest first; the keys increase; the counts and the running flags agree. -/
structure Represents (pool : ThreadPool) (A : PoolSpec) : Prop where
  running_eq : pool.threadPoolRunning = A.running
  taskCount_eq : pool.taskCount = A.submitted
  keys_sorted : (pool.tasks.map Prod.fst).Sorted (· < ·)
  deque_eq : ∀ q, (pool.tasks.lookup q).getD [] = (A.pending.filter (·.2 = q)).map Prod.fst

theorem represents_init : Represents init PoolSpec.init := ⟨rfl, rfl, List.sorted_nil, fun _ => rfl⟩

variable {pool : ThreadPool} {A : PoolSpec}

theorem Represents.submit (hR : Represents pool A) (priority : Int) :
    Represents (pool.submit priority).1 (A.submit priority) := by
  refine ⟨hR.running_eq, by simp [ThreadPool.submit, PoolSpec.submit, hR.taskCount_eq],
    sorted_emplaceBack hR.keys_sorted _ _, fun q => ?_⟩
  simp only [ThreadPool.submit, PoolSpec.submit]
  rw [lookup_emplaceBack hR.keys_sorted, hR.deque_eq, List.filter_append, List.map_append,
    hR.taskCount_eq]
  by_cases hq : q = priority <;> simp [hq, eq_comm]

theorem Represents.next?_of_popFront_none (hR : Represents pool A) (h : popFront pool.tasks = none) :
    A.next? = none := by
  have hnil : A.pending = [] := List.eq_nil_iff_forall_not_mem.2 fun y hy => by
    have hq := (hR.deque_eq y.2).symm.trans (popFront_none h y.2)
    rw [List.map_eq_nil_iff, List.filter_eq_nil_iff] at hq
    exact hq y hy (by simp)
  simp [PoolSpec.next?, hnil]

/-- **The front the map pops is the task the queue gives next, and the map without it stands for
the queue without it.** -/
theorem Represents.next?_of_popFront (hR : Represents pool A) {t : Nat} {m' : TaskMap}
    (h : popFront pool.tasks = some (t, m')) :
    ∃ p, A.next? = some (t, p) ∧
      ∀ q, (m'.lookup q).getD [] = ((A.pending.erase (t, p)).filter (·.2 = q)).map Prod.fst := by
  obtain ⟨p, d, hp, hlt, -, hm'⟩ := popFront_some hR.keys_sorted h
  have hdeque := (hR.deque_eq p).symm
  rw [hp, Option.getD_some] at hdeque
  obtain ⟨x, rest, hfilter, rfl, hrest⟩ : ∃ x rest, A.pending.filter (·.2 = p) = x :: rest ∧
      x.1 = t ∧ rest.map Prod.fst = d := by
    cases hf : A.pending.filter (·.2 = p) with
    | nil => rw [hf] at hdeque; cases hdeque
    | cons x rest =>
      rw [hf, List.map_cons, List.cons.injEq] at hdeque
      exact ⟨x, rest, rfl, hdeque⟩
  have hx : x ∈ A.pending ∧ x.2 = p := by
    have := List.mem_filter.1 (hfilter ▸ List.mem_cons_self x rest)
    exact ⟨this.1, of_decide_eq_true this.2⟩
  have hge : ∀ y ∈ A.pending, p ≤ y.2 := fun y hy => not_lt.1 fun hlty => by
    have hq := (hR.deque_eq y.2).symm.trans (hlt y.2 hlty)
    rw [List.map_eq_nil_iff, List.filter_eq_nil_iff] at hq
    exact hq y hy (by simp)
  have hmin : A.pending.filter (fun y => A.pending.all fun y' => y.2 ≤ y'.2) =
      A.pending.filter (·.2 = p) := List.filter_congr fun y hy => by
    rw [Bool.eq_iff_iff, List.all_eq_true, decide_eq_true_iff]
    simp only [decide_eq_true_eq]
    exact ⟨fun hall => le_antisymm ((hall x hx.1).trans_eq hx.2) (hge y hy),
      fun hy' y' hy'' => by rw [hy']; exact hge y' hy''⟩
  have hnext : A.next? = some x := by
    rw [PoolSpec.next?, ← List.filter_head?, hmin, hfilter]; rfl
  have hxe : (x.1, p) = x := Prod.ext rfl hx.2.symm
  refine ⟨p, hxe ▸ hnext, fun q => ?_⟩
  rw [hm' q, hxe, ← List.erase_filter]
  by_cases hq : q = p
  · subst hq; rw [if_pos rfl, hfilter, List.erase_cons_head, hrest]
  · rw [if_neg hq, hR.deque_eq, List.erase_of_not_mem]
    exact fun hmem => hq ((of_decide_eq_true (List.mem_filter.1 hmem).2).symm.trans hx.2)

/-! ## Events and runs -/

/-- **Every event keeps the relation, and a worker's turn takes from the pool the task the queue
gives.** -/
theorem Represents.step (hR : Represents pool A) (event : PoolEvent) :
    (pool.step event).2 = (A.step event).2 ∧ Represents (pool.step event).1 (A.step event).1 := by
  cases event with
  | submit priority => exact ⟨rfl, hR.submit priority⟩
  | dequeue =>
    simp only [ThreadPool.step, ThreadPool.dequeue, PoolSpec.step, PoolSpec.dequeue, hR.running_eq]
    split_ifs
    · cases hpop : popFront pool.tasks with
      | none => simp [hR.next?_of_popFront_none hpop, hR]
      | some r =>
        obtain ⟨t, m'⟩ := r
        obtain ⟨p, hnext, hdeque⟩ := hR.next?_of_popFront hpop
        obtain ⟨-, -, -, -, hkeys, -⟩ := popFront_some hR.keys_sorted hpop
        simp only [Option.map_some', hnext]
        exact ⟨trivial, rfl, hR.taskCount_eq, hkeys ▸ hR.keys_sorted, hdeque⟩
    · exact ⟨rfl, hR⟩
  | stop => exact ⟨rfl, ⟨rfl, hR.taskCount_eq, hR.keys_sorted, hR.deque_eq⟩⟩

/-- **A run takes the same tasks from the pool as from the queue, and keeps the relation.** -/
theorem Represents.run (hR : Represents pool A) (events : List PoolEvent) :
    (pool.run events).2 = (A.run events).2 ∧ Represents (pool.run events).1 (A.run events).1 := by
  induction events generalizing pool A with
  | nil => exact ⟨rfl, hR⟩
  | cons event events ih =>
    obtain ⟨hout, hR'⟩ := hR.step event
    obtain ⟨hout', hR''⟩ := ih hR'
    simp only [ThreadPool.run, PoolSpec.run]
    exact ⟨by rw [hout, hout'], hR''⟩

theorem unprocessedTasksCount_some (priority : Int) :
    pool.unprocessedTasksCount (some priority) = ((pool.tasks.lookup priority).getD []).length := by
  simp only [unprocessedTasksCount]
  cases h : pool.tasks.lookup priority <;> simp [h]

theorem Represents.dequeue_eq_some (hR : Represents pool A) {t : Nat} {pool' : ThreadPool}
    (h : pool.dequeue = some (t, pool')) :
    ∃ p, A.next? = some (t, p) ∧
      ∀ q, (pool'.tasks.lookup q).getD [] = ((A.pending.erase (t, p)).filter (·.2 = q)).map Prod.fst := by
  simp only [ThreadPool.dequeue] at h
  split_ifs at h
  obtain ⟨⟨t', m'⟩, hpop, heq⟩ := Option.map_eq_some'.1 h
  simp only [Prod.mk.injEq] at heq
  obtain ⟨rfl, rfl⟩ := heq
  exact hR.next?_of_popFront hpop

end ThreadPool

open ThreadPool

/-- What the pool does after a run, with `A` the priority queue after the same events and `taken`
the tasks the workers took, in order: `m_tasks` holds the pending tasks by priority, oldest first;
a worker takes the oldest pending task of the numerically smallest priority and removes it alone;
`unprocessedTasksCount` counts the pending tasks of a priority; no task is taken twice, and every
submitted task has been taken or is pending. -/
structure DispatchesInPriorityOrder (pool : ThreadPool) (A : PoolSpec) (taken : List Nat) :
    Prop where
  deque_eq : ∀ q, (pool.tasks.lookup q).getD [] = (A.pending.filter (·.2 = q)).map Prod.fst
  dequeue_oldest : ∀ t pool', pool.dequeue = some (t, pool') → ∃ p, (t, p) ∈ A.pending ∧
    (∀ t' ∈ A.pending, p < t'.2 ∨ p = t'.2 ∧ t ≤ t'.1) ∧
    ∀ q, (pool'.tasks.lookup q).getD [] = ((A.pending.erase (t, p)).filter (·.2 = q)).map Prod.fst
  count_eq : ∀ q, pool.unprocessedTasksCount (some q) = (A.pending.filter (·.2 = q)).length
  taken_nodup : taken.Nodup
  taken_perm : List.Perm (taken ++ A.pending.map Prod.fst) (List.range A.submitted)

/-- **Whatever the interleaving of submits and worker turns, the pool dispatches in priority order
without losing or duplicating a task.** -/
theorem threadPool_dispatches_in_priority_order (events : List PoolEvent) :
    DispatchesInPriorityOrder (ThreadPool.init.run events).1 (PoolSpec.init.run events).1
      (ThreadPool.init.run events).2 := by
  obtain ⟨htaken, hR⟩ := represents_init.run events
  have hinit : PoolSpec.init.WF := ⟨List.sorted_nil, fun _ h => by cases h⟩
  have hWF := hinit.run events
  have hperm : List.Perm ((ThreadPool.init.run events).2 ++ (PoolSpec.init.run events).1.pending.map Prod.fst)
      (List.range (PoolSpec.init.run events).1.submitted) := by
    simpa [htaken, PoolSpec.init, List.range_eq_range'] using PoolSpec.init.run_perm events
  refine ⟨hR.deque_eq, fun t pool' h => ?_, fun q => ?_,
    (hperm.nodup_iff.2 (List.nodup_range _)).sublist (List.sublist_append_left _ _), hperm⟩
  · obtain ⟨p, hnext, hdeque⟩ := hR.dequeue_eq_some h
    exact ⟨p, PoolSpec.next?_mem _ hnext, PoolSpec.next?_min hWF hnext, hdeque⟩
  · rw [unprocessedTasksCount_some, hR.deque_eq, List.length_map]

end Pragzip
