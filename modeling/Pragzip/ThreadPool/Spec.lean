import Pragzip.ThreadPool.Model

/-!
# Thread pool — the priority queue it implements

What the pool is for: a queue of pending tasks, each with its priority, from which a worker takes
the oldest of the tasks with the numerically smallest priority.

* `PoolSpec`, `PoolSpec.submit`, `PoolSpec.next?`, `PoolSpec.dequeue`, `PoolSpec.step`,
  `PoolSpec.run`;
* `PoolSpec.WF`: pending tasks are named in increasing order, below the submitted count;
* **`PoolSpec.next?_min`**: the next task has the smallest priority of the pending ones, and is
  the oldest of that priority;
* **`PoolSpec.run_perm`**: the tasks taken during a run and the pending ones after it are the
  pending ones before it and the tasks submitted during it, each once.
-/

namespace Pragzip

/-- The pool as a priority queue: the pending tasks with their priorities, oldest first; the number
of tasks submitted; whether it runs. -/
structure PoolSpec where
  pending : List (Nat × Int)
  submitted : Nat
  running : Bool

namespace PoolSpec

/-- No task yet. -/
def init : PoolSpec := ⟨[], 0, true⟩

variable (A : PoolSpec)

/-- A new task of the given priority, named by the submitted count. -/
def submit (priority : Int) : PoolSpec :=
  { A with pending := A.pending ++ [(A.submitted, priority)], submitted := A.submitted + 1 }

/-- The oldest pending task of which no pending task has a smaller priority. -/
def next? : Option (Nat × Int) :=
  A.pending.find? fun t => A.pending.all fun t' => t.2 ≤ t'.2

/-- A worker takes the next task, while the pool runs. -/
def dequeue : Option (Nat × PoolSpec) :=
  if A.running then A.next?.map fun t => (t.1, { A with pending := A.pending.erase t }) else none

/-- An event on the queue, and the task a worker took in it. -/
def step : PoolEvent → PoolSpec × Option Nat
  | .submit priority => (A.submit priority, none)
  | .dequeue => match A.dequeue with
    | some (task, B) => (B, some task)
    | none => (A, none)
  | .stop => ({ A with running := false }, none)

/-- A sequence of events, and the tasks taken, in order. -/
def run (A : PoolSpec) : List PoolEvent → PoolSpec × List Nat
  | [] => (A, [])
  | event :: events =>
    let (B, taken) := A.step event
    let (C, rest) := run B events
    (C, taken.toList ++ rest)

/-! ## The next task -/

theorem find?_fst_le {l : List (Nat × Int)} (hs : (l.map Prod.fst).Sorted (· < ·))
    {p : Nat × Int → Bool} {a b : Nat × Int} (ha : l.find? p = some a) (hb : b ∈ l) (hpb : p b) :
    a.1 ≤ b.1 := by
  induction l with
  | nil => simp at hb
  | cons c l ih =>
    rw [List.map_cons, List.sorted_cons] at hs
    by_cases hc : p c
    · rw [List.find?_cons_of_pos _ hc, Option.some.injEq] at ha
      subst ha
      rcases List.mem_cons.1 hb with rfl | hb
      exacts [le_rfl, le_of_lt (hs.1 _ (List.mem_map_of_mem _ hb))]
    · rw [List.find?_cons_of_neg _ hc] at ha
      rcases List.mem_cons.1 hb with rfl | hb
      exacts [absurd hpb hc, ih hs.2 ha hb]

/-- The pending tasks are named in increasing order, by names below the submitted count. -/
structure WF : Prop where
  sorted : (A.pending.map Prod.fst).Sorted (· < ·)
  lt_submitted : ∀ t ∈ A.pending, t.1 < A.submitted

theorem next?_mem {t : Nat × Int} (h : A.next? = some t) : t ∈ A.pending :=
  List.mem_of_find?_eq_some h

/-- **The next task has the smallest priority of the pending tasks, and of those of that
priority it is the oldest.** -/
theorem next?_min {A : PoolSpec} (hA : A.WF) {t : Nat × Int} (h : A.next? = some t) :
    ∀ t' ∈ A.pending, t.2 < t'.2 ∨ t.2 = t'.2 ∧ t.1 ≤ t'.1 := by
  intro t' ht'
  have hall : ∀ t'' ∈ A.pending, t.2 ≤ t''.2 := by simpa using List.find?_some h
  rcases lt_or_eq_of_le (hall t' ht') with hlt | heq
  · exact .inl hlt
  · refine .inr ⟨heq, find?_fst_le hA.sorted h ht' ?_⟩
    simpa [← heq] using hall

/-! ## Runs -/

theorem WF.submit {A : PoolSpec} (hA : A.WF) (priority : Int) : (A.submit priority).WF := by
  refine ⟨?_, fun t ht => ?_⟩
  · simp only [PoolSpec.submit, List.map_append, List.map_cons, List.map_nil]
    exact List.pairwise_append.2 ⟨hA.sorted, List.pairwise_singleton _ _,
      fun a ha b hb => by
        obtain ⟨t, ht, rfl⟩ := List.mem_map.1 ha
        rw [List.mem_singleton.1 hb]
        exact hA.lt_submitted t ht⟩
  · rcases List.mem_append.1 ht with ht | ht
    · exact Nat.lt_succ_of_lt (hA.lt_submitted t ht)
    · rw [List.mem_singleton.1 ht]; exact Nat.lt_succ_self _

theorem WF.erase {A : PoolSpec} (hA : A.WF) (t : Nat × Int) :
    ({ A with pending := A.pending.erase t } : PoolSpec).WF :=
  ⟨hA.sorted.sublist ((List.erase_sublist _ _).map _),
    fun t' ht' => hA.lt_submitted t' ((List.erase_subset _ _) ht')⟩

theorem WF.step {A : PoolSpec} (hA : A.WF) (event : PoolEvent) : (A.step event).1.WF := by
  cases event with
  | submit priority => exact hA.submit priority
  | dequeue =>
    simp only [PoolSpec.step, PoolSpec.dequeue]
    split_ifs <;> cases A.next? <;> first | exact hA | exact hA.erase _
  | stop => exact ⟨hA.sorted, hA.lt_submitted⟩

theorem WF.run {A : PoolSpec} (hA : A.WF) (events : List PoolEvent) : (A.run events).1.WF := by
  induction events generalizing A with
  | nil => exact hA
  | cons event events ih => exact ih (hA.step event)

theorem perm_cons_erase_of_mem {l : List (Nat × Int)} {a : Nat × Int} (h : a ∈ l) :
    List.Perm l (a :: l.erase a) := by
  induction l with
  | nil => simp at h
  | cons b l ih =>
    by_cases hb : b = a
    · subst hb; rw [List.erase_cons_head]
    · rw [List.erase_cons_tail (by simpa using hb)]
      exact ((ih ((List.mem_cons.1 h).resolve_left (Ne.symm hb))).cons b).trans (List.Perm.swap _ _ _)

theorem step_perm (event : PoolEvent) :
    List.Perm ((A.step event).2.toList ++ (A.step event).1.pending.map Prod.fst)
      (A.pending.map Prod.fst ++
        List.range' A.submitted ((A.step event).1.submitted - A.submitted)) := by
  cases event with
  | submit priority => simp [PoolSpec.step, PoolSpec.submit]
  | dequeue =>
    simp only [PoolSpec.step, PoolSpec.dequeue]
    split_ifs
    · cases ht : A.next? with
      | none => simp
      | some t =>
        simp only [Option.map_some', Option.toList_some, Nat.sub_self, List.range'_zero,
          List.append_nil, List.singleton_append]
        exact ((perm_cons_erase_of_mem (A.next?_mem ht)).map Prod.fst).symm
    · simp
  | stop => simp [PoolSpec.step]

theorem submitted_le_step (event : PoolEvent) : A.submitted ≤ (A.step event).1.submitted := by
  cases event with
  | submit priority => exact Nat.le_succ _
  | dequeue =>
    simp only [PoolSpec.step, PoolSpec.dequeue]
    split_ifs <;> cases A.next? <;> exact le_rfl
  | stop => exact le_rfl

theorem submitted_le_run (events : List PoolEvent) : A.submitted ≤ (A.run events).1.submitted := by
  induction events generalizing A with
  | nil => exact le_rfl
  | cons event events ih => exact le_trans (A.submitted_le_step event) (ih _)

/-- **Over a run, the tasks taken and the pending ones after it are the pending ones before it
and those submitted during it, each exactly once.** -/
theorem run_perm (events : List PoolEvent) :
    List.Perm ((A.run events).2 ++ (A.run events).1.pending.map Prod.fst)
      (A.pending.map Prod.fst ++
        List.range' A.submitted ((A.run events).1.submitted - A.submitted)) := by
  induction events generalizing A with
  | nil => simp [PoolSpec.run]
  | cons event events ih =>
    have h₁ := A.submitted_le_step event
    have h₂ := (A.step event).1.submitted_le_run events
    have hrange : List.range' A.submitted ((A.step event).1.submitted - A.submitted) ++
        List.range' (A.step event).1.submitted
          (((A.step event).1.run events).1.submitted - (A.step event).1.submitted) =
        List.range' A.submitted (((A.step event).1.run events).1.submitted - A.submitted) := by
      have e := List.range'_append_1 A.submitted ((A.step event).1.submitted - A.submitted)
        (((A.step event).1.run events).1.submitted - (A.step event).1.submitted)
      rwa [Nat.add_sub_cancel' h₁, Nat.sub_add_sub_cancel h₂ h₁] at e
    simp only [PoolSpec.run, List.append_assoc]
    calc List.Perm _ ((A.step event).2.toList ++ ((A.step event).1.pending.map Prod.fst ++
            List.range' (A.step event).1.submitted
              (((A.step event).1.run events).1.submitted - (A.step event).1.submitted))) :=
          (ih _).append_left _
      List.Perm _ ((A.pending.map Prod.fst ++
            List.range' A.submitted ((A.step event).1.submitted - A.submitted)) ++
            List.range' (A.step event).1.submitted
              (((A.step event).1.run events).1.submitted - (A.step event).1.submitted)) := by
          rw [← List.append_assoc]; exact (A.step_perm event).append_right _
      _ = _ := by rw [List.append_assoc, hrange]

end PoolSpec

end Pragzip
