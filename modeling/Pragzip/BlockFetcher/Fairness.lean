import Pragzip.BlockFetcher.Exclusive
import Pragzip.BlockFetcher.Progress

/-!
# Block fetcher — every call of `get` returns

Whatever the block finder and the fetching strategy answer, a call of `get` returns while the pool
has workers, where the threads are scheduled fairly: every task a worker runs finishes, a worker
takes a task where one could be taken at every step from some time on, the owner thread takes a
step while it is in a call, and tasks of high priority, which the workers take before every
decode, are submitted only finitely often.

The decode of the call first reaches the front of the queue: every task a worker takes ahead of
it moves it one place ahead, and the decodes submitted meanwhile queue behind it. A worker takes
it and finishes it. Then every owner step lowers the stage of the call until it returns.

* `Execution`: an infinite run, its states and its events; `FinishesTasks`, `WorkersFair`,
  `OwnerFair`, `FinitelyManyHighPriority`: the fair ones;
* `step_in_call`, `indexOf_queued_step`, `running_length_step`: what one step of a call moves;
* `Execution.future_finishes`: the decode of a call in progress finishes;
* `Execution.call_ends_of_finished`: once it has, the owner's steps end the call;
* **`blockFetcher_get_returns`**: along a fair execution, a call of `get` in progress while the
  pool has workers returns, with one result under its offset, never the `std::logic_error`.
-/

namespace Pragzip

theorem eventually_eq_of_succ_le {f : Nat → Nat} {D : Nat} (hf : ∀ m, D ≤ m → f (m + 1) ≤ f m) :
    ∃ E, D ≤ E ∧ ∀ m, E ≤ m → f m = f E := by
  suffices h : ∀ v D, f D = v → (∀ m, D ≤ m → f (m + 1) ≤ f m) →
      ∃ E, D ≤ E ∧ ∀ m, E ≤ m → f m = f E from h _ D rfl hf
  intro v
  induction v using Nat.strong_induction_on with
  | _ v ih =>
    intro D hv hf
    have hle : ∀ m, D ≤ m → f m ≤ f D := fun m hm => by
      induction m, hm using Nat.le_induction with
      | base => exact le_rfl
      | succ k hk ihk => exact (hf k hk).trans ihk
    by_cases hc : ∀ m, D ≤ m → f m = f D
    · exact ⟨D, le_rfl, hc⟩
    · push_neg at hc
      obtain ⟨m, hm, hne⟩ := hc
      obtain ⟨E, hE, hconst⟩ :=
        ih (f m) (hv ▸ lt_of_le_of_ne (hle m hm) hne) m rfl fun k hk => hf k (hm.trans hk)
      exact ⟨E, hm.trans hE, hconst⟩

namespace BlockFetcher

variable {s s' : BlockFetcher}

/-! ## One step of a call -/

theorem step_in_call (hinv : Inv s) {request : Request} {stage : Stage}
    (ho : s.owner = .get request stage) {event : Event} (hs : s.step event = some s') :
    s'.threadCount = s.threadCount ∧
      ((∃ stage', s'.owner = .get request stage' ∧ s'.results = s.results) ∨
        ∃ result, s'.owner = .idle ∧ s'.results = s.results ++ [(request.blockOffset, result)]) := by
  cases hb : event.byOwner
  · rcases worker_step hb hs with ⟨_, _, -, -, -, rfl⟩ | ⟨_, _, -, -, rfl⟩ | ⟨-, rfl⟩ <;>
      exact ⟨rfl, .inl ⟨stage, ho, rfl⟩⟩
  · obtain ⟨hkeep, ⟨stage', ho', hres, -⟩ | ⟨result, ho', hres, -⟩⟩ := owner_step hinv ho hb hs
    · exact ⟨hkeep.threadCount, .inl ⟨stage', ho', hres⟩⟩
    · exact ⟨hkeep.threadCount, .inr ⟨result, ho', hres⟩⟩

theorem indexOf_queued_step (hinv : Inv s) (hlive : Live s) {request : Request} {stage : Stage}
    (ho : s.owner = .get request stage) {event : Event}
    (hhigh : event ≠ .submitTaskWithHighPriority) {t : Nat} (hq : t ∈ queued s.threadPool.tasks)
    (hr : t ∉ s'.running) (hs : s.step event = some s') :
    (queued s'.threadPool.tasks).indexOf t ≤ (queued s.threadPool.tasks).indexOf t ∧
      (event = .dequeue →
        (queued s'.threadPool.tasks).indexOf t < (queued s.threadPool.tasks).indexOf t) := by
  cases hb : event.byOwner
  · rcases worker_step hb hs with ⟨task, _, rfl, -, hd, rfl⟩ | ⟨_, _, rfl, -, rfl⟩ | ⟨rfl, -⟩
    · obtain ⟨-, tasks, hp, rfl⟩ := ThreadPool.dequeue_eq_some' hd
      have hne : task ≠ t := fun he => hr (by subst he; simp)
      rw [(queued_of_popFront hp).1, List.indexOf_cons_ne _ hne]
      exact ⟨Nat.le_succ _, fun _ => Nat.lt_succ_self _⟩
    · exact ⟨le_rfl, nofun⟩
    · exact absurd rfl hhigh
  · obtain ⟨⟨-, -, -, htasks | htasks⟩, -⟩ := owner_step hinv ho hb hs
    · exact ⟨le_of_eq (by rw [htasks]), fun he => by subst he; cases hb⟩
    · obtain ⟨A, hR, -⟩ := hinv.tasks.pool
      rw [htasks, queued_emplaceBack_of_le hR.keys_sorted hlive.priority_le,
        List.indexOf_append_of_mem hq]
      exact ⟨le_rfl, fun he => by subst he; cases hb⟩

theorem running_length_step (hinv : Inv s) {request : Request} {stage : Stage}
    (ho : s.owner = .get request stage) {event : Event} (hd : event ≠ .dequeue)
    (hs : s.step event = some s') : s'.running.length ≤ s.running.length := by
  cases hb : event.byOwner
  · rcases worker_step hb hs with ⟨_, _, rfl, -⟩ | ⟨_, _, -, -, rfl⟩ | ⟨-, rfl⟩
    · exact absurd rfl hd
    · exact List.length_erase_le _ _
    · exact le_rfl
  · exact le_of_eq (by rw [(owner_step hinv ho hb hs).1.running])

theorem step_dequeue_isSome (hlive : Live s) (hlt : s.running.length < s.threadCount) {t : Nat}
    (hq : t ∈ queued s.threadPool.tasks) : (s.step .dequeue).isSome := by
  cases hp : popFront s.threadPool.tasks with
  | none =>
    rw [queued_of_popFront_none hp] at hq
    cases hq
  | some r => simp [step, hlt, ThreadPool.dequeue, hlive.threadPoolRunning (by omega), hp]

/-! ## Executions -/

/-- An infinite run from a reachable state: the state before each step, and the event it takes. -/
structure Execution where
  state : Nat → BlockFetcher
  event : Nat → Event
  start : Reachable (fun _ _ => True) (state 0)
  step : ∀ n, (state n).step (event n) = some (state (n + 1))

namespace Execution

variable (ρ : Execution)

/-- Every task a worker runs finishes, returning or throwing. -/
def FinishesTasks : Prop :=
  ∀ n task, task ∈ (ρ.state n).running → ∃ m threw, n ≤ m ∧ ρ.event m = .finish task threw

/-- Weak fairness of the workers: where a worker could take a task at every step from some time
on, one takes a task. -/
def WorkersFair : Prop :=
  ∀ n, (∀ m, n ≤ m → ((ρ.state m).step .dequeue).isSome) → ∃ m, n ≤ m ∧ ρ.event m = .dequeue

/-- The owner thread is scheduled: in a call of `get`, it takes a step. -/
def OwnerFair : Prop :=
  ∀ n, (ρ.state n).owner ≠ .idle → ∃ m, n ≤ m ∧ (ρ.event m).byOwner = true

/-- From some time on, no task of high priority is submitted. -/
def FinitelyManyHighPriority : Prop :=
  ∃ N, ∀ m, N ≤ m → ρ.event m ≠ .submitTaskWithHighPriority

theorem reachable : ∀ n, Reachable (fun _ _ => True) (ρ.state n)
  | 0 => ρ.start
  | n + 1 => (reachable n).step _ trivial (ρ.step n)

theorem inv (n : Nat) : Inv (ρ.state n) := Inv.of_reachable (ρ.reachable n)

theorem live (n : Nat) : Live (ρ.state n) := Live.of_reachable (ρ.reachable n)

theorem mem_finished_mono {n m : Nat} (hnm : n ≤ m) {task : Nat}
    (h : task ∈ (ρ.state n).finished.map Prod.fst) : task ∈ (ρ.state m).finished.map Prod.fst := by
  induction m, hnm using Nat.le_induction with
  | base => exact h
  | succ k _ ih => exact (step_decodes (ρ.step k)).1 _ ih

theorem mem_decodes_mono {n m : Nat} (hnm : n ≤ m) {x : Nat × BlockData}
    (h : x ∈ (ρ.state n).decodes) : x ∈ (ρ.state m).decodes := by
  induction m, hnm using Nat.le_induction with
  | base => exact h
  | succ k _ ih =>
    rcases (step_decodes (ρ.step k)).2 with hd | ⟨_, _, hd, -⟩ <;> rw [hd]
    · exact ih
    · exact List.mem_append_left _ ih

theorem finish_of_running (hfin : ρ.FinishesTasks) {n task : Nat}
    (h : task ∈ (ρ.state n).running) :
    ∃ k, n ≤ k ∧ task ∈ (ρ.state k).running ∧
      (ρ.state (k + 1)).running = (ρ.state k).running.erase task ∧
      task ∈ (ρ.state (k + 1)).finished.map Prod.fst := by
  obtain ⟨k, threw, hk, he⟩ := hfin n task h
  have hstep := ρ.step k
  rw [he] at hstep
  obtain ⟨hmem, heq⟩ := step_finish hstep
  exact ⟨k, hk, hmem, by rw [heq], by rw [heq]; simp⟩

theorem running_eq_nil_of_length_const (hfin : ρ.FinishesTasks) {E : Nat}
    (hconst : ∀ m, E ≤ m → (ρ.state m).running.length = (ρ.state E).running.length) :
    (ρ.state E).running = [] := by
  cases h : (ρ.state E).running with
  | nil => rfl
  | cons task tasks =>
    obtain ⟨k, hk, hmem, herase, -⟩ := ρ.finish_of_running hfin (h ▸ List.mem_cons_self _ _)
    have h₁ := hconst k hk
    have h₂ := hconst (k + 1) (by omega)
    rw [herase, List.length_erase_of_mem hmem] at h₂
    have := List.length_pos_of_mem hmem
    omega

/-! ## The call in progress -/

theorem stays_in_call {request : Request} {stage : Stage} {n : Nat}
    (ho : (ρ.state n).owner = .get request stage) (hcall : ∀ k, n < k → (ρ.state k).owner ≠ .idle)
    {m : Nat} (hnm : n ≤ m) :
    (∃ stage, (ρ.state m).owner = .get request stage) ∧
      (ρ.state m).threadCount = (ρ.state n).threadCount := by
  induction m, hnm using Nat.le_induction with
  | base => exact ⟨⟨stage, ho⟩, rfl⟩
  | succ k _ ih =>
    obtain ⟨⟨stage', ho'⟩, hc⟩ := ih
    obtain ⟨hc', ⟨stage'', ho'', -⟩ | ⟨_, hidle, -⟩⟩ := step_in_call (ρ.inv k) ho' (ρ.step k)
    · exact ⟨⟨stage'', ho''⟩, hc'.trans hc⟩
    · exact absurd hidle (hcall (k + 1) (by omega))

theorem first_return {request : Request} : ∀ {n d : Nat} {stage : Stage},
    (ρ.state n).owner = .get request stage → (ρ.state (n + d)).owner = .idle →
    ∃ m result, n < m ∧ (ρ.state m).owner = .idle ∧
      (ρ.state m).results = (ρ.state n).results ++ [(request.blockOffset, result)] ∧
      ∀ k, n ≤ k → k < m → ∃ stage, (ρ.state k).owner = .get request stage
  | _, 0, _, ho, hidle => by cases ho.symm.trans hidle
  | n, d + 1, stage, ho, hidle => by
    obtain ⟨-, ⟨stage', ho', hres⟩ | ⟨result, hidle', hres⟩⟩ := step_in_call (ρ.inv n) ho (ρ.step n)
    · obtain ⟨m, result, hm, hidlem, hresm, hin⟩ :=
        first_return (n := n + 1) (d := d) ho' (by rwa [show n + 1 + d = n + (d + 1) by omega])
      refine ⟨m, result, by omega, hidlem, by rw [hresm, hres], fun k hk hkm => ?_⟩
      rcases Nat.eq_or_lt_of_le hk with rfl | hk
      · exact ⟨stage, ho⟩
      · exact hin k hk hkm
    · exact ⟨n + 1, result, by omega, hidle', hres, fun k hk hkm => ⟨stage, by
        rw [show k = n by omega]
        exact ho⟩⟩

/-! ## The decode of the call finishes -/

/-- **The decode of a call finishes.** While the call is in progress and the pool has workers, the
decode is queued, running or finished, and a running task finishes. A queued one moves ahead with
every task a worker takes, once no task of high priority comes any more, so the workers take only
finitely many tasks before it; then the running tasks finish, a worker is free, and it takes a
task. -/
theorem future_finishes (hfin : ρ.FinishesTasks) (hwork : ρ.WorkersFair)
    (hhigh : ρ.FinitelyManyHighPriority) {n : Nat} {request : Request}
    (hcall : ∀ m, n ≤ m → ∃ stage, (ρ.state m).owner = .get request stage)
    (hcount : ∀ m, n ≤ m → 0 < (ρ.state m).threadCount) {t : Nat}
    (ht : t ∈ (ρ.state n).decodes.map Prod.fst) :
    ∃ m, n ≤ m ∧ t ∈ (ρ.state m).finished.map Prod.fst := by
  by_contra hnot
  push_neg at hnot
  have hrun : ∀ m, n ≤ m → t ∉ (ρ.state m).running := fun m hm hr => by
    obtain ⟨k, hk, -, -, hf⟩ := ρ.finish_of_running hfin hr
    exact hnot (k + 1) (by omega) hf
  have hq : ∀ m, n ≤ m → t ∈ queued (ρ.state m).threadPool.tasks := fun m hm => by
    obtain ⟨x, hx, rfl⟩ := List.mem_map.1 ht
    rcases (ρ.live m).decodes x (ρ.mem_decodes_mono hm hx) with h | h | h
    exacts [h, absurd h (hrun m hm), absurd h (hnot m hm)]
  obtain ⟨N, hN⟩ := hhigh
  have hstep : ∀ m, max n N ≤ m →
      (queued (ρ.state (m + 1)).threadPool.tasks).indexOf t ≤
          (queued (ρ.state m).threadPool.tasks).indexOf t ∧
        (ρ.event m = .dequeue → (queued (ρ.state (m + 1)).threadPool.tasks).indexOf t <
          (queued (ρ.state m).threadPool.tasks).indexOf t) := fun m hm => by
    obtain ⟨stage, ho⟩ := hcall m (by omega)
    exact indexOf_queued_step (ρ.inv m) (ρ.live m) ho (hN m (by omega)) (hq m (by omega))
      (hrun (m + 1) (by omega)) (ρ.step m)
  -- the workers take finitely many tasks ahead of the decode
  obtain ⟨D, hD, hconst⟩ := @eventually_eq_of_succ_le
    (fun m => (queued (ρ.state m).threadPool.tasks).indexOf t) _ fun m hm => (hstep m hm).1
  have hnodeq : ∀ m, D ≤ m → ρ.event m ≠ .dequeue := fun m hm he => by
    have h₁ := hconst m hm
    have h₂ := hconst (m + 1) (by omega)
    have := (hstep m (by omega)).2 he
    omega
  -- then the running tasks finish
  obtain ⟨E, hE, hconstE⟩ := @eventually_eq_of_succ_le (fun m => (ρ.state m).running.length) D
    fun m hm => by
      obtain ⟨stage, ho⟩ := hcall m (by omega)
      exact running_length_step (ρ.inv m) ho (hnodeq m hm) (ρ.step m)
  have hempty := ρ.running_eq_nil_of_length_const hfin hconstE
  obtain ⟨m, hm, he⟩ := hwork E fun m hm =>
    step_dequeue_isSome (ρ.live m) (by rw [hconstE m hm, hempty]; exact hcount m (by omega))
      (hq m (by omega))
  exact hnodeq m (by omega) he

/-! ## The owner ends the call -/

theorem next_owner_step : ∀ {n d : Nat}, (ρ.event (n + d)).byOwner = true →
    ∃ m, n ≤ m ∧ (ρ.event m).byOwner = true ∧ (ρ.state m).owner = (ρ.state n).owner
  | n, 0, h => ⟨n, le_rfl, h, rfl⟩
  | n, d + 1, h => by
    cases hb : (ρ.event n).byOwner
    · obtain ⟨m, hm, hbm, ho⟩ :=
        next_owner_step (n := n + 1) (d := d) (by rwa [show n + 1 + d = n + (d + 1) by omega])
      refine ⟨m, by omega, hbm, ho.trans ?_⟩
      rcases worker_step hb (ρ.step n) with ⟨_, _, -, -, -, h'⟩ | ⟨_, _, -, -, h'⟩ | ⟨-, h'⟩ <;>
        rw [h']
    · exact ⟨n, le_rfl, hb, rfl⟩

/-- **Once its future has finished, the owner's steps end the call.** Each of them lowers the
stage of the call, whatever the finder and the strategy answer, and the stages admit no infinite
descent. -/
theorem call_ends_of_finished (howner : ρ.OwnerFair) {request : Request} (stage : Stage) :
    ∀ n, (ρ.state n).owner = .get request stage →
      (∀ task, request.queuedResult = some task → task ∈ (ρ.state n).finished.map Prod.fst) →
      ∃ m, n < m ∧ (ρ.state m).owner = .idle := by
  induction (InvImage.wf Stage.rank (Prod.lex Nat.lt_wfRel Nat.lt_wfRel).wf).apply stage with
  | intro stage _ ih =>
  intro n ho hfut
  obtain ⟨d, hd, hb⟩ := howner n fun h => Owner.noConfusion (ho.symm.trans h)
  obtain ⟨j, hj, hbj, hoj⟩ :=
    ρ.next_owner_step (n := n) (d := d - n) (by rwa [Nat.add_sub_cancel' hd])
  rw [ho] at hoj
  have hfut' : ∀ task, request.queuedResult = some task →
      task ∈ (ρ.state j).finished.map Prod.fst := fun task hq => ρ.mem_finished_mono hj (hfut task hq)
  rcases (owner_step (ρ.inv j) hoj hbj (ρ.step j)).2 with
    ⟨stage', ho', -, hlow | ⟨-, task, hq, hnf⟩⟩ | ⟨_, hidle, -⟩
  · obtain ⟨m, hm, hidle⟩ := ih stage' hlow (j + 1) ho' fun task hq =>
      ρ.mem_finished_mono (Nat.le_succ j) (hfut' task hq)
    exact ⟨m, by omega, hidle⟩
  · exact absurd (hfut' task hq) hnf
  · exact ⟨j + 1, by omega, hidle⟩

end Execution

/-! ## Every call returns -/

/-- **Every call of `get` returns along a fair execution.** Whatever the block finder and the
fetching strategy answer, a call in progress while the pool has workers returns: the workers
finish its decode, and the owner's steps then end it. The call records one result under its
offset, never the `std::logic_error` of `prefetchNewBlocks`, and is in progress until then. -/
theorem blockFetcher_get_returns (ρ : Execution) (hfin : ρ.FinishesTasks)
    (hwork : ρ.WorkersFair) (howner : ρ.OwnerFair) (hhigh : ρ.FinitelyManyHighPriority) {n : Nat}
    (hcount : 0 < (ρ.state n).threadCount) {request : Request} {stage : Stage}
    (ho : (ρ.state n).owner = .get request stage) :
    ∃ m result, n < m ∧ (ρ.state m).owner = .idle ∧
      (ρ.state m).results = (ρ.state n).results ++ [(request.blockOffset, result)] ∧
      (∀ what, result ≠ .logicError what) ∧
      ∀ k, n ≤ k → k < m → ∃ stage, (ρ.state k).owner = .get request stage := by
  obtain ⟨m, hm, hidle⟩ : ∃ m, n < m ∧ (ρ.state m).owner = .idle := by
    by_contra hnot
    push_neg at hnot
    have hin := fun m (hnm : n ≤ m) => ρ.stays_in_call ho hnot hnm
    obtain ⟨m₀, hm₀, hfut⟩ : ∃ m₀, n ≤ m₀ ∧ ∀ task, request.queuedResult = some task →
        task ∈ (ρ.state m₀).finished.map Prod.fst := by
      cases hq : request.queuedResult with
      | none => exact ⟨n, le_rfl, fun _ h => by cases h⟩
      | some t =>
        obtain ⟨_, hd⟩ := ((ρ.inv n).request request stage ho).2 t hq
        obtain ⟨m₀, hm₀, hf⟩ := ρ.future_finishes hfin hwork hhigh (fun m hm => (hin m hm).1)
          (fun m hm => by rw [(hin m hm).2]; exact hcount) (List.mem_map_of_mem Prod.fst hd)
        exact ⟨m₀, hm₀, fun _ h => by cases h; exact hf⟩
    obtain ⟨stage₀, ho₀⟩ := (hin m₀ hm₀).1
    obtain ⟨m, hm, hidle⟩ := ρ.call_ends_of_finished howner stage₀ m₀ ho₀ hfut
    exact hnot m (by omega) hidle
  obtain ⟨m', result, hm', hidle', hres, hin⟩ :=
    ρ.first_return (d := m - n) ho (by rwa [Nat.add_sub_cancel' hm.le])
  exact ⟨m', result, hm', hidle', hres, (ρ.inv m').results_ok _
    (by rw [hres]; exact List.mem_append_right _ (List.mem_singleton_self _)), hin⟩

/-! ## A fair execution -/

/-- The events of a fetcher of two workers in which `get` of offset `0` submits its decode, a
worker decodes it, and the call returns the block; the owner then clears the cache forever. -/
def onDemandEvent : Nat → Event
  | 0 => .get 0 false (some 50) false
  | 1 => .prefetch [] []
  | 2 => .checkUnprocessedTasks
  | 3 => .dequeue
  | 4 => .finish 0 false
  | 5 => .waitFor false
  | _ => .clearCache

/-- The states of that run. -/
def onDemandState : Nat → BlockFetcher
  | 0 => .new 2 0
  | n + 1 => ((onDemandState n).step (onDemandEvent n)).getD (onDemandState n)

theorem onDemandEvent_add_six (k : Nat) : onDemandEvent (k + 6) = .clearCache := rfl

theorem onDemandState_add_six (k : Nat) :
    (onDemandState (k + 6)).owner = .idle ∧
      (onDemandState (k + 6)).threadPool = (onDemandState 6).threadPool ∧
      (onDemandState (k + 6)).running = [] := by
  induction k with
  | zero => exact ⟨by decide, rfl, by decide⟩
  | succ k ih =>
    obtain ⟨ho, hp, hr⟩ := ih
    have heq : onDemandState (k + 1 + 6) = { onDemandState (k + 6) with
        cache := (onDemandState (k + 6)).cache.clear } := by
      show ((onDemandState (k + 6)).step (onDemandEvent (k + 6))).getD _ = _
      simp [onDemandEvent_add_six, step, ho]
    rw [heq]
    exact ⟨ho, hp, hr⟩

theorem onDemand_step (n : Nat) :
    (onDemandState n).step (onDemandEvent n) = some (onDemandState (n + 1)) := by
  have hsome : ((onDemandState n).step (onDemandEvent n)).isSome := by
    rcases Nat.lt_or_ge n 6 with hn | hn
    · interval_cases n <;> decide
    · obtain ⟨k, rfl⟩ := Nat.exists_eq_add_of_le' hn
      simp [onDemandEvent_add_six, step, (onDemandState_add_six k).1]
  obtain ⟨s, hs⟩ := Option.isSome_iff_exists.1 hsome
  show _ = some (Option.getD _ _)
  rw [hs]
  rfl

/-- The run, from a new fetcher. -/
def onDemand : Execution := ⟨onDemandState, onDemandEvent, .new 2 0, onDemand_step⟩

theorem onDemand_running (n : Nat) : (onDemand.state n).running = if n = 4 then [0] else [] := by
  rcases Nat.lt_or_ge n 6 with hn | hn
  · interval_cases n <;> decide
  · obtain ⟨k, rfl⟩ := Nat.exists_eq_add_of_le' hn
    rw [if_neg (by omega)]
    exact (onDemandState_add_six k).2.2

theorem onDemand_finishesTasks : onDemand.FinishesTasks := fun n task h => by
  rw [onDemand_running] at h
  split_ifs at h with hn
  · rw [List.mem_singleton.1 h, hn]
    exact ⟨4, false, le_rfl, rfl⟩
  · cases h

theorem onDemand_workersFair : onDemand.WorkersFair := fun n h => by
  have hnone : (onDemand.state (n + 6)).step .dequeue = none := by
    have hd : (onDemandState 6).threadPool.dequeue = none := by decide
    simp [onDemand, step, (onDemandState_add_six n).2.1, hd]
  exact absurd (h (n + 6) (by omega)) (by rw [hnone]; decide)

theorem onDemand_ownerFair : onDemand.OwnerFair := fun n _ =>
  ⟨n + 6, by omega, by show (onDemandEvent (n + 6)).byOwner = true; rw [onDemandEvent_add_six]; rfl⟩

theorem onDemand_finitelyManyHighPriority : onDemand.FinitelyManyHighPriority := ⟨6, fun m hm => by
  obtain ⟨k, rfl⟩ := Nat.exists_eq_add_of_le' hm
  show onDemandEvent (k + 6) ≠ _
  rw [onDemandEvent_add_six]
  nofun⟩

/-- The call of `get` on offset `0` is in progress after its first step, and returns the block of
its decode. -/
theorem blockFetcher_get_returns_onDemand :
    onDemand.FinishesTasks ∧ onDemand.WorkersFair ∧ onDemand.OwnerFair ∧
      onDemand.FinitelyManyHighPriority ∧ 0 < (onDemand.state 1).threadCount ∧
      (onDemand.state 1).owner = .get ⟨0, none, some 0⟩ (.processReadyPrefetches []) ∧
      ∃ m result, 1 < m ∧ (onDemand.state m).owner = .idle ∧
        (onDemand.state m).results = (onDemand.state 1).results ++ [(0, result)] ∧
        (∀ what, result ≠ .logicError what) ∧
        ∀ k, 1 ≤ k → k < m → ∃ stage, (onDemand.state k).owner = .get ⟨0, none, some 0⟩ stage :=
  ⟨onDemand_finishesTasks, onDemand_workersFair, onDemand_ownerFair,
    onDemand_finitelyManyHighPriority, by decide, by decide,
    @blockFetcher_get_returns onDemand onDemand_finishesTasks onDemand_workersFair
      onDemand_ownerFair onDemand_finitelyManyHighPriority 1 (by decide) ⟨0, none, some 0⟩
      (.processReadyPrefetches []) (by decide)⟩

end BlockFetcher

end Pragzip
