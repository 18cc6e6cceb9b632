/-
# `Yuva.Kernel.Fairness` — the tick serves the queue in turn

`schedule` looks for the running task in the run queue and takes the first RUNNABLE entry
behind it, once round.  While nothing is blocked or woken the RUNNABLE entries form a cycle
of their own, the queue with the BLOCKED entries left out, and every call moves one place
along it (`current_schedule`).  So the calls of one cycle run each RUNNABLE task once, in the
order of the queue, whichever call the cycle is counted from.
-/
import Yuva.Kernel.Blocking
import Mathlib.Data.List.Rotate

namespace Yuva.Kernel.Sched

/-- The RUNNABLE entries of the queue. -/
def runnables (q : Sched) : List Nat := q.runqueue.filter q.isRunnable

/-- Distinct tasks, the running one among them and RUNNABLE. -/
structure Queued (q : Sched) : Prop where
  nodup : q.runqueue.Nodup
  mem : q.current ∈ q.runqueue
  runnable : q.isRunnable q.current = true

theorem successors_eq_rotate (q : Sched) : q.successors = q.runqueue.rotate (q.position + 1) := by
  set rot := q.runqueue.rotate (q.position + 1) with hrot
  have hlen : rot.length = q.runqueue.length := List.length_rotate _ _
  have hget : ∀ k ∈ List.range q.runqueue.length,
      q.runqueue[(q.position + (k + 1)) % q.runqueue.length]? = some (rot.getD k 0) := by
    intro k hk
    have hk : k < q.runqueue.length := List.mem_range.1 hk
    rw [← Nat.add_assoc, Nat.add_right_comm, Nat.add_comm _ k, ← List.getElem?_rotate hk, ← hrot,
      List.getElem?_eq_getElem (by omega), List.getD_eq_getElem _ _ (by omega)]
  rw [successors, List.filterMap_congr hget, List.filterMap_eq_map']
  refine List.ext_getElem (by rw [List.length_map, List.length_range, hlen]) fun k hk hk' => ?_
  rw [List.getElem_map, List.getElem_range, List.getD_eq_getElem _ _ hk']

section Step

variable {q : Sched}

/-- The RUNNABLE entries behind the running task are the cycle, turned past it. -/
theorem filter_successors (hq : q.Queued) :
    q.successors.filter q.isRunnable = q.runnables.rotate (q.runnables.idxOf q.current + 1) := by
  obtain ⟨before, after, hsplit⟩ := List.append_of_mem hq.mem
  have hfresh : q.current ∉ before := by
    have hnodup := hq.nodup
    rw [hsplit] at hnodup
    exact fun hmem => (List.nodup_append.1 hnodup).2.2 _ hmem _ List.mem_cons_self rfl
  have hpos : q.position = before.length := by
    rw [position, if_pos hq.mem, hsplit, List.idxOf_append_of_notMem hfresh, List.idxOf_cons_self, Nat.add_zero]
  have hrun : q.runnables = before.filter q.isRunnable ++ q.current :: after.filter q.isRunnable := by
    rw [runnables, hsplit, List.filter_append, List.filter_cons_of_pos hq.runnable]
  have hidx : q.runnables.idxOf q.current = (before.filter q.isRunnable).length := by
    rw [hrun, List.idxOf_append_of_notMem fun hmem => hfresh (List.mem_of_mem_filter hmem),
      List.idxOf_cons_self, Nat.add_zero]
  have hturn : ∀ xs ys : List Nat,
      (xs ++ q.current :: ys).rotate (xs.length + 1) = ys ++ (xs ++ [q.current]) := by
    intro xs ys
    have := List.rotate_append_length_eq (xs ++ [q.current]) ys
    rwa [List.append_assoc, List.singleton_append, List.length_append, List.length_singleton] at this
  rw [successors_eq_rotate, hpos, hsplit, hturn, hidx, hrun, hturn, List.filter_append, List.filter_append,
    List.filter_cons_of_pos hq.runnable, List.filter_nil]

theorem current_mem_runnables (hq : q.Queued) : q.current ∈ q.runnables :=
  List.mem_filter.2 ⟨hq.mem, hq.runnable⟩

theorem nodup_runnables (hq : q.Queued) : q.runnables.Nodup := hq.nodup.filter _

theorem find_successors (hq : q.Queued) :
    q.successors.find? q.isRunnable =
      q.runnables[(q.runnables.idxOf q.current + 1) % q.runnables.length]? := by
  have hpos : 0 < q.runnables.length := List.length_pos_of_mem (current_mem_runnables hq)
  rw [← List.head?_filter, filter_successors hq, List.head?_eq_getElem?, List.getElem?_rotate hpos, Nat.zero_add]

/-- A call moves the running task one place along the cycle, and changes nothing else. -/
theorem schedule_eq (hq : q.Queued) :
    ∃ next, q.runnables[(q.runnables.idxOf q.current + 1) % q.runnables.length]? = some next ∧
      q.schedule = { q with current := next } := by
  have hpos : 0 < q.runnables.length := List.length_pos_of_mem (current_mem_runnables hq)
  have hnext := List.getElem?_eq_getElem (Nat.mod_lt (q.runnables.idxOf q.current + 1) hpos)
  refine ⟨_, hnext, ?_⟩
  rw [schedule]
  split_ifs with hlen
  · -- A queue of one: the cycle is the running task.
    have hself : q.runqueue = [q.current] := by
      obtain ⟨t, ht⟩ := List.length_eq_one_iff.1
        (show q.runqueue.length = 1 by have := List.length_pos_of_mem hq.mem; omega)
      have hmem := hq.mem
      rw [ht, List.mem_singleton] at hmem
      rw [ht, hmem]
    have hcycle : q.runnables = [q.current] := by
      rw [runnables, hself, List.filter_cons_of_pos hq.runnable, List.filter_nil]
    simp only [hcycle, List.length_singleton, Nat.mod_one, List.getElem_cons_zero]
  · rw [find_successors hq, hnext]

theorem runnables_schedule (hq : q.Queued) : q.schedule.runnables = q.runnables := by
  obtain ⟨next, -, heq⟩ := schedule_eq hq
  rw [heq]
  rfl

theorem queued_schedule (hq : q.Queued) : q.schedule.Queued := by
  obtain ⟨next, hnext, heq⟩ := schedule_eq hq
  obtain ⟨hmem, hrunnable⟩ := List.mem_filter.1 (List.mem_of_getElem? hnext)
  rw [heq]
  exact ⟨hq.nodup, hmem, hrunnable⟩

theorem idxOf_schedule (hq : q.Queued) :
    q.runnables.idxOf q.schedule.current = (q.runnables.idxOf q.current + 1) % q.runnables.length := by
  obtain ⟨next, hnext, heq⟩ := schedule_eq hq
  obtain ⟨hlt, hget⟩ := List.getElem?_eq_some_iff.1 hnext
  rw [heq, ← hget]
  exact (nodup_runnables hq).idxOf_getElem _ hlt

end Step

section Run

variable {q : Sched}

theorem queued_iterate (hq : q.Queued) : ∀ k : Nat, (schedule^[k] q).Queued
  | 0 => hq
  | k + 1 => by
    rw [Function.iterate_succ_apply']
    exact queued_schedule (queued_iterate hq k)

theorem runnables_iterate (hq : q.Queued) : ∀ k : Nat, (schedule^[k] q).runnables = q.runnables
  | 0 => rfl
  | k + 1 => by
    rw [Function.iterate_succ_apply', runnables_schedule (queued_iterate hq k), runnables_iterate hq k]

theorem frame_iterate (hq : q.Queued) :
    ∀ k : Nat, (schedule^[k] q).runqueue = q.runqueue ∧ (schedule^[k] q).state = q.state
  | 0 => ⟨rfl, rfl⟩
  | k + 1 => by
    obtain ⟨next, -, heq⟩ := schedule_eq (queued_iterate hq k)
    rw [Function.iterate_succ_apply', heq]
    exact frame_iterate hq k

/-- After `k` calls the running task is `k` places along the cycle. -/
theorem idxOf_iterate (hq : q.Queued) : ∀ k : Nat,
    q.runnables.idxOf (schedule^[k] q).current = (q.runnables.idxOf q.current + k) % q.runnables.length
  | 0 => (Nat.mod_eq_of_lt (List.idxOf_lt_length_of_mem (current_mem_runnables hq))).symm
  | k + 1 => by
    have hstep := idxOf_schedule (queued_iterate hq k)
    rw [runnables_iterate hq k, idxOf_iterate hq k] at hstep
    rw [Function.iterate_succ_apply', hstep, Nat.mod_add_mod, Nat.add_assoc]

theorem current_iterate (hq : q.Queued) (k : Nat) :
    q.runnables[(q.runnables.idxOf q.current + k) % q.runnables.length]? = some (schedule^[k] q).current := by
  have hmem := current_mem_runnables (queued_iterate hq k)
  rw [runnables_iterate hq k] at hmem
  rw [← idxOf_iterate hq k, List.getElem?_eq_getElem (List.idxOf_lt_length_of_mem hmem),
    List.getElem_idxOf]

/-- The tasks that run in one cycle of calls, counted from call `j`. -/
def cycle (q : Sched) (j : Nat) : List Nat :=
  (List.range q.runnables.length).map fun k => (schedule^[j + 1 + k] q).current

theorem cycle_eq_rotate (hq : q.Queued) (j : Nat) :
    q.cycle j = q.runnables.rotate (q.runnables.idxOf q.current + (j + 1)) := by
  refine List.ext_getElem? fun k => ?_
  rcases Nat.lt_or_ge k q.runnables.length with hk | hk
  · rw [cycle, List.getElem?_map, List.getElem?_range hk, Option.map_some, List.getElem?_rotate hk,
      ← current_iterate hq, ← Nat.add_assoc, Nat.add_comm k]
  · rw [List.getElem?_eq_none (by rwa [cycle, List.length_map, List.length_range]),
      List.getElem?_eq_none (by rwa [List.length_rotate])]

end Run

/-- While the flags stay, the running task is always RUNNABLE, and any cycle of calls is the
RUNNABLE part of the queue read round from behind the running task: every RUNNABLE task once. -/
theorem schedule_fair {q : Sched} (hq : q.Queued) :
    (∀ k : Nat, q.isRunnable (schedule^[k] q).current = true ∧ (schedule^[k] q).runqueue = q.runqueue ∧
      (schedule^[k] q).state = q.state) ∧
    ∀ j : Nat, q.cycle j = q.runnables.rotate (q.runnables.idxOf q.current + (j + 1)) ∧
      ∀ t ∈ q.runqueue, (q.cycle j).count t = if q.isRunnable t then 1 else 0 := by
  refine ⟨fun k => ?_, fun j => ⟨cycle_eq_rotate hq j, fun t ht => ?_⟩⟩
  · have hmem := current_mem_runnables (queued_iterate hq k)
    rw [runnables_iterate hq k] at hmem
    exact ⟨(List.mem_filter.1 hmem).2, frame_iterate hq k⟩
  · rw [cycle_eq_rotate hq j, (List.rotate_perm _ _).count_eq]
    split_ifs with hrun
    · exact List.count_eq_one_of_mem (nodup_runnables hq) (List.mem_filter.2 ⟨ht, hrun⟩)
    · exact List.count_eq_zero.2 fun hmem => hrun (List.mem_filter.1 hmem).2

/-- Four tasks, the third BLOCKED. -/
def fourTasks : Sched where
  runqueue := [0, 1, 2, 3]
  current := 1
  state := fun t => if t = 2 then .blocked else .runnable

theorem fourTasks_fair : fourTasks.Queued ∧ fourTasks.cycle 0 = [3, 0, 1] := by
  have hq : fourTasks.Queued := ⟨by decide, by decide, by decide⟩
  exact ⟨hq, ((schedule_fair hq).2 0).1⟩

end Yuva.Kernel.Sched
