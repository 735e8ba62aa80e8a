import RenderMq.Queue.TaskQueue
import Mathlib.Order.Bounds.Basic

/-!
# The queue and the history of its operations

A run of the queue is a list of operations from the empty queue (`QueueOp`, `runOps`). Beside the
queue, a run has a history: for each metatile the pushes made since its task was created
(`PushLog`). The history starts over when the task goes away, and only then.

`Matches` relates the two. It says of every task that it is exactly what its pushes make it: the
subscribers in push order, the highest of the priorities, the union of the formats. `matches_apply`
is the step, by what an operation can do to a task (`find_apply`): create or extend it, leave its
requests alone, or remove it. `matches_run` is the run.
-/

namespace RenderMq

open TaskQueue

/-- The operations of a task queue. `now` is the clock an operation reads. -/
inductive QueueOp where
  | push (tile : TileProtocol) (address : String) (priority now : Int)
  | setProcessed (tile : TileProtocol)
  | pop
  | erase (tile : TileProtocol)
  | resubmitOlderThan (timeout now : Int)
  | clear

def QueueOp.apply (q : TaskQueue) : QueueOp → TaskQueue
  | .push tile address priority now => (q.push tile address priority now).1
  | .setProcessed tile => q.setProcessed tile
  | .pop => q.pop
  | .erase tile => (q.erase tile).1
  | .resubmitOlderThan timeout now => q.resubmitOlderThan timeout now
  | .clear => q.clear

/-- The queue after a list of operations, from the empty queue. -/
def runOps (ops : List QueueOp) : TaskQueue := ops.foldl QueueOp.apply MultiIndex.empty

/-! ## The history -/

/-- One push. -/
structure Push where
  tile : TileProtocol
  address : String
  priority : Int

/-- The pushes of each metatile since its task was created. -/
abbrev PushLog := TaskKey → List Push

/-- The push an operation makes for a metatile, if it makes one. -/
def QueueOp.pushesFor (k : TaskKey) : QueueOp → List Push
  | .push tile address priority _ => if k = metaKey tile then [⟨tile, address, priority⟩] else []
  | _ => []

/-- The history after an operation: it is extended by a push, and forgotten when the task is gone. -/
def QueueOp.record (q : TaskQueue) (log : PushLog) (op : QueueOp) : PushLog := fun k =>
  match (op.apply q).find k with
  | none => []
  | some _ => log k ++ op.pushesFor k

/-- A run keeps the queue and its history. -/
structure QueueRun where
  queue : TaskQueue
  log : PushLog

def QueueRun.start : QueueRun := ⟨MultiIndex.empty, fun _ => []⟩

def QueueRun.step (r : QueueRun) (op : QueueOp) : QueueRun :=
  ⟨op.apply r.queue, op.record r.queue r.log⟩

def QueueRun.run (ops : List QueueOp) : QueueRun := ops.foldl QueueRun.step .start

/-- The history is kept beside the queue, and does not change it. -/
theorem QueueRun.queue_run (ops : List QueueOp) : (QueueRun.run ops).queue = runOps ops := by
  have h : ∀ (ops : List QueueOp) (r : QueueRun),
      (ops.foldl QueueRun.step r).queue = ops.foldl QueueOp.apply r.queue := by
    intro ops
    induction ops with
    | nil => exact fun _ => rfl
    | cons op ops ih => exact fun r => ih (r.step op)
  exact h ops .start

/-! ## What the pushes of a task make it -/

/-- A task is what its pushes make it. -/
structure MadeOf (t : Task) (pushes : List Push) : Prop where
  nonempty : pushes ≠ []
  mine : ∀ p ∈ pushes, metaKey p.tile = t.key
  subscribers : t.subscribers = pushes.map fun p => (p.tile, p.address)
  priority : IsGreatest {n | ∃ p ∈ pushes, p.priority = n} t.priority
  format : t.format = pushes.foldl (fun f p => f ||| p.tile.format) fmtNone
  aligned : METATILE ∣ t.x ∧ METATILE ∣ t.y

/-- The queue and its history agree. -/
structure Matches (q : TaskQueue) (log : PushLog) : Prop where
  absent : ∀ k, q.find k = none → log k = []
  present : ∀ k t, q.find k = some t → MadeOf t (log k)

/-- An operation keeps what a task's pushes made it. -/
structure SameRequests (t t' : Task) : Prop where
  key : t'.key = t.key
  subscribers : t'.subscribers = t.subscribers
  priority : t'.priority = t.priority
  format : t'.format = t.format

theorem SameRequests.refl (t : Task) : SameRequests t t := ⟨rfl, rfl, rfl, rfl⟩

theorem MadeOf.same {t t' : Task} {pushes : List Push} (h : MadeOf t pushes)
    (same : SameRequests t t') : MadeOf t' pushes where
  nonempty := h.nonempty
  mine p hp := (h.mine p hp).trans same.key.symm
  subscribers := same.subscribers.trans h.subscribers
  priority := same.priority ▸ h.priority
  format := same.format.trans h.format
  aligned := by
    have hx : t'.x = t.x := congrArg TaskKey.x same.key
    have hy : t'.y = t.y := congrArg TaskKey.y same.key
    rw [hx, hy]
    exact h.aligned

/-- The first push makes a task. -/
theorem madeOf_new (tile : TileProtocol) (address : String) (priority now : Int) :
    MadeOf (pushed none tile address priority now) [⟨tile, address, priority⟩] where
  nonempty := by simp
  mine p hp := by
    rw [List.mem_singleton.mp hp]
    rfl
  subscribers := rfl
  priority := by
    simp [pushed, addSubscriber, IsGreatest, upperBounds]
  format := by
    simp [pushed, addSubscriber, metaOf, fmtNone]
  aligned := ⟨dvd_metaFloor _, dvd_metaFloor _⟩

/-- A further push extends it. -/
theorem MadeOf.push {t : Task} {pushes : List Push} (h : MadeOf t pushes) {tile : TileProtocol}
    (key : metaKey tile = t.key) (address : String) (priority now : Int) :
    MadeOf (pushed (some t) tile address priority now) (pushes ++ [⟨tile, address, priority⟩]) where
  nonempty := by simp
  mine p hp := by
    rcases List.mem_append.mp hp with hp | hp
    · exact h.mine p hp
    · rw [List.mem_singleton.mp hp]
      exact key
  subscribers := by
    simp [pushed, addSubscriber, h.subscribers]
  priority := by
    obtain ⟨⟨best, hbest, heq⟩, hub⟩ := h.priority
    have hle : ∀ p ∈ pushes, p.priority ≤ t.priority := fun p hp => hub ⟨p, hp, rfl⟩
    simp only [pushed, addSubscriber, Option.getD_some]
    refine ⟨?_, ?_⟩
    · split
      · exact ⟨⟨tile, address, priority⟩, by simp, rfl⟩
      · exact ⟨best, List.mem_append_left _ hbest, heq⟩
    · rintro n ⟨p, hp, rfl⟩
      rcases List.mem_append.mp hp with hp | hp
      · have := hle p hp
        split <;> omega
      · rw [List.mem_singleton.mp hp]
        dsimp only
        split <;> omega
  format := by
    simp [pushed, addSubscriber, h.format, List.foldl_append]
  aligned := h.aligned

/-! ## The step -/

/-- **What an operation can do to a task.** A task that is there after an operation is what a push makes
of it, or it was there before: it is unchanged, or being processed now, or reset. -/
theorem apply_cases {q : TaskQueue} {op : QueueOp} {k : TaskKey} {t' : Task}
    (h : (op.apply q).find k = some t') :
    (∃ tile address priority now, op = .push tile address priority now ∧ k = metaKey tile ∧
      t' = pushed (q.find k) tile address priority now) ∨
    ∃ t, q.find k = some t ∧ (t' = t ∨
      (∃ tile, op = .setProcessed tile ∧ k = tile.taskKey ∧ t' = processedFun.run t) ∨
      ∃ timeout now, op = .resubmitOlderThan timeout now ∧ Resets q timeout now t ∧
        t' = (unprocessedFun timeout now).run t) := by
  cases op with
  | push tile address priority now =>
    rw [QueueOp.apply, find_push] at h
    split at h
    · next hk =>
      exact .inl ⟨tile, address, priority, now, rfl, hk, (Option.some.inj h).symm⟩
    · exact .inr ⟨t', h, .inl rfl⟩
  | setProcessed tile =>
    rw [QueueOp.apply, find_setProcessed] at h
    split at h
    · next hk =>
      obtain ⟨t, ht, hrun⟩ := Option.map_eq_some_iff.mp h
      exact .inr ⟨t, ht, .inr (.inl ⟨tile, rfl, hk, hrun.symm⟩)⟩
    · exact .inr ⟨t', h, .inl rfl⟩
  | pop =>
    rw [QueueOp.apply, find_pop] at h
    split at h
    · cases h
    · exact .inr ⟨t', h, .inl rfl⟩
  | erase tile =>
    rw [QueueOp.apply, TaskQueue.find_erase] at h
    split at h
    · cases h
    · exact .inr ⟨t', h, .inl rfl⟩
  | resubmitOlderThan timeout now =>
    cases hq : q.find k with
    | none =>
      rcases find_resubmitOlderThan q timeout now k with hsame | ⟨t, ht, _⟩
      · rw [QueueOp.apply, hsame, hq] at h
        cases h
      · rw [hq] at ht
        cases ht
    | some t =>
      refine .inr ⟨t, rfl, ?_⟩
      rw [QueueOp.apply, find_resubmitOlderThan_some hq] at h
      split at h
      · next hresets => exact .inr (.inr ⟨timeout, now, rfl, hresets, (Option.some.inj h).symm⟩)
      · exact .inl (Option.some.inj h).symm
  | clear => cases h

/-- What an operation that pushes nothing for a metatile does to its task: it removes it, or keeps
its requests. -/
theorem find_apply (q : TaskQueue) (op : QueueOp) (k : TaskKey) (quiet : op.pushesFor k = []) :
    (op.apply q).find k = none ∨
      ∃ t t', q.find k = some t ∧ (op.apply q).find k = some t' ∧ SameRequests t t' := by
  cases hnew : (op.apply q).find k with
  | none => exact .inl rfl
  | some t' =>
    rcases apply_cases hnew with ⟨tile, address, priority, now, rfl, hk, _⟩ | ⟨t, ht, hcases⟩
    · simp [QueueOp.pushesFor, hk] at quiet
    · refine .inr ⟨t, t', ht, rfl, ?_⟩
      rcases hcases with rfl | ⟨_, _, _, rfl⟩ | ⟨_, _, _, _, rfl⟩
      · exact .refl t'
      · exact ⟨rfl, rfl, rfl, rfl⟩
      · exact ⟨rfl, rfl, rfl, rfl⟩

theorem matches_start : Matches QueueRun.start.queue QueueRun.start.log where
  absent _ _ := rfl
  present _ _ h := by simp [QueueRun.start] at h

/-- **The step.** Every operation keeps the queue in agreement with its history. -/
theorem matches_apply {q : TaskQueue} {log : PushLog} (h : Matches q log) (op : QueueOp) :
    Matches (op.apply q) (op.record q log) where
  absent k hk := by simp [QueueOp.record, hk]
  present k t ht := by
    have hrecord : op.record q log k = log k ++ op.pushesFor k := by simp [QueueOp.record, ht]
    rw [hrecord]
    by_cases quiet : op.pushesFor k = []
    · rw [quiet, List.append_nil]
      rcases find_apply q op k quiet with hnone | ⟨old, new, hold, hnew, same⟩
      · rw [hnone] at ht
        cases ht
      · rw [hnew] at ht
        obtain rfl := Option.some.inj ht
        exact (h.present k old hold).same same
    · -- only a push of this metatile is recorded for it
      cases op with
      | push tile address priority now =>
        by_cases hk : k = metaKey tile
        · subst hk
          rw [QueueOp.apply, find_push, if_pos rfl] at ht
          obtain rfl := Option.some.inj ht
          simp only [QueueOp.pushesFor, if_true]
          cases hq : q.find (metaKey tile) with
          | none =>
            rw [h.absent _ hq]
            exact madeOf_new tile address priority now
          | some old =>
            refine (h.present _ old hq).push ?_ address priority now
            exact (MultiIndex.ident_of_find hq).symm
        · simp [QueueOp.pushesFor, hk] at quiet
      | _ => simp [QueueOp.pushesFor] at quiet

/-- **The run.** -/
theorem matches_run (ops : List QueueOp) :
    Matches (QueueRun.run ops).queue (QueueRun.run ops).log := by
  have h : ∀ (ops : List QueueOp) (r : QueueRun), Matches r.queue r.log →
      Matches (ops.foldl QueueRun.step r).queue (ops.foldl QueueRun.step r).log := by
    intro ops
    induction ops with
    | nil => exact fun _ h => h
    | cons op ops ih => exact fun r h => ih (r.step op) (matches_apply h op)
  exact h ops .start matches_start

/-! ## The invariant -/

/-- What holds of a queue with its history at any time. -/
structure QueueInvariant (q : TaskQueue) (log : PushLog) : Prop where
  /-- At most one task for each metatile and style, by the coordinates of any of its tiles. -/
  unique : q.tasks.Pairwise fun t u =>
    (metaFloor t.x, metaFloor t.y, t.z, t.style) ≠ (metaFloor u.x, metaFloor u.y, u.z, u.style)
  /-- Each task stands for its metatile, and is what its pushes make it. -/
  tasks : ∀ t ∈ q.tasks, MadeOf t (log t.key)
  /-- A push answers whether it made the task. -/
  new : ∀ tile address priority now, (q.push tile address priority now).2 = true ↔
    ∀ t ∈ q.tasks, t.key ≠ metaKey tile
  /-- The front is unprocessed, of the highest priority among the unprocessed. -/
  front : ∀ t, q.front = some t → t ∈ q.tasks ∧ t.processed = false ∧
    ∀ u ∈ q.tasks, u.processed = false → u.priority ≤ t.priority
  /-- There is no front exactly when nothing is unprocessed. -/
  noFront : q.front = none ↔ q.countUnprocessed = 0

theorem Matches.invariant {q : TaskQueue} {log : PushLog} (h : Matches q log) :
    QueueInvariant q log where
  unique := by
    have made : ∀ t ∈ q.tasks, metaFloor t.x = t.x ∧ metaFloor t.y = t.y := by
      intro t ht
      obtain ⟨hx, hy⟩ := (h.present _ t (mem_tasks_iff.mp ht)).aligned
      unfold metaFloor METATILE at *
      omega
    refine (List.pairwise_map.mp q.unique).imp_of_mem fun {t u} ht hu hne heq => hne ?_
    obtain ⟨htx, hty⟩ := made t ht
    obtain ⟨hux, huy⟩ := made u hu
    rw [htx, hty, hux, huy] at heq
    simp only [Prod.mk.injEq] at heq
    obtain ⟨hx, hy, hz, hs⟩ := heq
    simp only [Task.key, TileProtocol.taskKey, hx, hy, hz, hs]
  tasks t ht := h.present _ t (mem_tasks_iff.mp ht)
  new tile address priority now := by
    rw [push_snd, MultiIndex.find_eq_none_iff]
    rfl
  front _ ht := front_spec ht
  noFront := front_none_iff q

/-! ## How tasks come and go -/

/-- What an operation does to the tasks that there are. -/
structure KeepsTasks (q : TaskQueue) (op : QueueOp) : Prop where
  /-- A push leaves a task of its metatile. -/
  pushed : ∀ tile address priority now, op = .push tile address priority now →
    ∃ t ∈ (op.apply q).tasks, t.key = metaKey tile
  /-- Only pushes make a task. -/
  made : ∀ t' ∈ (op.apply q).tasks, (∀ t ∈ q.tasks, t.key ≠ t'.key) →
    ∃ tile address priority now, op = .push tile address priority now ∧ metaKey tile = t'.key
  /-- A task goes away only when it is the first at a `pop`, or is erased, or all are cleared. -/
  removed : ∀ t ∈ q.tasks, (∀ t' ∈ (op.apply q).tasks, t'.key ≠ t.key) →
    (op = .pop ∧ q.tasks.head? = some t) ∨ (∃ tile, op = .erase tile ∧ tile.taskKey = t.key) ∨
      op = .clear

/-- No task has a key exactly when none is found by it. -/
theorem find_eq_none_iff_tasks {q : TaskQueue} {k : TaskKey} :
    q.find k = none ↔ ∀ t ∈ q.tasks, t.key ≠ k :=
  MultiIndex.find_eq_none_iff

/-- An operation that finds a task no more has removed it. -/
theorem removed_cases {q : TaskQueue} {op : QueueOp} {k : TaskKey} {t : Task}
    (ht : q.find k = some t) (hgone : (op.apply q).find k = none) :
    (op = .pop ∧ q.tasks.head? = some t) ∨ (∃ tile, op = .erase tile ∧ tile.taskKey = k) ∨
      op = .clear := by
  cases op with
  | push tile address priority now =>
    rw [QueueOp.apply, find_push] at hgone
    split at hgone
    · cases hgone
    · rw [ht] at hgone
      cases hgone
  | setProcessed tile =>
    rw [QueueOp.apply, find_setProcessed, ht] at hgone
    split at hgone <;> cases hgone
  | pop =>
    rw [QueueOp.apply, find_pop] at hgone
    split at hgone
    · next hhead =>
      obtain ⟨u, hu, hkey⟩ := Option.map_eq_some_iff.mp hhead
      have hfound : q.find k = some u := by
        rw [← hkey]
        exact mem_tasks_iff.mp (List.mem_of_mem_head? hu)
      rw [ht] at hfound
      obtain rfl := Option.some.inj hfound
      exact .inl ⟨rfl, hu⟩
    · rw [ht] at hgone
      cases hgone
  | erase tile =>
    rw [QueueOp.apply, TaskQueue.find_erase] at hgone
    split at hgone
    · next hk => exact .inr (.inl ⟨tile, rfl, hk.symm⟩)
    · rw [ht] at hgone
      cases hgone
  | resubmitOlderThan timeout now =>
    rw [QueueOp.apply, find_resubmitOlderThan_some ht] at hgone
    cases hgone
  | clear => exact .inr (.inr rfl)

/-- **How tasks come and go.** -/
theorem keepsTasks (q : TaskQueue) (op : QueueOp) : KeepsTasks q op where
  pushed := by
    rintro tile address priority now rfl
    have hfound : ((QueueOp.push tile address priority now).apply q).find (metaKey tile) =
        some (TaskQueue.pushed (q.find (metaKey tile)) tile address priority now) := by
      rw [QueueOp.apply, find_push, if_pos rfl]
    exact ⟨_, MultiIndex.mem_of_find hfound, MultiIndex.ident_of_find hfound⟩
  made t' ht' hnew := by
    rcases apply_cases (mem_tasks_iff.mp ht') with ⟨tile, address, priority, now, hop, hk, _⟩ | ⟨t, ht, _⟩
    · exact ⟨tile, address, priority, now, hop, hk.symm⟩
    · rw [find_eq_none_iff_tasks.mpr hnew] at ht
      cases ht
  removed t ht hgone := removed_cases (mem_tasks_iff.mp ht) (find_eq_none_iff_tasks.mpr hgone)

/-- **The queue over whole runs.** In every state of every run the queue holds one task for each
metatile with outstanding pushes, made of exactly these pushes, and `front` answers an unprocessed task
of the highest priority. A push leaves a task of its metatile, and a task stays until it is popped,
erased or cleared. Times and priorities are any integers; whether a task is ever handed out is not
part of it. -/
theorem taskQueue_run_invariant (ops : List QueueOp) :
    QueueInvariant (runOps ops) (QueueRun.run ops).log ∧
      ∀ op, KeepsTasks (runOps ops) op := by
  rw [← QueueRun.queue_run]
  exact ⟨(matches_run ops).invariant, keepsTasks _⟩

/-- Two tiles of one metatile are pushed, and one of another that is popped. -/
def mergedAndPopped : List QueueOp :=
  [.push { x := 1, y := 2, z := 4 } "a" 0 5, .push { x := 9, y := 2, z := 4 } "b" 100 6,
    .push { x := 3, y := 2, z := 4 } "c" 50 7, .pop]

/-- The task of the two is left, and holds them. -/
theorem merged_task_is_left : QueueInvariant (runOps mergedAndPopped) (QueueRun.run mergedAndPopped).log ∧
    (runOps mergedAndPopped).tasks.map (fun t => (t.key, t.priority, t.subscribers.map Prod.snd)) =
      [(⟨0, 0, 4, ""⟩, 50, ["a", "c"])] :=
  ⟨(taskQueue_run_invariant mergedAndPopped).1, by decide⟩

end RenderMq
