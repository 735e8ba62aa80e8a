import RenderMq.Queue.History

/-!
# What a resubmission reaches

`resubmit_older_than` walks the timestamp index and sets the timestamp of every task that is due. It
is documented to reset all of them (`ResubmitComplete`). But the timestamp is the key of the index
it walks: a task that is reset moves to the end of the tasks up to `now`, and the iterator moves
with it, past the tasks in between.

**What is proved.** `resubmitComplete_iff` says exactly from which queues the walk reaches every due
task. In the ordinary case, with a positive timeout and clocks that fit an `int`, that is when at
most one task is due (`noneLeftBehind_iff_one_due`).
-/

namespace RenderMq

open TaskQueue
open MultiIndex (NoneJumped)

/-- The task after a resubmission that forgets nobody: a due task is unprocessed and starts waiting
now, and every other is unchanged. -/
def resubmitted (timeout now : Int) (t : Task) : Task :=
  if t.processed = true ∧ t.status ≠ .cmdRenderBulk ∧ now - t.timestamp ≥ timeout then
    { t with processed := false, timestamp := now }
  else t

theorem resubmitted_eq (timeout now : Int) (t : Task) :
    resubmitted timeout now t =
      if (unprocessedFun timeout now).applies t then (unprocessedFun timeout now).run t else t := by
  unfold resubmitted unprocessedFun
  refine if_congr ?_ rfl rfl
  simp only [Bool.and_eq_true, decide_eq_true_eq]
  tauto

/-- A resubmission resets every due task and changes nothing else. -/
def ResubmitComplete (q : TaskQueue) (timeout now : Int) : Prop :=
  ∀ k, (q.resubmitOlderThan timeout now).find k = (q.find k).map (resubmitted timeout now)

/-- No due task is jumped over, by the timestamp index as it stands before the walk: after a due
task whose timestamp is before `now` either no due task is left up to `now`, or nothing at all
before `now`. -/
def NoneLeftBehind (q : TaskQueue) (timeout now : Int) : Prop :=
  NoneJumped (unprocessedFun timeout now) Task.timestampKey (Task.asInt now) q.second

instance (q : TaskQueue) (timeout now : Int) : Decidable (NoneLeftBehind q timeout now) :=
  inferInstanceAs (Decidable (NoneJumped ..))

theorem resubmitComplete_iff (q : TaskQueue) (timeout now : Int) :
    ResubmitComplete q timeout now ↔ NoneLeftBehind q timeout now := by
  unfold ResubmitComplete NoneLeftBehind
  rw [← MultiIndex.sweep_complete_iff (unprocessedFun timeout now) (fun _ => rfl) q,
    MultiIndex.sweptTo_iff_find]
  simp only [funext (resubmitted_eq timeout now)]
  rfl

/-- From every state of every run: the resubmission is complete exactly when the timestamp index has no
due task that another one would carry the iterator over.

The operations before it, the timeout and the time are any. Whether a task that was left behind is found
by the next resubmission is not established. -/
theorem resubmit_after_run_iff (ops : List QueueOp) (timeout now : Int) :
    ResubmitComplete (runOps ops) timeout now ↔ NoneLeftBehind (runOps ops) timeout now :=
  resubmitComplete_iff (runOps ops) timeout now

/-- With a positive timeout, and clocks that fit an `int`, the walk resets one due task and no
more. -/
theorem noneLeftBehind_iff_one_due {q : TaskQueue} {timeout now : Int} (positive : 0 < timeout)
    (clock : 0 ≤ now ∧ now < 2 ^ 31)
    (clocks : ∀ t ∈ q.tasks, 0 ≤ t.timestamp ∧ t.timestamp < 2 ^ 31) :
    NoneLeftBehind q timeout now ↔
      q.tasks.countP (unprocessedFun timeout now).applies ≤ 1 := by
  have hasInt : ∀ v : Int, 0 ≤ v ∧ v < 2 ^ 31 → Task.asInt v = v := by
    intro v hv
    rw [Task.asInt, Int.bmod_eq_of_le (by omega) (by omega)]
  have below : ∀ t ∈ q.second, (unprocessedFun timeout now).applies t = true →
      t.timestampKey < Task.asInt now := by
    intro t ht hdue
    rw [Task.timestampKey, hasInt _ (clocks t (q.same.mem_iff.mp ht)), hasInt _ clock]
    simp only [unprocessedFun, Bool.and_eq_true, decide_eq_true_eq] at hdue
    omega
  rw [NoneLeftBehind, MultiIndex.noneJumped_iff_countP _ below, q.same.countP_eq]
  rfl

/-! ## Tasks that are being processed -/

/-- An operation that keeps a task that is being processed keeps it so, unless it resets it. -/
theorem processed_apply {q : TaskQueue} {op : QueueOp} {k : TaskKey} {t t' : Task}
    (ht : q.find k = some t) (ht' : (op.apply q).find k = some t') (hprocessed : t.processed = true) :
    t'.processed = true ∨
      ∃ timeout now, op = .resubmitOlderThan timeout now ∧ Resets q timeout now t := by
  rcases apply_cases ht' with ⟨tile, address, priority, now, _, _, rfl⟩ | ⟨u, hu, hcases⟩
  · rw [ht]
    exact .inl hprocessed
  · obtain rfl := Option.some.inj (ht.symm.trans hu)
    rcases hcases with rfl | ⟨_, _, _, rfl⟩ | ⟨timeout, now, hop, hresets, _⟩
    · exact .inl hprocessed
    · exact .inl rfl
    · exact .inr ⟨timeout, now, hop, hresets⟩

/-! ## Two tasks that are due -/

/-- Two metatiles are requested and handed out at time 0. -/
def twoHandedOut : List QueueOp :=
  [.push { x := 0, y := 0, z := 4 } "h" 100 0, .push { x := 8, y := 0, z := 4 } "h" 100 0,
    .setProcessed { x := 0, y := 0, z := 4 }, .setProcessed { x := 8, y := 0, z := 4 }]

/-- At time 300 both are due, and only one is reset. -/
theorem resubmit_forgets_second : ¬ ResubmitComplete (runOps twoHandedOut) 300 300 := by
  rw [resubmitComplete_iff]
  decide

end RenderMq
