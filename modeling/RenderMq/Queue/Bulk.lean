import RenderMq.Lib.Run
import RenderMq.Queue.Resubmit

/-!
# Bulk tasks and resubmission

`resubmit_older_than` is documented to leave bulk requests alone, and tests the status of the stored
task. But `push` stores every task with the status `cmdRender` (`allRender_apply`), so the test lets
all tasks through.

**What is proved.** A run makes no processed bulk task available again exactly when no resubmission
of it finds one that is due and that its walk reaches (`bulkStays_iff`).
-/

namespace RenderMq

open TaskQueue
open MultiIndex (Jumped)

/-- One operation as a step of a run. -/
def stepOp (q : TaskQueue) (op : QueueOp) : Option TaskQueue := some (op.apply q)

/-- All that wait for a task asked for it in bulk. -/
def BulkOnly (t : Task) : Prop := ∀ s ∈ t.subscribers, s.1.status = .cmdRenderBulk

/-- An operation makes no processed bulk task available again by a resubmission. -/
def BulkStays (q : TaskQueue) : QueueOp → Prop
  | .resubmitOlderThan timeout now =>
    ∀ k t, q.find k = some t → t.processed = true → BulkOnly t →
      ∃ t', (q.resubmitOlderThan timeout now).find k = some t' ∧ t'.processed = true
  | _ => True

/-- A resubmission comes before any processed bulk task is due, except for those its walk jumps
over. -/
def NoBulkDue (q : TaskQueue) : QueueOp → Prop
  | .resubmitOlderThan timeout now =>
    ∀ k t, q.find k = some t → t.processed = true → BulkOnly t →
      now - t.timestamp < timeout ∨
        Jumped (unprocessedFun timeout now) Task.timestampKey (Task.asInt now) t q.second
  | _ => True

/-- Every task is to be rendered. -/
def AllRender (q : TaskQueue) : Prop := ∀ k t, q.find k = some t → t.status = .cmdRender

/-- A push starts a task that is to be rendered, whatever was asked for, and merging keeps it. -/
theorem pushed_status {old : Option Task} (hold : ∀ t, old = some t → t.status = .cmdRender)
    (tile : TileProtocol) (address : String) (priority now : Int) :
    (pushed old tile address priority now).status = .cmdRender := by
  cases old with
  | none => rfl
  | some t => exact hold t rfl

/-- No operation stores another status. -/
theorem allRender_apply {q : TaskQueue} (h : AllRender q) (op : QueueOp) :
    AllRender (op.apply q) := by
  intro k t' ht'
  rcases apply_cases ht' with ⟨tile, address, priority, now, _, _, rfl⟩ | ⟨t, ht, hcases⟩
  · exact pushed_status (h k) tile address priority now
  · rcases hcases with rfl | ⟨_, _, _, rfl⟩ | ⟨_, _, _, _, rfl⟩
    · exact h k t' ht
    · exact h k t ht
    · exact h k t ht

/-- A resubmission resets a processed task that is to be rendered when the task is old enough: the
exclusion of bulk requests does not see it. -/
theorem resets_iff_of_render {q : TaskQueue} {t : Task} (hrender : t.status = .cmdRender)
    (hprocessed : t.processed = true) (timeout now : Int) :
    Resets q timeout now t ↔ timeout ≤ now - t.timestamp ∧
      ¬ Jumped (unprocessedFun timeout now) Task.timestampKey (Task.asInt now) t q.second := by
  have happlies : (unprocessedFun timeout now).applies t = true ↔ timeout ≤ now - t.timestamp := by
    simp [unprocessedFun, hrender, hprocessed]
  rw [Resets, happlies]

/-- A processed task stays processed when a resubmission does not reset it. -/
theorem stays_processed_iff {q : TaskQueue} {k : TaskKey} {t : Task} (ht : q.find k = some t)
    (hprocessed : t.processed = true) (timeout now : Int) :
    (∃ t', (q.resubmitOlderThan timeout now).find k = some t' ∧ t'.processed = true) ↔
      ¬ Resets q timeout now t := by
  rw [find_resubmitOlderThan_some ht]
  by_cases hresets : Resets q timeout now t
  · refine iff_of_false ?_ (not_not.mpr hresets)
    rintro ⟨t', ht', hp⟩
    rw [if_pos hresets] at ht'
    obtain rfl := Option.some.inj ht'
    cases hp
  · exact iff_of_true ⟨t, by rw [if_neg hresets], hprocessed⟩ hresets

/-- One resubmission. -/
theorem bulkStays_iff_noBulkDue {q : TaskQueue} (h : AllRender q) (op : QueueOp) :
    BulkStays q op ↔ NoBulkDue q op := by
  cases op with
  | resubmitOlderThan timeout now =>
    refine forall₅_congr fun k t ht hprocessed _ => ?_
    rw [stays_processed_iff ht hprocessed, resets_iff_of_render (h k t ht) hprocessed, not_and_or,
      not_le, not_not]
  | _ => exact Iff.rfl

/-- **Any run.** Bulk tasks that are being processed stay so exactly when no resubmission finds one that
is due.

A task is a bulk task while all that wait for it asked in bulk; the queue itself does not keep what they
asked for. The operations are any, with any timeouts and times. Tasks that the walk over the timestamps
jumps over stay as they are, and the condition leaves them out. -/
theorem bulkStays_iff (ops : List QueueOp) :
    Run.EveryStep stepOp BulkStays MultiIndex.empty ops ↔
      Run.EveryStep stepOp NoBulkDue MultiIndex.empty ops := by
  have hkeep : ∀ q op q', AllRender q → BulkStays q op → stepOp q op = some q' → AllRender q' := by
    intro q op q' hq _ hstep
    obtain rfl := Option.some.inj hstep
    exact allRender_apply hq op
  refine Run.everyStep_iff (fun q op hq => bulkStays_iff_noBulkDue hq op) hkeep ops _ ?_
  intro k t ht
  cases ht

/-- A request for a tile in bulk. -/
def bulkTile : TileProtocol := { x := 0, y := 0, z := 4, status := .cmdRenderBulk }

/-- Its task, made at time 0 and handed out. -/
def bulkTask : Task :=
  { metaOf bulkTile with
    priority := 0, timestamp := 0, subscribers := [(bulkTile, "h")], processed := true }

def bulkHandedOut : List QueueOp := [.push bulkTile "h" 0 0, .setProcessed bulkTile]

/-- At time 300 it is available again. -/
theorem bulk_resubmitted :
    ¬ ∀ ops : List QueueOp, Run.EveryStep stepOp BulkStays MultiIndex.empty ops := by
  intro h
  have hstays := (h (bulkHandedOut ++ [.resubmitOlderThan 300 300])).at_event bulkHandedOut rfl
  have htask : (runOps bulkHandedOut).find (metaKey bulkTile) = some bulkTask := by decide
  have hbulk : BulkOnly bulkTask := by simp [BulkOnly, bulkTask, bulkTile]
  have hkept := hstays (metaKey bulkTile) bulkTask htask rfl hbulk
  refine (stays_processed_iff htask rfl 300 300).mp hkept ?_
  decide

end RenderMq
