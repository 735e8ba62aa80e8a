import RenderMq.Lib.Sweep
import RenderMq.Tile.Protocol
import Mathlib.Order.OrderDual
import Mathlib.Data.Int.Order.Basic

/-!
# The task queue

`task_queue`: a container of tasks, unique by metatile and style, ordered by priority (highest
first) and by timestamp. The container is the library's `MultiIndex`; here are the task, its
identity, its two keys, and the queue's operations, each as the source writes it.

The clock is an argument: `std::time(0)` is read when a task is constructed and when a task is
resubmitted.

Two details of the source are kept because results depend on them. Searching compares `x` and `y`
exactly, so a tile that is not metatile-aligned finds no task. And the timestamp index compares
with `std::less<int>`, so a `time_t` is converted to a 32 bit `int` first (`timestampKey`).
-/

namespace RenderMq

/-- What tells tasks apart: `operator==` on tasks compares these and nothing else. -/
structure TaskKey where
  x : Int
  y : Int
  z : Int
  style : String
  deriving DecidableEq, Repr

def TileProtocol.taskKey (t : TileProtocol) : TaskKey := ⟨t.x, t.y, t.z, t.style⟩

/-- `task`: the metatile to render, and the requests waiting for it with their addresses. -/
structure Task extends TileProtocol where
  priority : Int
  timestamp : Int
  subscribers : List (TileProtocol × String) := []
  processed : Bool := false
  deriving DecidableEq, Repr

namespace Task

def key (t : Task) : TaskKey := t.toTileProtocol.taskKey

/-- The priority index has the greatest priority first. -/
def priorityKey (t : Task) : Intᵒᵈ := OrderDual.toDual t.priority

/-- What `std::less<int>` compares: a `time_t` cut down to 32 bits. -/
def asInt (time : Int) : Int := time.bmod (2 ^ 32)

def timestampKey (t : Task) : Int := asInt t.timestamp

end Task

abbrev TaskQueue := MultiIndex Task.key Task.priorityKey Task.timestampKey

namespace TaskQueue

open MultiIndex (Modifier Rule Jumped)

/-! ## Changes of a task -/

/-- `add_subscriber`: raise the priority if the new request has a higher one, remember the request,
and ask for its format as well. -/
def addSubscriber (tile : TileProtocol) (addr : String) (priority : Int) : Modifier Task.key where
  run t :=
    { t with
      priority := if priority > t.priority then priority else t.priority
      subscribers := t.subscribers ++ [(tile, addr)]
      format := t.format ||| tile.format }
  keeps _ := rfl

/-- `processed_fun`: mark a task as being processed. -/
def processedFun : Modifier Task.key where
  run t := { t with processed := true }
  keeps _ := rfl

/-- What `resubmit_older_than` does with a task (`unprocessed_fun`), and to which tasks. -/
def unprocessedFun (timeout now : Int) : Rule Task.key where
  run t := { t with processed := false, timestamp := now }
  keeps _ := rfl
  applies t :=
    decide (t.status ≠ .cmdRenderBulk) && decide (now - t.timestamp ≥ timeout) && t.processed
  stops _ := Bool.and_false _

/-! ## Operations -/

/-- The task a request is merged into or starts: its metatile, always to be rendered. -/
def metaOf (tile : TileProtocol) : TileProtocol :=
  { tile with x := metaFloor tile.x, y := metaFloor tile.y, status := .cmdRender }

/-- `push`: add a task for the request's metatile, or merge with the one that is there. Answers
whether the task is new. -/
def push (q : TaskQueue) (tile : TileProtocol) (address : String) (priority now : Int) :
    TaskQueue × Bool :=
  let task : Task := { metaOf tile with priority := priority, timestamp := now }
  let result := q.insert task
  (result.1.modify task.key (addSubscriber tile address priority), result.2)

/-- `set_processed`. -/
def setProcessed (q : TaskQueue) (tile : TileProtocol) : TaskQueue :=
  match q.find tile.taskKey with
  | some _ => q.modify tile.taskKey processedFun
  | none => q

/-- `resubmit_older_than`. -/
def resubmitOlderThan (q : TaskQueue) (timeout now : Int) : TaskQueue :=
  q.sweep (unprocessedFun timeout now)

/-- `pop`: remove the task at the front of the priority index, processed or not. -/
def pop (q : TaskQueue) : TaskQueue :=
  match q.first.head? with
  | some t => MultiIndex.erase q t.key
  | none => q

/-- `erase`: remove the task of a tile. Answers whether there was one. -/
def erase (q : TaskQueue) (tile : TileProtocol) : TaskQueue × Bool :=
  match q.find tile.taskKey with
  | some _ => (MultiIndex.erase q tile.taskKey, true)
  | none => (q, false)

/-- `get`: the task of a tile. -/
def get (q : TaskQueue) (tile : TileProtocol) : Option Task := q.find tile.taskKey

/-- `tasks`: all tasks, by priority. -/
def tasks (q : TaskQueue) : List Task := q.first

/-- `front`: the first task by priority that is not being processed. -/
def front (q : TaskQueue) : Option Task := q.first.find? fun t => !t.processed

/-- `size`. -/
def size (q : TaskQueue) : Nat := q.first.length

/-- `count_unprocessed`. -/
def countUnprocessed (q : TaskQueue) : Nat := q.first.countP fun t => !t.processed

/-- `clear`. -/
def clear (_q : TaskQueue) : TaskQueue := MultiIndex.empty

/-! ## What each operation does to what can be found -/

/-- The key of the task a tile belongs to. -/
def metaKey (tile : TileProtocol) : TaskKey := (metaOf tile).taskKey

theorem mem_tasks_iff {q : TaskQueue} {t : Task} : t ∈ q.tasks ↔ q.find t.key = some t :=
  ⟨fun h => MultiIndex.find_of_mem h, fun h => MultiIndex.mem_of_find h⟩

/-- The task that a push leaves for the request's metatile. -/
def pushed (old : Option Task) (tile : TileProtocol) (address : String) (priority now : Int) :
    Task :=
  (addSubscriber tile address priority).run
    (old.getD { metaOf tile with priority := priority, timestamp := now })

theorem find_push (q : TaskQueue) (tile : TileProtocol) (address : String) (priority now : Int)
    (k : TaskKey) :
    (q.push tile address priority now).1.find k =
      if k = metaKey tile then some (pushed (q.find k) tile address priority now)
      else q.find k := by
  have hkey : Task.key { metaOf tile with priority := priority, timestamp := now } =
      metaKey tile := rfl
  simp only [push, MultiIndex.find_modify, MultiIndex.find_insert, hkey, if_true]
  split
  · next h => rw [h]; rfl
  · rfl

theorem push_snd (q : TaskQueue) (tile : TileProtocol) (address : String) (priority now : Int) :
    (q.push tile address priority now).2 = true ↔ q.find (metaKey tile) = none :=
  MultiIndex.insert_snd

theorem find_setProcessed (q : TaskQueue) (tile : TileProtocol) (k : TaskKey) :
    (q.setProcessed tile).find k =
      if k = tile.taskKey then (q.find k).map processedFun.run else q.find k := by
  unfold setProcessed
  split
  · rw [MultiIndex.find_modify]
    split
    · next h => rw [h]
    · rfl
  · next h =>
    split
    · next hk => rw [hk, h, Option.map_none]
    · rfl

theorem find_erase (q : TaskQueue) (tile : TileProtocol) (k : TaskKey) :
    (q.erase tile).1.find k = if k = tile.taskKey then none else q.find k := by
  unfold erase
  split
  · exact MultiIndex.find_erase ..
  · next h =>
    split
    · next hk => rw [hk, h]
    · rfl

/-- A task is resubmitted at most once, and only when it is due. -/
theorem find_resubmitOlderThan (q : TaskQueue) (timeout now : Int) (k : TaskKey) :
    (q.resubmitOlderThan timeout now).find k = q.find k ∨
      ∃ t, q.find k = some t ∧ (unprocessedFun timeout now).applies t = true ∧
        (q.resubmitOlderThan timeout now).find k = some ((unprocessedFun timeout now).run t) :=
  MultiIndex.find_sweep _ q k

/-- A resubmission resets a task: the task is due, and the walk does not jump over it. -/
def Resets (q : TaskQueue) (timeout now : Int) (t : Task) : Prop :=
  (unprocessedFun timeout now).applies t = true ∧
    ¬ Jumped (unprocessedFun timeout now) Task.timestampKey (Task.asInt now) t q.second

instance (q : TaskQueue) (timeout now : Int) (t : Task) : Decidable (Resets q timeout now t) :=
  inferInstanceAs (Decidable (_ ∧ _))

theorem unprocessedFun_timestampKey (timeout now : Int) (t : Task) :
    ((unprocessedFun timeout now).run t).timestampKey = Task.asInt now := rfl

/-- **What a resubmission does to a task.** -/
theorem find_resubmitOlderThan_some {q : TaskQueue} {k : TaskKey} {t : Task} (ht : q.find k = some t)
    (timeout now : Int) :
    (q.resubmitOlderThan timeout now).find k =
      some (if Resets q timeout now t then (unprocessedFun timeout now).run t else t) := by
  have hwalk := find_resubmitOlderThan q timeout now k
  rw [ht] at hwalk
  cases hdue : (unprocessedFun timeout now).applies t with
  | false =>
    rw [if_neg (by simp [Resets, hdue])]
    rcases hwalk with hsame | ⟨u, hu, hdue', _⟩
    · exact hsame
    · obtain rfl := Option.some.inj hu
      rw [hdue] at hdue'
      cases hdue'
  | true =>
    have hreach := MultiIndex.find_sweep_iff _ (unprocessedFun_timestampKey timeout now) ht hdue
    by_cases hjumped :
        Jumped (unprocessedFun timeout now) Task.timestampKey (Task.asInt now) t q.second
    · rw [if_neg fun hresets => hresets.2 hjumped]
      rcases hwalk with hsame | ⟨u, hu, _, hrun⟩
      · exact hsame
      · obtain rfl := Option.some.inj hu
        exact absurd hjumped (hreach.mp hrun)
    · rw [if_pos ⟨hdue, hjumped⟩]
      exact hreach.mpr hjumped

/-- A resubmission keeps all tasks. -/
theorem size_resubmitOlderThan (q : TaskQueue) (timeout now : Int) :
    (q.resubmitOlderThan timeout now).size = q.size := by
  have hperm : ((q.resubmitOlderThan timeout now).first.map Task.key).Perm (q.first.map Task.key) :=
    MultiIndex.sweep_map_perm _ (fun _ => rfl) q
  simpa [size] using hperm.length_eq

/-- `pop` removes the front of the priority index and nothing else. -/
theorem find_pop (q : TaskQueue) (k : TaskKey) :
    q.pop.find k = if q.first.head?.map Task.key = some k then none else q.find k := by
  unfold pop
  cases hh : q.first.head? with
  | none => simp
  | some t =>
    simp only [Option.map_some, Option.some.injEq, MultiIndex.find_erase, eq_comm]

/-! ## The front of the queue -/

theorem front_none_iff (q : TaskQueue) : q.front = none ↔ q.countUnprocessed = 0 := by
  rw [front, countUnprocessed, List.find?_eq_none, List.countP_eq_zero]

theorem countUnprocessed_le_size (q : TaskQueue) : q.countUnprocessed ≤ q.size :=
  List.countP_le_length

/-- Where a task waits, there is a front. -/
theorem exists_front_of_waiting {q : TaskQueue} {t : Task} (ht : t ∈ q.tasks)
    (hwaiting : t.processed = false) : ∃ u, q.front = some u := by
  refine Option.ne_none_iff_exists'.mp fun hnone => ?_
  have hfree := List.find?_eq_none.mp hnone t ht
  simp [hwaiting] at hfree

/-- The front is unprocessed, and nothing unprocessed has a higher priority: the index is in order
of priority and `front` stops at the first. -/
theorem front_spec {q : TaskQueue} {t : Task} (h : q.front = some t) :
    t ∈ q.tasks ∧ t.processed = false ∧
      ∀ u ∈ q.tasks, u.processed = false → u.priority ≤ t.priority := by
  obtain ⟨ht, before, after, hsplit, hbefore⟩ := List.find?_eq_some_iff_append.mp h
  refine ⟨List.mem_of_find?_eq_some h, by simpa using ht, fun u hu hup => ?_⟩
  have hsorted := q.sorted₁
  rw [hsplit] at hsorted
  rw [tasks, hsplit] at hu
  rcases List.mem_append.mp hu with hu | hu
  · have := hbefore u hu
    simp [hup] at this
  · rcases List.mem_cons.mp hu with rfl | hu
    · exact le_refl _
    · have hle := (List.pairwise_cons.mp (List.pairwise_append.mp hsorted).2.1).1 u hu
      exact OrderDual.toDual_le_toDual.mp hle

/-- Handing out the front leaves fewer tasks that wait. -/
theorem countUnprocessed_setProcessed {q : TaskQueue} {u : Task} (hu : q.front = some u) :
    (q.setProcessed u.toTileProtocol).countUnprocessed < q.countUnprocessed := by
  obtain ⟨hmem, hwaiting, _⟩ := front_spec hu
  have hfind : q.find u.taskKey = some u := mem_tasks_iff.mp hmem
  obtain ⟨rest, hold, hnew⟩ := MultiIndex.modify_first_replace hfind processedFun
  rw [setProcessed, hfind, countUnprocessed, countUnprocessed, hold.countP_eq]
  simp only
  rw [hnew.countP_eq, List.countP_cons, List.countP_cons, hwaiting]
  simp [processedFun]

end TaskQueue

end RenderMq
