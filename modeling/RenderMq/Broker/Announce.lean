import RenderMq.Broker.Conservation
import Mathlib.Order.Bounds.Basic

/-!
# When availability is announced

Workers wait for `JOBS AVAILABLE`. A request that raises the highest priority among the unprocessed
tasks is announced to them, with one exception: where it merges into the front task itself.
`takeRequest` compares with the front task through a reference, and after the merge that reads the
priority the request has just given it.

The highest priority is the greatest of the unprocessed tasks', whatever their order in the index.
-/

namespace RenderMq

namespace TaskQueue

/-- The priorities of the unprocessed tasks. -/
def priorities (q : TaskQueue) : Set Int :=
  { p | ∃ t ∈ q.tasks, t.processed = false ∧ t.priority = p }

/-- The highest priority of the unprocessed tasks is greater than it was, if there were any. -/
def Rises (q q' : TaskQueue) : Prop :=
  ∃ p', IsGreatest q'.priorities p' ∧ ∀ p, IsGreatest q.priorities p → p < p'

/-- The front task has the highest priority. -/
theorem isGreatest_of_front {q : TaskQueue} {t : Task} (h : q.front = some t) :
    IsGreatest q.priorities t.priority := by
  obtain ⟨hmem, hfree, hmax⟩ := front_spec h
  refine ⟨⟨t, hmem, hfree, rfl⟩, ?_⟩
  rintro p ⟨u, hu, hufree, rfl⟩
  exact hmax u hu hufree

/-- Where there is an unprocessed task there is a front. -/
theorem exists_front {q : TaskQueue} {p : Int} (h : p ∈ q.priorities) : ∃ t, q.front = some t := by
  obtain ⟨t, hmem, hfree, -⟩ := h
  exact exists_front_of_waiting hmem hfree

/-! ## What a push does to the priorities -/

theorem pushed_priority (t : Task) (tile : TileProtocol) (address : String) (priority now : Int) :
    (pushed (some t) tile address priority now).priority =
      if priority > t.priority then priority else t.priority := rfl

/-- A push adds no priority but that of the request. -/
theorem mem_priorities_push {q : TaskQueue} {tile : TileProtocol} {address : String}
    {priority now p : Int} (h : p ∈ (q.push tile address priority now).1.priorities) :
    p = priority ∨ p ∈ q.priorities := by
  obtain ⟨t, hmem, hfree, rfl⟩ := h
  have hfind := mem_tasks_iff.mp hmem
  rw [find_push] at hfind
  split at hfind
  · have hpushed := Option.some.inj hfind
    cases hold : q.find t.key with
    | none =>
      rw [hold] at hpushed
      rw [← hpushed]
      exact .inl (ite_self priority)
    | some u =>
      rw [hold] at hpushed
      rw [← hpushed] at hfree
      rw [← hpushed, pushed_priority]
      split
      · exact .inl rfl
      · exact .inr ⟨u, MultiIndex.mem_of_find hold, hfree, rfl⟩
  · exact .inr ⟨t, mem_tasks_iff.mpr hfind, hfree, rfl⟩

/-- Nothing rises above the front but a request of a higher priority. -/
theorem not_rises {q : TaskQueue} {t : Task} (hfront : q.front = some t) {tile : TileProtocol}
    {address : String} {priority now : Int} (hle : priority ≤ t.priority) :
    ¬ q.Rises (q.push tile address priority now).1 := by
  rintro ⟨p, hp, hrise⟩
  have hgreatest := isGreatest_of_front hfront
  have hlt := hrise _ hgreatest
  rcases mem_priorities_push hp.1 with rfl | hold
  · omega
  · have := hgreatest.2 hold
    omega

/-- Merging a higher priority into the front task is a rise. -/
theorem rises_of_merge {q : TaskQueue} {t : Task} (hfront : q.front = some t) {tile : TileProtocol}
    (hmerge : t.key = metaKey tile) (address : String) {priority : Int} (now : Int)
    (hlt : t.priority < priority) : q.Rises (q.push tile address priority now).1 := by
  obtain ⟨hmem, hfree, -⟩ := front_spec hfront
  have hfind : (q.push tile address priority now).1.find t.key =
      some (pushed (some t) tile address priority now) := by
    rw [find_push, if_pos hmerge, mem_tasks_iff.mp hmem]
  have hpriority : priority ∈ (q.push tile address priority now).1.priorities :=
    ⟨_, MultiIndex.mem_of_find hfind, hfree, if_pos hlt⟩
  obtain ⟨t', hfront'⟩ := exists_front hpriority
  have hgreatest := isGreatest_of_front hfront'
  refine ⟨t'.priority, hgreatest, fun p hp => ?_⟩
  rw [hp.unique (isGreatest_of_front hfront)]
  exact hlt.trans_le (hgreatest.2 hpriority)

end TaskQueue

namespace Broker

/-! ## The announcement of a rise -/

/-- The broker has sent one message more, that a task of the highest priority is available. -/
def Announced (b b' : Broker) : Prop :=
  ∃ t, b'.queue.front = some t ∧
    b'.sent = b.sent ++
      [.jobsAvailable (.ofInt 32 t.priority) (.ofNat 64 b'.queue.countUnprocessed)]

/-- A request that raises the highest priority of the unprocessed tasks, or brings the first of
them, is announced. -/
def AnnouncesRise (b : Broker) : BrokerEvent → Prop
  | .request clientAddress tile now =>
    let b' := b.takeRequest clientAddress tile now
    b.queue.Rises b'.queue → Announced b b'
  | _ => True

/-- The request is for the metatile of the front task, and of a higher priority than that has. -/
def RaisesFront (b : Broker) : BrokerEvent → Prop
  | .request _ tile _ =>
    ∃ t, b.queue.front = some t ∧ t.key = TaskQueue.metaKey tile ∧
      t.priority < requestPriority tile
  | _ => False

/-- What `takeRequest` does with the front task that it has looked at. -/
theorem takeRequest_of_front {b : Broker} {t : Task} (hfront : b.queue.front = some t)
    (clientAddress : String) (tile : TileProtocol) (now : Int) :
    b.takeRequest clientAddress tile now =
      let b' : Broker :=
        { b with queue := (b.queue.push tile clientAddress (requestPriority tile) now).1 }
      if t.key = TaskQueue.metaKey tile then b'
      else if t.priority < requestPriority tile then b'.publishAvailability else b' := by
  have hfind : b.queue.find t.key = some t :=
    TaskQueue.mem_tasks_iff.mp (TaskQueue.front_spec hfront).1
  -- what the reference reads after the push
  have hread : (b.queue.push tile clientAddress (requestPriority tile) now).1.get
      t.toTileProtocol = if t.key = TaskQueue.metaKey tile then
        some (TaskQueue.pushed (some t) tile clientAddress (requestPriority tile) now)
      else some t := by
    rw [← hfind]
    exact TaskQueue.find_push ..
  simp only [takeRequest, hfront, Option.bind_some, hread]
  by_cases hmerge : t.key = TaskQueue.metaKey tile
  · -- it is the merged task, by now at least of the priority of the request
    have hge : ¬ (TaskQueue.pushed (some t) tile clientAddress
        (requestPriority tile) now).priority < requestPriority tile := by
      rw [TaskQueue.pushed_priority]
      split <;> omega
    simp only [if_pos hmerge, if_neg hge]
  · simp only [if_neg hmerge]

theorem announced_publishAvailability {b b' : Broker} (hsent : b'.sent = b.sent)
    (h : b.queue.Rises b'.queue) : Announced b b'.publishAvailability := by
  obtain ⟨p, hp, -⟩ := h
  obtain ⟨t, ht⟩ := TaskQueue.exists_front hp.1
  simp only [publishAvailability, ht]
  exact ⟨t, ht, by rw [hsent]⟩

/-- A rise is announced unless the request is merged into the front task. -/
theorem announcesRise_iff (b : Broker) (e : BrokerEvent) :
    AnnouncesRise b e ↔ ¬ RaisesFront b e := by
  cases e with
  | request clientAddress tile now =>
    simp only [AnnouncesRise, RaisesFront, takeRequest_queue]
    cases hfront : b.queue.front with
    | none =>
      -- nothing to compare with: whatever there is afterwards is announced
      refine iff_of_true (fun hrise => ?_) (by simp)
      simp only [takeRequest, hfront, Option.bind_none]
      exact announced_publishAvailability rfl hrise
    | some t =>
      rw [takeRequest_of_front hfront]
      simp only [Option.some.injEq, exists_eq_left']
      by_cases hmerge : t.key = TaskQueue.metaKey tile
      · simp only [hmerge, if_true, true_and]
        by_cases hlt : t.priority < requestPriority tile
        · refine iff_of_false (fun h => ?_) (not_not_intro hlt)
          obtain ⟨_, -, hsent⟩ := h (TaskQueue.rises_of_merge hfront hmerge clientAddress now hlt)
          exact absurd hsent.symm (by simp)
        · exact iff_of_true (fun hrise => absurd hrise (TaskQueue.not_rises hfront (not_lt.mp hlt))) hlt
      · simp only [hmerge, if_false, false_and, not_false_eq_true, iff_true]
        intro hrise
        have hlt : t.priority < requestPriority tile := by
          by_contra hge
          exact TaskQueue.not_rises hfront (not_lt.mp hge) hrise
        rw [if_pos hlt]
        exact announced_publishAvailability rfl hrise
  | _ => exact iff_of_true trivial id

/-- In every run, the rises are announced exactly when no request raises the front task.

A rise is a request after which the highest priority of the unprocessed tasks is higher, or with which
the first of them comes. Requests, workers and monitors come in any order. That an announcement reaches
a worker is not part of this, and that a heartbeat repeats it does not count. -/
theorem rise_is_announced_iff (config : BrokerConfig) (events : List BrokerEvent) :
    Run.EveryStep (step config) AnnouncesRise start events ↔
      Run.EveryStep (step config) (fun b e => ¬ RaisesFront b e) start events := by
  have hsteps : AnnouncesRise = fun b e => ¬ RaisesFront b e :=
    funext₂ fun b e => propext (announcesRise_iff b e)
  rw [hsteps]

/-- A metatile is asked for in bulk, and then with a high priority. -/
def bulkThenPrio : List BrokerEvent :=
  [.request "handler" { status := .cmdRenderBulk } 0,
   .request "handler" { status := .cmdRenderPrio } 0]

/-- The second request raises the highest priority from 0 to 150, and no worker is told. -/
theorem bulkThenPrio_not_announced :
    ¬ Run.EveryStep (step {}) AnnouncesRise start bulkThenPrio := by
  intro h
  have hsecond := (h.2 _ rfl).1
  exact (announcesRise_iff _ _).mp hsecond ⟨_, rfl, rfl, by decide⟩

end Broker

end RenderMq
