import RenderMq.Lib.Countdown

/-!
# The task monitor

The thread beside the broker that tells it when to send its heartbeat and when to look for zombies.
Two counters say how many seconds it is to the next command of each kind; the thread sleeps for the
smaller of the two. A command is answered at once, and `sleep` takes as long as it is told to.

**What is proved.** After any number of rounds the heartbeats were sent at the multiples of their
interval, the resubmissions at the multiples of theirs but zero, each once, and no counter has gone
below zero (`task_monitor_schedule`).
-/

namespace RenderMq

open Countdown

/-- `task_monitor`, with the intervals it is made with. -/
structure TaskMonitor where
  heartbeatInterval : BitVec 32
  resubmitInterval : BitVec 32

/-- The variables of the loop, the time since it began, and what was sent when. -/
structure MonitorState where
  time : Nat
  nextHeartbeat : BitVec 32
  nextResubmit : BitVec 32
  sent : List (Nat × String)

namespace TaskMonitor

variable (m : TaskMonitor) (s : MonitorState)

def start : MonitorState := ⟨0, 0#32, m.resubmitInterval, []⟩

def heartbeat : MonitorState :=
  if s.nextHeartbeat = 0#32 then
    { s with sent := s.sent ++ [(s.time, "HEARTBEAT")], nextHeartbeat := m.heartbeatInterval }
  else s

def resubmit : MonitorState :=
  if s.nextResubmit = 0#32 then
    { s with
      sent := s.sent ++ [(s.time, "RESUBMIT ZOMBIE TASKS")], nextResubmit := m.resubmitInterval }
  else s

/-- The commands of a round. -/
def commands : MonitorState := m.resubmit (m.heartbeat s)

/-- `std::min`. -/
def sleepInterval : BitVec 32 :=
  if s.nextResubmit < s.nextHeartbeat then s.nextResubmit else s.nextHeartbeat

def sleep : MonitorState :=
  { s with
    nextHeartbeat := s.nextHeartbeat - sleepInterval s
    nextResubmit := s.nextResubmit - sleepInterval s
    time := s.time + (sleepInterval s).toNat }

def round : MonitorState := sleep (m.commands s)

def rounds : Nat → MonitorState
  | 0 => m.start
  | n + 1 => m.round (rounds n)

/-- When a command was sent. -/
def times (command : String) (sent : List (Nat × String)) : List Nat :=
  (sent.filter fun e => decide (e.2 = command)).map Prod.fst

/-! ## What a round does -/

theorem commands_time : (m.commands s).time = s.time := by
  unfold commands resubmit heartbeat
  split <;> split <;> rfl

theorem commands_nextHeartbeat : (m.commands s).nextHeartbeat =
    if s.nextHeartbeat = 0#32 then m.heartbeatInterval else s.nextHeartbeat := by
  unfold commands resubmit heartbeat
  split <;> split <;> rfl

theorem commands_nextResubmit : (m.commands s).nextResubmit =
    if s.nextResubmit = 0#32 then m.resubmitInterval else s.nextResubmit := by
  unfold commands resubmit heartbeat
  split <;> split <;> simp_all

theorem commands_sent : (m.commands s).sent = s.sent ++
    ((if s.nextHeartbeat = 0#32 then [(s.time, "HEARTBEAT")] else []) ++
      if s.nextResubmit = 0#32 then [(s.time, "RESUBMIT ZOMBIE TASKS")] else []) := by
  unfold commands resubmit heartbeat
  split <;> split <;> simp_all

theorem times_append (command : String) (sent more : List (Nat × String)) :
    times command (sent ++ more) = times command sent ++ times command more := by
  rw [times, List.filter_append, List.map_append]
  rfl

/-- A round sends each command at most once, when its counter is at zero. -/
theorem times_commands_sent :
    times "HEARTBEAT" (m.commands s).sent =
      times "HEARTBEAT" s.sent ++ (if s.nextHeartbeat = 0#32 then [s.time] else []) ∧
    times "RESUBMIT ZOMBIE TASKS" (m.commands s).sent =
      times "RESUBMIT ZOMBIE TASKS" s.sent ++
        if s.nextResubmit = 0#32 then [s.time] else [] := by
  rw [commands_sent, times_append, times_append, times_append, times_append]
  constructor
  · split <;> split <;> simp [times]
  · split <;> split <;> simp [times]

/-! ## What the counters say -/

variable {m s}

/-- Before a round: the counters stand at the times to the next commands, and the commands so far
were sent when they were due. -/
structure OnTime (m : TaskMonitor) (s : MonitorState) : Prop where
  heartbeat : Next (m.heartbeatInterval.toNat ∣ ·) s.time s.nextHeartbeat.toNat
  resubmit : Next (fun t => 0 < t ∧ m.resubmitInterval.toNat ∣ t) s.time s.nextResubmit.toNat
  heartbeats : times "HEARTBEAT" s.sent =
    (List.range s.time).filter (m.heartbeatInterval.toNat ∣ ·)
  resubmits : times "RESUBMIT ZOMBIE TASKS" s.sent =
    (List.range s.time).filter fun t => 0 < t ∧ m.resubmitInterval.toNat ∣ t

/-- Once the commands are sent: both are next due later. -/
structure Armed (m : TaskMonitor) (s : MonitorState) : Prop where
  heartbeat : After (m.heartbeatInterval.toNat ∣ ·) s.time s.nextHeartbeat.toNat
  resubmit : After (fun t => 0 < t ∧ m.resubmitInterval.toNat ∣ t) s.time s.nextResubmit.toNat

theorem onTime_start (hr : 0#32 < m.resubmitInterval) : OnTime m m.start where
  heartbeat := ⟨Nat.dvd_zero _, fun i hi => absurd hi (Nat.not_lt_zero i)⟩
  resubmit := next_pos_dvd hr
  heartbeats := rfl
  resubmits := rfl

/-- The counter of a command, set again if it was at zero. -/
theorem toNat_rearmed (c p : BitVec 32) :
    (if c = 0#32 then p else c).toNat = if c.toNat = 0 then p.toNat else c.toNat := by
  by_cases hc : c = 0#32
  · rw [if_pos hc, if_pos (by rw [hc]; rfl)]
  · have hne : c.toNat ≠ 0 := fun h => hc (BitVec.eq_of_toNat_eq h)
    rw [if_neg hc, if_neg hne]

theorem OnTime.armed (h : OnTime m s) (hh : 0#32 < m.heartbeatInterval)
    (hr : 0#32 < m.resubmitInterval) : Armed m (m.commands s) where
  heartbeat := by
    rw [commands_time, commands_nextHeartbeat, toNat_rearmed]
    exact h.heartbeat.rearm (every_dvd hh)
  resubmit := by
    rw [commands_time, commands_nextResubmit, toNat_rearmed]
    exact h.resubmit.rearm (every_pos_dvd hr)

/-! ## The sleep -/

/-- Neither counter goes below zero. -/
theorem sleepInterval_le (s : MonitorState) :
    sleepInterval s ≤ s.nextHeartbeat ∧ sleepInterval s ≤ s.nextResubmit := by
  unfold sleepInterval
  split
  · next hlt => exact ⟨BitVec.le_of_lt hlt, BitVec.le_refl _⟩
  · next hge => exact ⟨BitVec.le_refl _, BitVec.not_lt.mp hge⟩

theorem Armed.sleepInterval_pos (h : Armed m s) : 0#32 < sleepInterval s := by
  unfold sleepInterval
  split
  · exact h.resubmit.pos
  · exact h.heartbeat.pos

/-- The counters after the sleep, as numbers. -/
theorem toNat_sleep (s : MonitorState) :
    (sleep s).nextHeartbeat.toNat = s.nextHeartbeat.toNat - (sleepInterval s).toNat ∧
      (sleep s).nextResubmit.toNat = s.nextResubmit.toNat - (sleepInterval s).toNat := by
  obtain ⟨hh, hr⟩ := sleepInterval_le s
  exact ⟨BitVec.toNat_sub_of_le hh, BitVec.toNat_sub_of_le hr⟩

/-- A command is sent when its counter is at zero, which is when it is due. -/
theorem times_of_next {due : Nat → Prop} [DecidablePred due] {t d : Nat} {c p : BitVec 32}
    (hnext : Next due t c.toNat) (hafter : After due t (if c = 0#32 then p else c).toNat)
    (hd : 0 < d) (hdc : d ≤ (if c = 0#32 then p else c).toNat) :
    (List.range t).filter (due ·) ++ (if c = 0#32 then [t] else []) =
      (List.range (t + d)).filter (due ·) := by
  rw [hafter.filter_range_add hd hdc]
  have hiff : c = 0#32 ↔ due t := by
    rw [hnext.due_iff, ← BitVec.toNat_inj]
    rfl
  simp only [hiff]

/-- **One round.** -/
theorem OnTime.round (h : OnTime m s) (hh : 0#32 < m.heartbeatInterval)
    (hr : 0#32 < m.resubmitInterval) : OnTime m (m.round s) := by
  have harmed := h.armed hh hr
  have hpos := harmed.sleepInterval_pos
  obtain ⟨hleHeartbeat, hleResubmit⟩ := sleepInterval_le (m.commands s)
  obtain ⟨htoHeartbeat, htoResubmit⟩ := toNat_sleep (m.commands s)
  obtain ⟨hheartbeats, hresubmits⟩ := times_commands_sent m s
  refine ⟨?heartbeat, ?resubmit, ?heartbeats, ?resubmits⟩
  case heartbeat =>
    rw [TaskMonitor.round, htoHeartbeat]
    exact harmed.heartbeat.elapse hpos hleHeartbeat
  case resubmit =>
    rw [TaskMonitor.round, htoResubmit]
    exact harmed.resubmit.elapse hpos hleResubmit
  case heartbeats =>
    have hafter := harmed.heartbeat
    rw [commands_nextHeartbeat] at hafter hleHeartbeat
    rw [commands_time] at hafter
    have htimes := times_of_next h.heartbeat hafter hpos hleHeartbeat
    rw [← h.heartbeats, ← hheartbeats, ← commands_time m s] at htimes
    exact htimes
  case resubmits =>
    have hafter := harmed.resubmit
    rw [commands_nextResubmit] at hafter hleResubmit
    rw [commands_time] at hafter
    have htimes := times_of_next h.resubmit hafter hpos hleResubmit
    rw [← h.resubmits, ← hresubmits, ← commands_time m s] at htimes
    exact htimes

/-- **Any number of rounds.** -/
theorem onTime_rounds (hh : 0#32 < m.heartbeatInterval) (hr : 0#32 < m.resubmitInterval) (n : Nat) :
    OnTime m (m.rounds n) := by
  induction n with
  | zero => exact onTime_start hr
  | succ n ih => exact ih.round hh hr

/-- Every round takes a second at least. -/
theorem le_time_rounds (hh : 0#32 < m.heartbeatInterval) (hr : 0#32 < m.resubmitInterval) (n : Nat) :
    n ≤ (m.rounds n).time := by
  induction n with
  | zero => exact Nat.zero_le _
  | succ n ih =>
    have hpos : 0 < (sleepInterval (m.commands (m.rounds n))).toNat :=
      ((onTime_rounds hh hr n).armed hh hr).sleepInterval_pos
    have htime : (m.rounds (n + 1)).time =
        (m.rounds n).time + (sleepInterval (m.commands (m.rounds n))).toNat := by
      rw [← commands_time m (m.rounds n)]
      rfl
    omega

/-- **The schedule.** After any number of rounds heartbeats were sent at the multiples of their
interval, and resubmissions at the multiples of theirs but zero. In each round the counters are at least
what is taken off them, which is not zero.

Both intervals are positive. The time is what was slept in the rounds before: how long a command takes,
and whether a sleep is cut short, is not part of this. -/
theorem task_monitor_schedule (m : TaskMonitor) (hh : 0#32 < m.heartbeatInterval)
    (hr : 0#32 < m.resubmitInterval) (n : Nat) :
    times "HEARTBEAT" (m.rounds n).sent =
        (List.range (m.rounds n).time).filter (m.heartbeatInterval.toNat ∣ ·) ∧
      times "RESUBMIT ZOMBIE TASKS" (m.rounds n).sent =
        (List.range (m.rounds n).time).filter (fun t => 0 < t ∧ m.resubmitInterval.toNat ∣ t) ∧
      n ≤ (m.rounds n).time ∧
      sleepInterval (m.commands (m.rounds n)) ≤ (m.commands (m.rounds n)).nextHeartbeat ∧
      sleepInterval (m.commands (m.rounds n)) ≤ (m.commands (m.rounds n)).nextResubmit ∧
      0#32 < sleepInterval (m.commands (m.rounds n)) := by
  have hontime := onTime_rounds hh hr n
  obtain ⟨hleHeartbeat, hleResubmit⟩ := sleepInterval_le (m.commands (m.rounds n))
  exact ⟨hontime.heartbeats, hontime.resubmits, le_time_rounds hh hr n, hleHeartbeat, hleResubmit,
    (hontime.armed hh hr).sleepInterval_pos⟩

/-- Every two and every three seconds: at the sixth second both commands are sent. -/
theorem task_monitor_schedule_two_three :
    times "HEARTBEAT" ((TaskMonitor.mk 2#32 3#32).rounds 5).sent = [0, 2, 4, 6] ∧
      times "RESUBMIT ZOMBIE TASKS" ((TaskMonitor.mk 2#32 3#32).rounds 5).sent = [3, 6] := by
  obtain ⟨hheartbeats, hresubmits, -⟩ :=
    task_monitor_schedule ⟨2#32, 3#32⟩ (by decide) (by decide) 5
  exact ⟨hheartbeats, hresubmits⟩

end TaskMonitor

end RenderMq
