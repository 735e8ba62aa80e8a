import RenderMq.Worker.Communicator

/-!
# The best announced broker

A broker announces a `uint32_t` priority and a `uint64_t` queue length. The communicator stores both
as an `int` and looks for the best, starting from a status meant to be worse than any other. Both
conversions lose something: what does not fit becomes negative or small, and two announcements may
become the same status, or the worst one.

**What is proved.** The broker tried is one with the greatest announcement, in whatever order the map
is walked, exactly when the greatest announcement is still the greatest as a status
(`triesBest_iff`). It is when everything announced fits an `int` (`keepsItsPlace_of_fits`). What the
communicator stores is always the statuses of announcements (`stores_run`).
-/

namespace RenderMq

/-- What a broker announces. -/
structure Announcement where
  maxPriority : BitVec 32
  qsize : BitVec 64
  deriving DecidableEq, Repr

namespace Announcement

/-- The status that is stored. -/
def status (x : Announcement) : BrokerStatus := .announced x.maxPriority x.qsize

/-- By priority and then by queue length, as they are announced. -/
def rank (x : Announcement) : ℕ ×ₗ ℕ := toLex (x.maxPriority.toNat, x.qsize.toNat)

theorem rank_injective {x y : Announcement} (h : x.rank = y.rank) : x = y := by
  obtain ⟨hpriority, hqsize⟩ := Prod.mk.inj (toLex.injective h)
  obtain ⟨xp, xq⟩ := x
  obtain ⟨yp, yq⟩ := y
  rw [Announcement.mk.injEq]
  exact ⟨BitVec.eq_of_toNat_eq hpriority, BitVec.eq_of_toNat_eq hqsize⟩

end Announcement

/-- The announcements that are pending, one for each broker. -/
abbrev Announcements := AList fun _ : BrokerId => Announcement

namespace Announcements

/-- An announcement as it is stored. -/
def stored (entry : Sigma fun _ : BrokerId => Announcement) : Sigma fun _ : BrokerId => BrokerStatus :=
  ⟨entry.1, entry.2.status⟩

/-- `brokers_with_jobs` after these announcements. -/
def recorded (a : Announcements) : BrokersWithJobs where
  entries := a.entries.map stored
  nodupKeys := by
    have hkeys : (a.entries.map stored).keys = a.entries.keys := by
      rw [List.keys, List.keys, List.map_map]
      rfl
    rw [List.NodupKeys, hkeys]
    exact a.nodupKeys

/-- A broker with an announcement that no other's exceeds. -/
def Greatest (a : Announcements) (b : BrokerId) : Prop :=
  ∃ x, a.lookup b = some x ∧ ∀ b' y, a.lookup b' = some y → y.rank ≤ x.rank

/-- The broker tried is one with the greatest announcement, if there are any. -/
def TriesBest (iteration : Iteration) (a : Announcements) : Prop :=
  (highestPriorityBroker iteration a.recorded = none ↔ a.entries = []) ∧
    ∀ b, highestPriorityBroker iteration a.recorded = some b → a.Greatest b

/-- The greatest announcement is better than the worst status and than every other announcement, as
they are stored. -/
def KeepsItsPlace (a : Announcements) : Prop :=
  ∀ b x, a.lookup b = some x → (∀ b' y, a.lookup b' = some y → y.rank ≤ x.rank) →
    x.status.better .worst = true ∧
      ∀ b' y, a.lookup b' = some y → y ≠ x → x.status.better y.status = true

/-! ## What is stored -/

theorem mem_entries {a : Announcements} {iteration : Iteration}
    {s : Sigma fun _ : BrokerId => BrokerStatus} :
    s ∈ iteration.entries a.recorded ↔ ∃ x, a.lookup s.1 = some x ∧ x.status = s.2 := by
  rw [(iteration.perm a.recorded).mem_iff, recorded, List.mem_map]
  constructor
  · rintro ⟨entry, hentry, rfl⟩
    exact ⟨entry.2, AList.mem_lookup_iff.mpr hentry, rfl⟩
  · rintro ⟨x, hx, hs⟩
    refine ⟨⟨s.1, x⟩, AList.mem_lookup_iff.mp hx, ?_⟩
    rw [stored, hs]

theorem recorded_erase (a : Announcements) (b : BrokerId) :
    recorded (a.erase b) = (recorded a).erase b := by
  refine AList.ext ?_
  simp only [recorded, AList.erase, List.kerase, List.eraseP_map]
  rfl

theorem recorded_insert (a : Announcements) (b : BrokerId) (x : Announcement) :
    recorded (a.insert b x) = (recorded a).insert b x.status := by
  refine AList.ext ?_
  simp only [recorded, AList.insert, List.kinsert, List.kerase, List.eraseP_map]
  rfl

theorem exists_entry {a : Announcements} {b : BrokerId} {x : Announcement}
    (hx : a.lookup b = some x) (iteration : Iteration) :
    ⟨b, x.status⟩ ∈ iteration.entries a.recorded :=
  mem_entries.mpr ⟨x, hx, rfl⟩

theorem lookup_recorded {a : Announcements} {b : BrokerId} {x : Announcement}
    (hx : a.lookup b = some x) : a.recorded.lookup b = some x.status :=
  AList.mem_lookup_iff.mpr (List.mem_map.mpr ⟨_, AList.mem_lookup_iff.mp hx, rfl⟩)

/-- Where there are announcements one of them is the greatest. -/
theorem exists_greatest {a : Announcements} (h : a.entries ≠ []) : ∃ b, a.Greatest b := by
  obtain ⟨s, hs, hmax⟩ := Finset.exists_max_image a.entries.toFinset (fun s => s.2.rank)
    (List.toFinset_nonempty_iff _ |>.mpr h)
  rw [List.mem_toFinset] at hs
  refine ⟨s.1, s.2, AList.mem_lookup_iff.mpr hs, fun b y hy => ?_⟩
  exact hmax ⟨b, y⟩ (List.mem_toFinset.mpr (AList.mem_lookup_iff.mp hy))

/-- Only one announcement is the greatest, though several brokers may make it. -/
theorem Greatest.eq {a : Announcements} {b c : BrokerId} (h : a.Greatest c) {x y : Announcement}
    (hy : a.lookup c = some y) (hx : a.lookup b = some x)
    (hmax : ∀ b' z, a.lookup b' = some z → z.rank ≤ x.rank) : y = x := by
  obtain ⟨z, hz, hzmax⟩ := h
  obtain rfl : y = z := Option.some.inj (hy.symm.trans hz)
  exact Announcement.rank_injective (le_antisymm (hmax c y hy) (hzmax b x hx))

/-! ## Which broker is tried -/

/-- A greatest announcement that keeps its place is found. -/
theorem triesBest_of_keepsItsPlace {a : Announcements} (h : a.KeepsItsPlace)
    (iteration : Iteration) : a.TriesBest iteration := by
  rw [TriesBest, highestPriorityBroker]
  rcases bestOf_spec none .worst (iteration.entries a.recorded) with
    ⟨hnone, hworst⟩ | ⟨s, hs, hsome, _, hbest⟩
  · rw [hnone]
    refine ⟨iff_of_true rfl ?_, fun b hb => by cases hb⟩
    by_contra hpending
    obtain ⟨b, x, hx, hmax⟩ := exists_greatest hpending
    have hbetter := (h b x hx hmax).1
    rw [hworst _ (exists_entry hx iteration)] at hbetter
    cases hbetter
  · obtain ⟨y, hy, hys⟩ := mem_entries.mp hs
    have hpending : a.entries ≠ [] := List.ne_nil_of_mem (AList.mem_lookup_iff.mp hy)
    rw [hsome]
    refine ⟨iff_of_false (by simp) hpending, fun c hc => ?_⟩
    obtain rfl := Option.some.inj hc
    obtain ⟨b, x, hx, hmax⟩ := exists_greatest hpending
    by_cases hyx : y = x
    · exact ⟨y, hy, hyx ▸ hmax⟩
    · have hbetter := (h b x hx hmax).2 s.1 y hy hyx
      rw [hys, hbest _ (exists_entry hx iteration)] at hbetter
      cases hbetter

end Announcements

/-- Walk a map from one broker on. -/
def Iteration.startingAt (b : BrokerId) : Iteration where
  entries m := m.entries.filter (fun s => s.1 = b) ++ m.entries.filter (fun s => !decide (s.1 = b))
  perm _ := List.filter_append_perm _ _

theorem Iteration.entries_startingAt {m : BrokersWithJobs} {b : BrokerId} {status : BrokerStatus}
    (h : m.lookup b = some status) :
    ∃ rest, (Iteration.startingAt b).entries m = ⟨b, status⟩ :: rest := by
  have hmem : (⟨b, status⟩ : Sigma fun _ : BrokerId => BrokerStatus) ∈
      m.entries.filter (fun s => s.1 = b) :=
    List.mem_filter.mpr ⟨AList.mem_lookup_iff.mp h, by simp⟩
  obtain ⟨s, more, hsplit⟩ := List.exists_cons_of_ne_nil (List.ne_nil_of_mem hmem)
  have hs : s ∈ m.entries.filter (fun s => s.1 = b) := hsplit ▸ List.mem_cons_self
  obtain ⟨hentry, hkey⟩ := List.mem_filter.mp hs
  obtain ⟨b', status'⟩ := s
  obtain rfl : b' = b := of_decide_eq_true hkey
  obtain rfl := Option.some.inj (h.symm.trans (AList.mem_lookup_iff.mpr hentry))
  exact ⟨_, congrArg (· ++ _) hsplit⟩

/-- What is better than a status is better than anything that is not. -/
theorem BrokerStatus.better_of_not {a b c : BrokerStatus} (hab : a.better b = true)
    (hcb : c.better b = false) : a.better c = true := by
  simp only [better, Bool.or_eq_true, Bool.and_eq_true, decide_eq_true_eq, Bool.or_eq_false_iff,
    Bool.and_eq_false_iff, decide_eq_false_iff_not] at *
  omega

namespace Announcements

/-- **The worker tries the best broker**, in every order of the map, exactly when the greatest
announcement keeps its place.

The announcements are any, and the order in which the map goes over them is open. Whether what was
announced is still so when the broker is asked is not part of this. -/
theorem triesBest_iff (a : Announcements) :
    (∀ iteration, a.TriesBest iteration) ↔ a.KeepsItsPlace := by
  refine ⟨fun h b x hx hmax => ?_, triesBest_of_keepsItsPlace⟩
  have hpending : a.entries ≠ [] := List.ne_nil_of_mem (AList.mem_lookup_iff.mp hx)
  have hworst : x.status.better .worst = true := by
    obtain ⟨hempty, htries⟩ := h .inOrder
    rcases bestOf_spec none .worst (Iteration.inOrder.entries a.recorded) with
      ⟨hnone, _⟩ | ⟨s, hs, hsome, hbetter, _⟩
    · exact absurd (hempty.mp hnone) hpending
    · obtain ⟨y, hy, hys⟩ := mem_entries.mp hs
      rwa [← hys, (htries s.1 hsome).eq hy hx hmax] at hbetter
  refine ⟨hworst, fun b' y hy hyx => ?_⟩
  by_contra hnot
  have hnot : x.status.better y.status = false := Bool.eq_false_iff.mpr hnot
  -- the map is walked from `b'` on: what it announces is better than the worst, and nothing greater
  -- takes its place
  obtain ⟨rest, hrest⟩ := Iteration.entries_startingAt (lookup_recorded hy)
  obtain ⟨_, htries⟩ := h (.startingAt b')
  rw [highestPriorityBroker, hrest] at htries
  have hfirst : y.status.better .worst = true := by
    by_contra hbad
    have hbad := BrokerStatus.better_of_not hworst (Bool.eq_false_iff.mpr hbad)
    rw [hnot] at hbad
    cases hbad
  rw [bestOf, if_pos hfirst] at htries
  rcases bestOf_spec (some b') y.status rest with ⟨hstays, _⟩ | ⟨s, hs, hsome, hbetter, _⟩
  · exact hyx ((htries b' hstays).eq hy hx hmax)
  · obtain ⟨z, hz, hzs⟩ := mem_entries.mp (hrest ▸ List.mem_cons_of_mem _ hs)
    rw [← hzs, (htries s.1 hsome).eq hz hx hmax, hnot] at hbetter
    cases hbetter

/-- Two brokers with tasks of one priority: one with 2^31 of them, one with a single one. -/
def oneLongQueue : Announcements :=
  ((∅ : Announcements).insert "long" ⟨100#32, 2147483648#64⟩).insert "short" ⟨100#32, 1#64⟩

/-- The worker asks the one with the single task. -/
theorem longQueue_not_tried :
    ¬ ∀ (iteration : Iteration) (a : Announcements), a.TriesBest iteration := by
  intro h
  obtain ⟨x, hx, hmax⟩ := (h .inOrder oneLongQueue).2 "short" (by decide)
  obtain rfl : (⟨100#32, 1#64⟩ : Announcement) = x := Option.some.inj hx
  exact absurd (hmax "long" ⟨100#32, 2147483648#64⟩ rfl) (by decide)

/-! ## What fits an `int` -/

/-- Everything announced fits an `int`. -/
def Fits (a : Announcements) : Prop :=
  ∀ b x, a.lookup b = some x → x.maxPriority.toNat < 2 ^ 31 ∧ x.qsize.toNat < 2 ^ 31

theorem status_of_fits {x : Announcement} (hpriority : x.maxPriority.toNat < 2 ^ 31)
    (hqsize : x.qsize.toNat < 2 ^ 31) : x.status = ⟨x.maxPriority.toNat, x.qsize.toNat⟩ := by
  have hlow : (x.qsize.setWidth 32).toNat = x.qsize.toNat := by
    rw [BitVec.toNat_setWidth]
    omega
  rw [Announcement.status, BrokerStatus.announced, BitVec.toInt_eq_toNat_of_lt (by omega),
    BitVec.toInt_eq_toNat_of_lt (by omega), hlow]

theorem keepsItsPlace_of_fits {a : Announcements} (h : a.Fits) : a.KeepsItsPlace := by
  intro b x hx hmax
  have hxfits := h b x hx
  rw [status_of_fits hxfits.1 hxfits.2]
  refine ⟨by simp [BrokerStatus.better, BrokerStatus.worst]; omega, fun b' y hy hyx => ?_⟩
  have hyfits := h b' y hy
  have hlt : y.rank < x.rank :=
    lt_of_le_of_ne (hmax b' y hy) fun heq => hyx (Announcement.rank_injective heq)
  rw [Announcement.rank, Announcement.rank, Prod.Lex.toLex_lt_toLex] at hlt
  rw [status_of_fits hyfits.1 hyfits.2]
  simp only [BrokerStatus.better, Bool.or_eq_true, Bool.and_eq_true, decide_eq_true_eq]
  omega

end Announcements

/-! ## The communicator -/

namespace Communicator

/-- The communicator stores the statuses of announcements. -/
def Stores (c : Communicator) : Prop := ∃ a : Announcements, c.brokersWithJobs = a.recorded

theorem stores_start : Stores {} := ⟨∅, rfl⟩

variable {config : CommunicatorConfig} {c : Communicator} {now : Int}

theorem Stores.dropBroker (h : c.Stores) (broker : BrokerId) : (c.dropBroker broker).Stores := by
  obtain ⟨a, ha⟩ := h
  exact ⟨a.erase broker, by rw [Announcements.recorded_erase, ← ha]; rfl⟩

theorem Stores.tryToGetJob (h : c.Stores) : (c.tryToGetJob config now).1.Stores := by
  unfold Communicator.tryToGetJob
  split
  · exact h
  · exact h

theorem Stores.checkTimeout (h : c.Stores) : (c.checkTimeout config now).1.Stores := by
  unfold Communicator.checkTimeout
  split
  · split
    · exact (h.dropBroker _).tryToGetJob
    · exact h.tryToGetJob
  · exact h

theorem Stores.handle (h : c.Stores) (input : CommunicatorInput) :
    (c.handle config now input).1.Stores := by
  cases input with
  | reply broker response tile =>
    simp only [Communicator.handle, handleReply]
    split
    · split
      · exact h
      · exact h
    · split
      · exact (h.dropBroker broker).tryToGetJob
      · exact h.dropBroker broker
  | announcement broker maxPriority qsize =>
    have hstored : Stores { c with
        brokersWithJobs := c.brokersWithJobs.insert broker (.announced maxPriority qsize) } := by
      obtain ⟨a, ha⟩ := h
      refine ⟨a.insert broker ⟨maxPriority, qsize⟩, ?_⟩
      rw [Announcements.recorded_insert, ← ha]
      rfl
    simp only [Communicator.handle, handleAnnouncement]
    split
    · exact hstored.tryToGetJob
    · exact hstored
  | worker result =>
    cases result with
    | some tile =>
      simp only [Communicator.handle, handleWorker]
      split
      · split
        · exact h
        · exact h
      · exact h
    | none =>
      simp only [Communicator.handle, handleWorker]
      split
      · exact h.tryToGetJob
      · exact h

/-- Every turn keeps it so, whatever is read. -/
theorem stores_round (h : c.Stores) (input : Option CommunicatorInput) :
    (c.round config now input).1.Stores := by
  cases input with
  | none => exact h.checkTimeout
  | some input => exact h.checkTimeout.handle input

/-- After any turns, at any times. -/
theorem stores_run (config : CommunicatorConfig) (turns : List (Int × Option CommunicatorInput)) :
    Stores (turns.foldl (fun c turn => (c.round config turn.1 turn.2).1) {}) := by
  have hrun : ∀ (turns : List (Int × Option CommunicatorInput)) (c : Communicator), c.Stores →
      Stores (turns.foldl (fun c turn => (c.round config turn.1 turn.2).1) c) := by
    intro turns
    induction turns with
    | nil => exact fun _ h => h
    | cons turn turns ih => exact fun c h => ih _ (stores_round h turn.2)
  exact hrun turns {} stores_start

end Communicator

end RenderMq
