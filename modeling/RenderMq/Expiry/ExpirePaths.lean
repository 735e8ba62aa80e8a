import RenderMq.Expiry.ExpireTiles
import RenderMq.Expiry.LtsQueue
import RenderMq.Storage.Compositing

/-!
# The two paths of an expiry

`expire_tiles` gives a job for each tile, style and format to `storage_expire`. Most storages are
asked for the tile and told to expire it (`genericExpire`); for an LTS its paths are queued
(`ltsQueueUrls`).

A storage that is told to expire a job changes, and is asked for the next one afterwards. Where the
formats of a metatile share a file, only the first of its jobs is found clean, and the others are
passed over; so the paths are compared by the metatiles that they expire.

The first path keeps to the zooms of the options, and the second does not look at them.
`paths_agree_iff` says for which jobs, and for which input of the program, the two come to the same.
-/

namespace RenderMq

namespace StorageExpire

open ExpireTiles

/-! ## The jobs -/

/-- The jobs that `expire_tiles` makes of a list of tiles. -/
def jobsOf (styles : List String) (types : String → Option String)
    (formats : String → Option (List ProtoFmt)) (tileList : List Xyz) : List TileProtocol :=
  tileList.flatMap fun tileXyz => styles.flatMap fun style =>
    match types style, formats style with
    | some type, some protoFmts => protoFmts.map fun format =>
      { status := .cmdRenderBulk, z := tileXyz.z, x := tileXyz.x, y := tileXyz.y, style := type,
        format := format }
    | _, _ => []

/-- `m_min_z`. -/
def minZ (limits : Limits) : Int := limits.expireMinZ.getD intMin

/-- `m_max_z`. -/
def maxZ (limits : Limits) : Int := limits.expireMaxZ.getD intMax

/-- The metatile of a job: its corner and its style. -/
def metatileOf (job : TileProtocol) : Xyz × String := (⟨job.x, job.y, job.z⟩, job.style)

/-- The storage of the generic path, and the jobs that it has been told to expire. -/
structure Generic (storage : SubStorage) where
  state : storage.State
  expired : List TileProtocol := []

variable {storage : SubStorage}

/-- `generic_expire`, which answers whether the tile was clean. -/
def genericExpire (limits : Limits) (g : Generic storage) (job : TileProtocol) :
    Generic storage × Bool :=
  let handle := storage.get g.state job
  let isClean := handle.found && !handle.expired
  if isClean && decide (job.z ≥ minZ limits) && decide (job.z ≤ maxZ limits) then
    (⟨(storage.expire g.state job).1, g.expired ++ [job]⟩, isClean)
  else (g, isClean)

/-- The generic path over some jobs, one after the other. The threads of the program share out the
tiles, so that all jobs of a metatile are with one of them. -/
def genericRun (limits : Limits) (s : storage.State) (jobs : List TileProtocol) :
    Generic storage :=
  jobs.foldl (fun g job => (genericExpire limits g job).1) ⟨s, []⟩

/-- The jobs for which the LTS path queues something. -/
def queuedJobs (lts : LtsStorage) (jobs : List TileProtocol) : List TileProtocol :=
  jobs.filter fun job => !(expiriesOf lts job).isEmpty

/-! ## What each path does -/

/-- A zoom within the options. -/
def InLimits (limits : Limits) (z : Int) : Prop := minZ limits ≤ z ∧ z ≤ maxZ limits

instance (limits : Limits) (z : Int) : Decidable (InLimits limits z) :=
  inferInstanceAs (Decidable (_ ∧ _))

/-- A job is for a format and a metatile with tiles. -/
def HasTiles (job : TileProtocol) : Prop := getFormatsVec job.format ≠ [] ∧ 0 < getMetaDimensions job.z

/-- The tile of a job is there, and is not expired. -/
def Clean (get : TileProtocol → TileHandle) (job : TileProtocol) : Prop :=
  (get job).found = true ∧ (get job).expired = false

instance (get : TileProtocol → TileHandle) (job : TileProtocol) : Decidable (Clean get job) :=
  inferInstanceAs (Decidable (_ ∧ _))

/-- What `generic_expire` does with a job. -/
theorem genericExpire_eq (limits : Limits) (g : Generic storage) (job : TileProtocol) :
    (genericExpire limits g job).1 =
      if InLimits limits job.z ∧ Clean (storage.get g.state) job then
        ⟨(storage.expire g.state job).1, g.expired ++ [job]⟩
      else g := by
  unfold genericExpire InLimits Clean
  simp only [apply_ite Prod.fst, Bool.and_eq_true, Bool.not_eq_true', decide_eq_true_eq, ge_iff_le]
  refine if_congr ?_ rfl rfl
  tauto

theorem genericRun_snoc (limits : Limits) (s : storage.State) (jobs : List TileProtocol)
    (job : TileProtocol) :
    genericRun limits s (jobs ++ [job]) = (genericExpire limits (genericRun limits s jobs) job).1 := by
  rw [genericRun, List.foldl_append]
  rfl

/-- A job is found clean when it comes to it. -/
def CleanAt (limits : Limits) (s : storage.State) (before : List TileProtocol)
    (job : TileProtocol) : Prop :=
  Clean (storage.get (genericRun limits s before).state) job

/-- **What the generic path expires**: the jobs within the options that it finds clean. -/
theorem mem_expired_iff {limits : Limits} {s : storage.State} {jobs : List TileProtocol}
    {job : TileProtocol} :
    job ∈ (genericRun limits s jobs).expired ↔
      ∃ before after, jobs = before ++ job :: after ∧ InLimits limits job.z ∧
        CleanAt limits s before job := by
  induction jobs using List.reverseRecOn with
  | nil => simp [genericRun]
  | append_singleton jobs last ih =>
    have hlast : job ∈ (genericRun limits s (jobs ++ [last])).expired ↔
        job ∈ (genericRun limits s jobs).expired ∨
          (InLimits limits last.z ∧ CleanAt limits s jobs last) ∧ job = last := by
      rw [genericRun_snoc, genericExpire_eq]
      split
      · next hexpires =>
        rw [List.mem_append, List.mem_singleton]
        exact or_congr_right (and_iff_right hexpires).symm
      · next hquiet => exact (or_iff_left fun h => hquiet h.1).symm
    rw [hlast, ih]
    constructor
    · rintro (⟨before, after, rfl, hexpires⟩ | ⟨hexpires, rfl⟩)
      · exact ⟨before, after ++ [last], by simp, hexpires⟩
      · exact ⟨jobs, [], rfl, hexpires⟩
    · rintro ⟨before, after, hjobs, hexpires⟩
      obtain rfl | ⟨after, d, rfl⟩ := List.eq_nil_or_concat' after
      · obtain ⟨rfl, hjob⟩ := List.append_inj' hjobs rfl
        obtain rfl := List.head_eq_of_cons_eq hjob
        exact .inr ⟨hexpires, rfl⟩
      · rw [← List.cons_append, ← List.append_assoc] at hjobs
        exact .inl ⟨before, after, (List.append_inj' hjobs rfl).1, hexpires⟩

theorem metaSlots_ne_nil_iff (job : TileProtocol) : metaSlots job ≠ [] ↔ HasTiles job := by
  constructor
  · intro hslots
    obtain ⟨slot, hslot⟩ := List.exists_mem_of_ne_nil _ hslots
    obtain ⟨hformat, hgrid⟩ := mem_gridSlots.mp hslot
    rw [LtsStorage.inGrid_eq, Bool.and_eq_true, decide_eq_true_eq] at hgrid
    exact ⟨List.ne_nil_of_mem hformat, by omega⟩
  · rintro ⟨hformats, hdim⟩
    obtain ⟨format, hformat⟩ := List.exists_mem_of_ne_nil _ hformats
    have hgrid : inGrid job.z (0 : Fin 64) = true := by
      rw [inGrid, Bool.and_eq_true, decide_eq_true_eq, decide_eq_true_eq]
      exact ⟨hdim, hdim⟩
    have hslot : (format, (0 : Fin 64)) ∈ metaSlots job := mem_gridSlots.mpr ⟨hformat, hgrid⟩
    exact List.ne_nil_of_mem hslot

/-- **What the LTS path queues**: the jobs that have tiles. -/
theorem mem_queuedJobs_iff {lts : LtsStorage} {jobs : List TileProtocol} {job : TileProtocol} :
    job ∈ queuedJobs lts jobs ↔ job ∈ jobs ∧ HasTiles job := by
  rw [queuedJobs, List.mem_filter, ← metaSlots_ne_nil_iff, ← expiriesOf_ne_nil_iff lts]
  simp

/-! ## When they agree -/

/-- The two paths expire the same metatiles. -/
def PathsAgree (lts : LtsStorage) (limits : Limits) (s : storage.State)
    (jobs : List TileProtocol) : Prop :=
  ∀ metatile, (∃ job ∈ queuedJobs lts jobs, metatileOf job = metatile) ↔
    ∃ job ∈ (genericRun limits s jobs).expired, metatileOf job = metatile

/-- Some job of a metatile is found clean when it comes to it. -/
def FoundClean (limits : Limits) (s : storage.State) (jobs : List TileProtocol)
    (metatile : Xyz × String) : Prop :=
  ∃ before job after, jobs = before ++ job :: after ∧ metatileOf job = metatile ∧
    CleanAt limits s before job

theorem z_eq_of_metatileOf {job other : TileProtocol} (h : metatileOf other = metatileOf job) :
    other.z = job.z :=
  congrArg (Xyz.z ∘ Prod.fst) h

/-- Of the metatiles found clean, the generic path expires those within the options. -/
theorem exists_expired_iff {limits : Limits} {s : storage.State} {jobs : List TileProtocol}
    {job : TileProtocol} (hclean : FoundClean limits s jobs (metatileOf job)) :
    (∃ other ∈ (genericRun limits s jobs).expired, metatileOf other = metatileOf job) ↔
      InLimits limits job.z := by
  constructor
  · rintro ⟨other, hother, hmetatile⟩
    obtain ⟨_, _, _, hlimits, _⟩ := mem_expired_iff.mp hother
    rwa [z_eq_of_metatileOf hmetatile] at hlimits
  · intro hlimits
    obtain ⟨before, other, after, hjobs, hmetatile, hcleanAt⟩ := hclean
    rw [← z_eq_of_metatileOf hmetatile] at hlimits
    exact ⟨other, mem_expired_iff.mpr ⟨before, after, hjobs, hlimits, hcleanAt⟩, hmetatile⟩

/-- On metatiles found clean, the paths agree when it is those within the options that have tiles. -/
theorem pathsAgree_iff_hasTiles (lts : LtsStorage) {limits : Limits} {s : storage.State}
    {jobs : List TileProtocol} (hclean : ∀ job ∈ jobs, FoundClean limits s jobs (metatileOf job)) :
    PathsAgree lts limits s jobs ↔ ∀ job ∈ jobs,
      ((∃ other ∈ jobs, metatileOf other = metatileOf job ∧ HasTiles other) ↔
        InLimits limits job.z) := by
  have hqueued (metatile : Xyz × String) : (∃ job ∈ queuedJobs lts jobs, metatileOf job = metatile) ↔
      ∃ other ∈ jobs, metatileOf other = metatile ∧ HasTiles other := by
    simp only [mem_queuedJobs_iff, and_assoc, and_comm (a := HasTiles _)]
  constructor
  · intro hagree job hjob
    rw [← hqueued, hagree, exists_expired_iff (hclean job hjob)]
  · intro hjobs metatile
    rw [hqueued]
    constructor
    · rintro ⟨job, hjob, rfl, htiles⟩
      exact (exists_expired_iff (hclean job hjob)).mpr ((hjobs job hjob).mp ⟨job, hjob, rfl, htiles⟩)
    · rintro ⟨job, hjob, rfl⟩
      obtain ⟨before, after, hsplit, hlimits, _⟩ := mem_expired_iff.mp hjob
      exact (hjobs job (by rw [hsplit]; simp)).mpr hlimits

/-! ## Storages -/

/-- Expiring a metatile leaves the clean tiles of the others clean. -/
def LeavesOthers (storage : SubStorage) : Prop :=
  ∀ s job other, metatileOf other ≠ metatileOf job → Clean (storage.get s) other →
    Clean (storage.get (storage.expire s job).1) other

theorem LeavesOthers.cleanAt (hothers : LeavesOthers storage) {limits : Limits} {s : storage.State}
    {job : TileProtocol} (hclean : Clean (storage.get s) job) (before : List TileProtocol)
    (hbefore : ∀ other ∈ before, metatileOf other ≠ metatileOf job) :
    CleanAt limits s before job := by
  induction before using List.reverseRecOn with
  | nil => exact hclean
  | append_singleton before last ih =>
    have hkept := ih fun other hother => hbefore other (List.mem_append_left _ hother)
    have hlast : metatileOf last ≠ metatileOf job := hbefore last (by simp)
    rw [CleanAt, genericRun_snoc, genericExpire_eq]
    split
    · exact hothers _ last job hlast.symm hkept
    · exact hkept

/-- Where all tiles are clean at first, the first job of each metatile finds it clean. -/
theorem LeavesOthers.foundClean (hothers : LeavesOthers storage) (limits : Limits)
    {s : storage.State} {jobs : List TileProtocol} (hclean : ∀ job ∈ jobs, Clean (storage.get s) job)
    {job : TileProtocol} (hjob : job ∈ jobs) : FoundClean limits s jobs (metatileOf job) := by
  obtain ⟨first, before, after, hbefore, hfirst, hjobs, _⟩ :=
    List.exists_of_eraseP (p := fun other => decide (metatileOf other = metatileOf job)) hjob
      (decide_eq_true rfl)
  have hmetatile : metatileOf first = metatileOf job := of_decide_eq_true hfirst
  refine ⟨before, first, after, hjobs, hmetatile, hothers.cleanAt (hclean first ?_) before ?_⟩
  · rw [hjobs]
    simp
  · intro other hother
    rw [hmetatile]
    exact fun heq => hbefore other hother (decide_eq_true heq)

/-- Each job finds its tile clean. -/
def CleanThroughout (limits : Limits) (s : storage.State) (jobs : List TileProtocol) : Prop :=
  ∀ before job after, jobs = before ++ job :: after → CleanAt limits s before job

theorem expired_of_cleanThroughout {limits : Limits} {s : storage.State} {jobs : List TileProtocol}
    (hclean : CleanThroughout limits s jobs) :
    (genericRun limits s jobs).expired = jobs.filter fun job => decide (InLimits limits job.z) := by
  induction jobs using List.reverseRecOn with
  | nil => rfl
  | append_singleton jobs last ih =>
    have hearlier : CleanThroughout limits s jobs := by
      rintro before job after rfl
      exact hclean before job (after ++ [last]) (by simp)
    have hlast : Clean (storage.get (genericRun limits s jobs).state) last := hclean jobs last [] rfl
    rw [genericRun_snoc, genericExpire_eq, List.filter_append, ← ih hearlier]
    by_cases hlimits : InLimits limits last.z
    · rw [if_pos ⟨hlimits, hlast⟩]
      simp [hlimits]
    · rw [if_neg fun h => hlimits h.1]
      simp [hlimits]

/-- Where each job finds its tile clean, the two paths expire the same jobs when it is the zooms
within the options that have tiles. -/
theorem expired_eq_queuedJobs_iff (lts : LtsStorage) {limits : Limits} {s : storage.State}
    {jobs : List TileProtocol} (hclean : CleanThroughout limits s jobs) :
    (genericRun limits s jobs).expired = queuedJobs lts jobs ↔
      ∀ job ∈ jobs, (HasTiles job ↔ InLimits limits job.z) := by
  rw [expired_of_cleanThroughout hclean]
  have hexpires {job : TileProtocol} (hjob : job ∈ jobs) :
      job ∈ jobs.filter (fun job => decide (InLimits limits job.z)) ↔ InLimits limits job.z := by
    rw [List.mem_filter, decide_eq_true_iff]
    exact and_iff_right hjob
  constructor
  · intro heq job hjob
    rw [← hexpires hjob, heq, mem_queuedJobs_iff]
    exact (and_iff_right hjob).symm
  · intro hjobs
    refine List.filter_congr fun job hjob => ?_
    rw [Bool.eq_iff_iff, decide_eq_true_iff, ← hjobs job hjob, ← metaSlots_ne_nil_iff,
      ← expiriesOf_ne_nil_iff lts]
    simp

/-! ## The input of the program -/

theorem zoom_of_adds {limits : Limits} {tile t : Xyz} (h : Adds limits tile t) :
    min tile.z limits.minZ ≤ t.z ∧ t.z ≤ max tile.z limits.maxZ := by
  rcases h with ⟨d, ⟨k, hk, htile⟩, rfl⟩ | ⟨k, hk, rfl⟩
  · have hz : d.z - k = tile.z := by
      rw [Xyz.iterate_parent] at htile
      exact congrArg Xyz.z htile
    have hle : (k : Int) ≤ max tile.z limits.maxZ - tile.z := by
      unfold levelsBelow at hk
      omega
    show min tile.z limits.minZ ≤ d.z ∧ d.z ≤ max tile.z limits.maxZ
    omega
  · rw [Xyz.iterate_parent]
    have hle : (k : Int) ≤ tile.z - min tile.z limits.minZ := by
      unfold levelsAbove at hk
      omega
    show min tile.z limits.minZ ≤ tile.z - k ∧ tile.z - k ≤ max tile.z limits.maxZ
    omega

theorem adds_self (limits : Limits) (tile : Xyz) : ∃ t, t.z = tile.z ∧ Adds limits tile t :=
  ⟨tile.toMeta.toMeta, rfl, .inl ⟨tile.toMeta, ⟨0, Nat.zero_le _, rfl⟩, rfl⟩⟩

/-- What is collected for an input within the options is within them. -/
theorem inLimits_of_adds {limits : Limits} {tile t : Xyz} (h : Adds limits tile t)
    (hinput : InLimits limits tile.z) (hlow : 0 ≤ tile.z ∧ tile.z ≤ 30) (hz : 0 ≤ t.z ∧ t.z ≤ 30) :
    InLimits limits t.z := by
  obtain ⟨hmin, hmax⟩ := zoom_of_adds h
  obtain ⟨hinMin, hinMax⟩ := hinput
  obtain ⟨expireMinZ, expireMaxZ⟩ := limits
  constructor
  · cases expireMinZ with
    | none =>
      have hint : intMin ≤ 0 := by decide
      exact hint.trans hz.1
    | some z =>
      have hlimit : z ≤ tile.z := hinMin
      have hfloor : min tile.z (min intMax z) ≤ t.z := hmin
      have hint : 30 ≤ intMax := by decide
      show z ≤ t.z
      omega
  · cases expireMaxZ with
    | none =>
      have hint : 30 ≤ intMax := by decide
      exact hz.2.trans hint
    | some z =>
      have hlimit : tile.z ≤ z := hinMax
      have hceiling : t.z ≤ max tile.z (max intMin z) := hmax
      have hint : intMin ≤ 0 := by decide
      show t.z ≤ z
      omega

theorem hasTiles_of_zoom {job : TileProtocol} (hformat : getFormatsVec job.format ≠ [])
    (hz : 0 ≤ job.z ∧ job.z ≤ 30) : HasTiles job := by
  refine ⟨hformat, ?_⟩
  rw [getMetaDimensions_eq hz.1 hz.2]
  exact lt_min (Int.pow_pos (by decide)) (by decide)

/-- What `main` hands to `expire_tiles`, all threads together: each style has formats, all of them
known, and the zooms are those that a metatile is defined for. -/
structure FromProgram (limits : Limits) (inputs : List Xyz) (styles : List String)
    (types : String → Option String) (formats : String → Option (List ProtoFmt))
    (tileList : List Xyz) : Prop where
  tiles : ∀ t, t ∈ tileList ↔ t ∈ allTiles limits inputs
  styles : ∃ style ∈ styles, ∃ type format rest,
    types style = some type ∧ formats style = some (format :: rest)
  formats : ∀ style protoFmts, formats style = some protoFmts →
    ∀ format ∈ protoFmts, getFormatsVec format ≠ []
  zooms : ∀ t ∈ tileList, 0 ≤ t.z ∧ t.z ≤ 30

variable {limits : Limits} {inputs tileList : List Xyz} {styles : List String}
  {types : String → Option String} {formats : String → Option (List ProtoFmt)}

theorem mem_jobsOf {job : TileProtocol} (hjob : job ∈ jobsOf styles types formats tileList) :
    (∃ t ∈ tileList, t.z = job.z) ∧
      ∃ style protoFmts, formats style = some protoFmts ∧ job.format ∈ protoFmts := by
  obtain ⟨t, ht, hjob⟩ := List.mem_flatMap.mp hjob
  obtain ⟨style, _, hjob⟩ := List.mem_flatMap.mp hjob
  split at hjob
  · next type protoFmts _ hformats =>
    obtain ⟨format, hformat, rfl⟩ := List.mem_map.mp hjob
    exact ⟨⟨t, ht, rfl⟩, style, protoFmts, hformats, hformat⟩
  · cases hjob

theorem FromProgram.hasTiles (hprogram : FromProgram limits inputs styles types formats tileList)
    {job : TileProtocol} (hjob : job ∈ jobsOf styles types formats tileList) : HasTiles job := by
  obtain ⟨⟨t, ht, hz⟩, style, protoFmts, hformats, hformat⟩ := mem_jobsOf hjob
  refine hasTiles_of_zoom (hprogram.formats style protoFmts hformats _ hformat) ?_
  rw [← hz]
  exact hprogram.zooms t ht

/-- Each tile of the list has a job. -/
theorem FromProgram.exists_job (hprogram : FromProgram limits inputs styles types formats tileList)
    {t : Xyz} (ht : t ∈ tileList) : ∃ job ∈ jobsOf styles types formats tileList, job.z = t.z := by
  obtain ⟨style, hstyle, type, format, rest, htype, hformats⟩ := hprogram.styles
  refine ⟨{ status := .cmdRenderBulk, z := t.z, x := t.x, y := t.y, style := type, format := format },
    ?_, rfl⟩
  refine List.mem_flatMap.mpr ⟨t, ht, List.mem_flatMap.mpr ⟨style, hstyle, ?_⟩⟩
  rw [htype, hformats]
  exact List.mem_map_of_mem List.mem_cons_self

/-- **The options and the input.** The jobs of the program are within the options when its input
is. -/
theorem FromProgram.inLimits_iff
    (hprogram : FromProgram limits inputs styles types formats tileList) :
    (∀ job ∈ jobsOf styles types formats tileList, InLimits limits job.z) ↔
      ∀ input ∈ inputs, InLimits limits input.z := by
  have hcollected {input t : Xyz} (hinput : input ∈ inputs) (hadds : Adds limits input t) :
      t ∈ tileList :=
    (hprogram.tiles t).mpr ((mem_allTiles limits inputs t).mpr ⟨input, hinput, hadds⟩)
  constructor
  · intro hjobs input hinput
    obtain ⟨t, hz, hadds⟩ := adds_self limits input
    obtain ⟨job, hjob, hjobz⟩ := hprogram.exists_job (hcollected hinput hadds)
    rw [← hz, ← hjobz]
    exact hjobs job hjob
  · intro hinputs job hjob
    obtain ⟨⟨t, ht, hz⟩, _⟩ := mem_jobsOf hjob
    obtain ⟨input, hinput, hadds⟩ := (mem_allTiles limits inputs t).mp ((hprogram.tiles t).mp ht)
    obtain ⟨self, hself, hadded⟩ := adds_self limits input
    have hzoom := hprogram.zooms self (hcollected hinput hadded)
    rw [hself] at hzoom
    rw [← hz]
    exact inLimits_of_adds hadds (hinputs input hinput) hzoom (hprogram.zooms t ht)

/-- **When the paths agree.** Each metatile is found clean by one of its jobs, as it is where all
tiles are there and unexpired at first and expiring one metatile leaves the others alone. Then the
two paths expire the same metatiles if and only if it is those within the options that have tiles;
where every job finds its tile clean, it is even the same jobs. In the program, with formats it
knows and zooms from 0 to 30, this is when the zooms of the input are within the options. What the
queued requests then come to is not part of it. -/
theorem paths_agree_iff (lts : LtsStorage) (limits : Limits) (storage : SubStorage)
    (s : storage.State) (styles : List String) (types : String → Option String)
    (formats : String → Option (List ProtoFmt)) (tileList : List Xyz)
    (hclean : ∀ job ∈ jobsOf styles types formats tileList,
      FoundClean limits s (jobsOf styles types formats tileList) (metatileOf job)) :
    (PathsAgree lts limits s (jobsOf styles types formats tileList) ↔
      ∀ job ∈ jobsOf styles types formats tileList,
        ((∃ other ∈ jobsOf styles types formats tileList,
          metatileOf other = metatileOf job ∧ HasTiles other) ↔ InLimits limits job.z)) ∧
    (CleanThroughout limits s (jobsOf styles types formats tileList) →
      ((genericRun limits s (jobsOf styles types formats tileList)).expired =
          queuedJobs lts (jobsOf styles types formats tileList) ↔
        ∀ job ∈ jobsOf styles types formats tileList, (HasTiles job ↔ InLimits limits job.z))) ∧
    ∀ inputs, FromProgram limits inputs styles types formats tileList →
      (PathsAgree lts limits s (jobsOf styles types formats tileList) ↔
        ∀ input ∈ inputs, InLimits limits input.z) := by
  have hlist := pathsAgree_iff_hasTiles lts hclean
  refine ⟨hlist, expired_eq_queuedJobs_iff lts, fun inputs hprogram => ?_⟩
  rw [hlist, ← hprogram.inLimits_iff]
  exact forall₂_congr fun job hjob => iff_true_left ⟨job, hjob, rfl, hprogram.hasTiles hjob⟩

/-- A storage with a file for each metatile, so that an expiry marks all formats of one. -/
def metatileFiles : SubStorage where
  State := List (Xyz × String)
  get expired job := ⟨true, 0, List.elem (metatileOf job) expired, none⟩
  expire expired job := (metatileOf job :: expired, true)

theorem metatileFiles_leavesOthers : LeavesOthers metatileFiles := by
  rintro (expired : List _) job other hne ⟨hfound, hclean⟩
  refine ⟨hfound, ?_⟩
  show List.elem (metatileOf other) (metatileOf job :: expired) = false
  rw [List.elem_cons, beq_eq_false_iff_ne.mpr hne]
  exact hclean

/-- All tiles are clean in it at first. -/
theorem metatileFiles_foundClean (limits : Limits) {jobs : List TileProtocol} {job : TileProtocol}
    (hjob : job ∈ jobs) : @FoundClean metatileFiles limits [] jobs (metatileOf job) :=
  metatileFiles_leavesOthers.foundClean limits (fun _ _ => ⟨rfl, rfl⟩) hjob

/-- The second format of the metatile is passed over on the generic path, and the paths agree. -/
theorem paths_agree_at_limit :
    @PathsAgree metatileFiles
      { hosts := [("tiles", 80)], serverByKey := fun _ => 0, appName := "mq", version := "1.0" }
      { expireMinZ := some 8 } [] (jobsOf ["map"] some (fun _ => some [fmtPNG, fmtJPEG]) [⟨0, 0, 8⟩]) ∧
    (@genericRun metatileFiles { expireMinZ := some 8 } []
      (jobsOf ["map"] some (fun _ => some [fmtPNG, fmtJPEG]) [⟨0, 0, 8⟩])).expired.map
        TileProtocol.format = [fmtPNG] := by
  have htiles : allTiles { expireMinZ := some 8 } [⟨3, 4, 8⟩] = {⟨0, 0, 8⟩} := by
    simp only [allTiles, List.foldl_cons, List.foldl_nil, addInput]
    rw [parentTiles, childTiles]
    decide
  have hprogram : FromProgram { expireMinZ := some 8 } [⟨3, 4, 8⟩] ["map"] some
      (fun _ => some [fmtPNG, fmtJPEG]) [⟨0, 0, 8⟩] := by
    refine ⟨fun t => ?_, ⟨"map", List.mem_singleton_self _, _, _, _, rfl, rfl⟩, ?_, by decide⟩
    · rw [htiles, Finset.mem_singleton, List.mem_singleton]
    · intro style protoFmts hformats
      obtain rfl := Option.some.inj hformats
      exact List.forall_mem_cons.mpr ⟨by decide, List.forall_mem_singleton.mpr (by decide)⟩
  refine ⟨((paths_agree_iff _ _ metatileFiles [] _ _ _ _ ?_).2.2 _ hprogram).mpr ?_, rfl⟩
  · exact fun _ hjob => metatileFiles_foundClean _ hjob
  · intro input hinput
    rw [List.mem_singleton.mp hinput]
    exact ⟨by decide, by decide⟩

/-- An input tile above the zooms of the options: the LTS path queues it all the same. -/
theorem input_above_limit_is_queued :
    ¬ ∀ (lts : LtsStorage) (limits : Limits) (storage : SubStorage) (s : storage.State)
      (styles : List String) (types : String → Option String)
      (formats : String → Option (List ProtoFmt)) (tileList : List Xyz), LeavesOthers storage →
        (∀ job ∈ jobsOf styles types formats tileList, Clean (storage.get s) job) →
        PathsAgree lts limits s (jobsOf styles types formats tileList) := by
  intro h
  let lts : LtsStorage :=
    { hosts := [("tiles", 80)], serverByKey := fun _ => 0, appName := "mq", version := "1.0" }
  let job : TileProtocol := { status := .cmdRenderBulk, z := 8, style := "map", format := fmtPNG }
  have hagree := h lts { expireMinZ := some 10 } metatileFiles [] ["map"] some
    (fun _ => some [fmtPNG]) [⟨0, 0, 8⟩] metatileFiles_leavesOthers (fun _ _ => ⟨rfl, rfl⟩)
    (metatileOf job)
  have hqueued : job ∈ queuedJobs lts (jobsOf ["map"] some (fun _ => some [fmtPNG]) [⟨0, 0, 8⟩]) :=
    mem_queuedJobs_iff.mpr ⟨List.mem_singleton_self _, by decide, by decide⟩
  obtain ⟨other, hother, hmetatile⟩ := hagree.mp ⟨job, hqueued, rfl⟩
  obtain ⟨_, _, _, hlimits, _⟩ := mem_expired_iff.mp hother
  rw [z_eq_of_metatileOf hmetatile] at hlimits
  exact absurd hlimits.1 (by decide)

end StorageExpire

end RenderMq
