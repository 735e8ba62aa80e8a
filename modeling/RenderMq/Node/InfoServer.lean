import RenderMq.Lib.PackedBits
import RenderMq.Lib.Run
import RenderMq.Lib.Wire
import RenderMq.Node.ZLevels
import RenderMq.Tile.Protocol

/-!
# The expiry server

The server keeps a file of bits for each style, mapped into memory (`Info`). The files it finds when it
starts it opens then (`enter`), the others when a datagram first names their style. A file is only made
larger: to the size that the configured zoom needs, with zeros.

A datagram asks for a bit or sets it. Past the end of the file a question has no answer and a set does
nothing, but it is answered like any other (`Info.setBit`, `datagramReceived`).

`capacity` is the number of bits a file has once it is open. `Info.open_grown` says what opening does;
`datagramReceived_cases` is all that a datagram can do.
-/

namespace RenderMq.ExpiryInfo

open PackedBits Wire

/-! ## Files -/

abbrev Style := Bytes

/-- What a name in the directory stands for. A name that no file can have is `other`. -/
inductive Entry where
  | absent
  | file (bytes : Bytes)
  | other
  deriving DecidableEq

/-- What the operating system does with a file it is asked to open: all of it, nothing, or so many bytes
of the zeros to be added. -/
inductive Io where
  | works
  | refuses
  | stops (after : Nat)
  deriving DecidableEq

namespace Entry

def bytes : Entry → Bytes
  | .file bytes => bytes
  | .absent => []
  | .other => []

/-- The file with some zeros more, which makes the file where there is none. -/
def grow : Entry → Nat → Option Entry
  | .other, _ => none
  | e, n => some (.file (e.bytes ++ List.replicate n 0))

/-- The zeros are written: what is then there, and whether nothing was raised. -/
def expand (e : Entry) (missing : Nat) : Io → Entry × Bool
  | .works => ((e.grow missing).getD e, (e.grow missing).isSome)
  | .refuses => (e, false)
  | .stops after => ((e.grow (min after missing)).getD e, false)

end Entry

/-- `Info`: a mapped file, and how many bits it has. -/
structure Info where
  maxIdx : Nat
  mmap : Bytes
  size_eq : maxIdx = 8 * mmap.length

namespace Info

/-- The file is opened again, and mapped. An empty file can not be mapped. -/
def map : Entry → Option Info
  | .file [] => none
  | .file bytes => some { maxIdx := 8 * bytes.length, mmap := bytes, size_eq := rfl }
  | _ => none

/-- `__init__`: what is then in the directory, and the file unless something was raised. -/
def init (maxZ : Int) (e : Entry) (io : Io) : Entry × Option Info :=
  match sizeOf maxZ with
  | none => (e, none)
  | some wantedSize =>
    let fileSize := e.bytes.length
    -- only expand the file
    let expanded :=
      if wantedSize > fileSize then e.expand (wantedSize - fileSize) io
      else (e, decide (io = .works))
    (expanded.1, if expanded.2 then map expanded.1 else none)

/-- `set_bit`. -/
def setBit (info : Info) (idx : Nat) (val : Int) : Info :=
  if idx < info.maxIdx then
    { maxIdx := info.maxIdx
      mmap := putBit info.mmap idx (decide (val > 0))
      size_eq := by rw [length_putBit, info.size_eq] }
  else info

/-- `get_bit`. -/
def getBit (info : Info) (idx : Nat) : Option Nat :=
  if idx < info.maxIdx then some ((byteOf info.mmap idx).toNat >>> (idx % 8) &&& 1) else none

end Info

/-! ## The directory -/

/-- The directory of the files, as the server finds it. -/
structure Directory where
  entries : Style → Entry
  names : List Style
  complete : ∀ {name bytes}, entries name = .file bytes → name ∈ names

/-- `InfoGuard`. -/
structure Guard where
  maxZ : Int
  entries : Style → Entry
  infos : Style → Option Info

namespace Guard

/-- A name is opened, and kept if that works. -/
def openInfo (g : Guard) (name : Style) (io : Io) : Guard :=
  let opened := Info.init g.maxZ (g.entries name) io
  { g with
    entries := Function.update g.entries name opened.1
    infos := Function.update g.infos name opened.2 }

/-- One name of `__enter__`. What is not a file is left out. -/
def enterName (g : Guard) (name : Style) : Option Guard :=
  match g.entries name with
  | .file _ =>
    let opened := g.openInfo name .works
    if (opened.infos name).isSome then some opened else none
  | _ => some g

/-- `__contains__`: anything that is a file name. -/
def contains (style : Style) : Bool := !List.contains style 47

/-- `__getitem__`: the file is opened unless it is open. -/
def getItem (g : Guard) (style : Style) (io : Io) : Guard :=
  match g.infos style with
  | some _ => g
  | none => g.openInfo style io

/-- An open file, as it is after a bit of it was set. -/
def setInfo (g : Guard) (style : Style) (info : Info) : Guard :=
  { g with infos := Function.update g.infos style (some info) }

end Guard

/-- `__enter__`. A file that can not be opened ends the server. -/
def enter (maxZ : Int) (dir : Directory) : Option Guard :=
  dir.names.foldlM Guard.enterName { maxZ := maxZ, entries := dir.entries, infos := fun _ => none }

/-! ## Datagrams -/

/-- The fields of a datagram. -/
structure Packet where
  idx : Nat
  val : Int
  cmd : UInt8
  style : Style
  deriving DecidableEq

/-- The characters `S` and `G`. -/
def SET : UInt8 := 83
def GET : UInt8 := 71

/-- `struct.pack('!Qbc255p', ..)`. -/
def pack (p : Packet) : Option Bytes :=
  if p.idx < 2 ^ 64 ∧ -128 ≤ p.val ∧ p.val ≤ 127 then
    some (bigEndian 8 p.idx ++ (Int8.ofInt p.val).toUInt8 :: p.cmd :: pascal 255 p.style)
  else none

/-- `struct.unpack('!Qbc255p', ..)`. -/
def unpack (d : Bytes) : Option Packet :=
  if d.length = 265 then
    some
      { idx := ofBigEndian (d.take 8)
        val := (d.getD 8 0).toInt8.toInt
        cmd := d.getD 9 0
        style := ofPascal (d.drop 10) }
  else none

/-- What is sent back. A bit is sent as a byte. -/
inductive Reply where
  | ok
  | err
  | bit (b : Nat)
  deriving DecidableEq

/-- `struct.pack('!B', bit)` in an answer. It raises where there is no bit, and what is raised is
answered with an error. -/
def Reply.ofBit : Option Nat → Reply
  | some b => .bit b
  | none => .err

/-- `datagramReceived`. -/
def datagramReceived (g : Guard) (d : Bytes) (io : Io) : Guard × Reply :=
  match unpack d with
  | none => (g, .err)
  | some p =>
    if Guard.contains p.style then
      let g := g.getItem p.style io
      match g.infos p.style with
      | none => (g, .err)
      | some info =>
        if p.cmd = SET then (g.setInfo p.style (info.setBit p.idx p.val), .ok)
        else if p.cmd = GET then (g, .ofBit (info.getBit p.idx))
        else (g, .err)
    else (g, .err)

/-! ## Opening a file -/

/-- The bits a file has once it is open. -/
def capacity (maxZ : Int) (e : Entry) : Nat := 8 * max e.bytes.length ((sizeOf maxZ).getD 0)

/-- What tries at opening a file may have left in its place: the file as it was, or with zeros added up
to the size wanted. -/
def Grown (maxZ : Int) (first e : Entry) : Prop :=
  e = first ∨ first ≠ .other ∧ ∃ n, e = .file (first.bytes ++ List.replicate n 0) ∧
    first.bytes.length + n ≤ (sizeOf maxZ).getD 0

theorem Entry.grow_eq_some {e e' : Entry} {n : Nat} :
    e.grow n = some e' ↔ e ≠ .other ∧ e' = .file (e.bytes ++ List.replicate n 0) := by
  cases e <;> simp [Entry.grow, eq_comm]

theorem Entry.length_expand {e : Entry} {n : Nat} {io : Io} (h : (e.expand n io).2 = true) :
    (e.expand n io).1.bytes.length = e.bytes.length + n := by
  match io with
  | .works =>
    obtain ⟨e', he'⟩ := Option.isSome_iff_exists.mp h
    obtain ⟨_, rfl⟩ := Entry.grow_eq_some.mp he'
    rw [Entry.expand, he', Option.getD_some]
    show (e.bytes ++ List.replicate n 0).length = _
    rw [List.length_append, List.length_replicate]

theorem Info.mmap_of_map {e : Entry} {info : Info} (h : Info.map e = some info) :
    e = .file info.mmap := by
  match e with
  | .file (b :: bytes) =>
    obtain rfl := Option.some.inj h
    rfl

namespace Grown

variable {maxZ : Int} {first e e' : Entry} {n : Nat}

theorem ne_other (h : Grown maxZ first e) (he : e ≠ .other) : first ≠ .other := by
  rcases h with rfl | ⟨hfirst, _⟩
  · exact he
  · exact hfirst

theorem bytes (h : Grown maxZ first e) : ∃ n, e.bytes = first.bytes ++ List.replicate n 0 ∧
    (n = 0 ∨ first.bytes.length + n ≤ (sizeOf maxZ).getD 0) := by
  rcases h with rfl | ⟨_, n, rfl, hn⟩
  · exact ⟨0, (List.append_nil _).symm, .inl rfl⟩
  · exact ⟨n, rfl, .inr hn⟩

theorem bitAt_eq (h : Grown maxZ first e) (i : Nat) : bitAt e.bytes i = bitAt first.bytes i := by
  obtain ⟨n, hn, _⟩ := h.bytes
  rw [hn, bitAt_append_zeros]

theorem grow (h : Grown maxZ first e) (hn : e.bytes.length + n ≤ (sizeOf maxZ).getD 0) :
    Grown maxZ first ((e.grow n).getD e) := by
  cases hgrow : e.grow n with
  | none => exact h
  | some e' =>
    obtain ⟨hother, rfl⟩ := Entry.grow_eq_some.mp hgrow
    obtain ⟨m, hm, _⟩ := h.bytes
    refine .inr ⟨h.ne_other hother, m + n, ?_, ?_⟩
    · rw [hm, List.append_assoc, List.replicate_append_replicate]
      rfl
    · rw [hm, List.length_append, List.length_replicate] at hn
      omega

theorem expand (h : Grown maxZ first e) (hn : e.bytes.length + n ≤ (sizeOf maxZ).getD 0) (io : Io) :
    Grown maxZ first (e.expand n io).1 := by
  cases io with
  | works => exact h.grow hn
  | refuses => exact h
  | stops after => exact h.grow (by omega)

/-- A file that is large enough has its bits. -/
theorem length_eq (h : Grown maxZ first e) (hwanted : (sizeOf maxZ).getD 0 ≤ e.bytes.length) :
    8 * e.bytes.length = capacity maxZ first := by
  obtain ⟨n, hn, hbound⟩ := h.bytes
  rw [hn, List.length_append, List.length_replicate] at hwanted ⊢
  unfold capacity
  omega

theorem file (h : Grown maxZ first e) {b : Bytes} (hfirst : first = .file b) :
    ∃ b', e = .file b' := by
  rcases h with rfl | ⟨_, n, rfl, _⟩
  · exact ⟨b, hfirst⟩
  · exact ⟨_, rfl⟩

end Grown

theorem Info.map_grown {maxZ : Int} {first e : Entry} {info : Info} (h : Grown maxZ first e)
    (hwanted : (sizeOf maxZ).getD 0 ≤ e.bytes.length) (hinfo : Info.map e = some info) :
    info.maxIdx = capacity maxZ first ∧ ∀ i, bitAt info.mmap i = bitAt first.bytes i := by
  rw [Info.mmap_of_map hinfo] at h hwanted
  exact ⟨info.size_eq.trans (h.length_eq hwanted), h.bitAt_eq⟩

/-- **Opening a file changes none of its bits.** -/
theorem Info.init_grown {maxZ : Int} {first e : Entry} (h : Grown maxZ first e) (io : Io) :
    Grown maxZ first (Info.init maxZ e io).1 ∧
      ∀ info, (Info.init maxZ e io).2 = some info →
        info.maxIdx = capacity maxZ first ∧ ∀ i, bitAt info.mmap i = bitAt first.bytes i := by
  unfold Info.init
  cases hsize : sizeOf maxZ with
  | none => exact ⟨h, fun _ hinfo => by cases hinfo⟩
  | some wanted =>
    have hwanted : (sizeOf maxZ).getD 0 = wanted := by rw [hsize, Option.getD_some]
    dsimp only
    by_cases hlt : wanted > e.bytes.length
    · have hgrown := h.expand (n := wanted - e.bytes.length) (by omega) io
      rw [if_pos hlt]
      refine ⟨hgrown, fun info hinfo => ?_⟩
      obtain ⟨hdone, hinfo⟩ := Option.ite_none_right_eq_some.mp hinfo
      refine Info.map_grown hgrown ?_ hinfo
      rw [Entry.length_expand hdone]
      omega
    · rw [if_neg hlt]
      refine ⟨h, fun info hinfo => ?_⟩
      obtain ⟨_, hinfo⟩ := Option.ite_none_right_eq_some.mp hinfo
      exact Info.map_grown h (by omega) hinfo

/-! ## One bit of an open file -/

theorem Info.getBit_eq (info : Info) (idx : Nat) :
    info.getBit idx = if idx < info.maxIdx then some (bitAt info.mmap idx).toNat else none := by
  have hbit : (byteOf info.mmap idx).toNat >>> (idx % 8) &&& 1 = (bitAt info.mmap idx).toNat := by
    have hread : bitAt info.mmap idx = (byteOf info.mmap idx).toNat.testBit (idx % 8) := rfl
    rw [hread, Nat.toNat_testBit, Nat.and_one_is_mod, Nat.shiftRight_eq_div_pow]
  rw [Info.getBit, hbit]

@[simp] theorem Info.maxIdx_setBit (info : Info) (idx : Nat) (val : Int) :
    (info.setBit idx val).maxIdx = info.maxIdx := by
  unfold Info.setBit
  split <;> rfl

/-- A bit that the file has is set, and the others stay. -/
theorem Info.bitAt_setBit (info : Info) (idx : Nat) (val : Int) (i : Nat) :
    bitAt (info.setBit idx val).mmap i =
      if idx < info.maxIdx ∧ i = idx then decide (val > 0) else bitAt info.mmap i := by
  unfold Info.setBit
  by_cases hlt : idx < info.maxIdx
  · have hlt' := hlt
    rw [info.size_eq] at hlt'
    simp only [hlt, if_true, true_and]
    exact bitAt_putBit hlt' _ i
  · simp only [hlt, if_false, false_and]

/-! ## The server's files

`values` is what each bit of a style was set to, if it was.
-/

/-- An open file has the bits it should have. -/
structure Info.Holds (maxZ : Int) (first : Entry) (value : Nat → Option Bool) (info : Info) :
    Prop where
  maxIdx_eq : info.maxIdx = capacity maxZ first
  bits : ∀ i < info.maxIdx, bitAt info.mmap i = (value i).getD (bitAt first.bytes i)

structure Sound (maxZ : Int) (dir : Directory) (values : Style → Nat → Option Bool) (g : Guard) :
    Prop where
  maxZ_eq : g.maxZ = maxZ
  entry : ∀ style, Grown maxZ (dir.entries style) (g.entries style)
  info : ∀ style info, g.infos style = some info →
    info.Holds maxZ (dir.entries style) (values style)

/-- A style that is not open has had no bit set, and had no file when the server started. -/
def Unopened (dir : Directory) (values : Style → Nat → Option Bool) (g : Guard) : Prop :=
  ∀ style, g.infos style = none →
    (∀ i, values style i = none) ∧ ∀ bytes, dir.entries style ≠ .file bytes

namespace Guard

variable {g : Guard} {style other : Style} {io : Io}

@[simp] theorem openInfo_infos_self :
    (g.openInfo style io).infos style = (Info.init g.maxZ (g.entries style) io).2 :=
  Function.update_self ..

theorem openInfo_infos_of_ne (h : other ≠ style) :
    (g.openInfo style io).infos other = g.infos other :=
  Function.update_of_ne h ..

@[simp] theorem openInfo_entries_self :
    (g.openInfo style io).entries style = (Info.init g.maxZ (g.entries style) io).1 :=
  Function.update_self ..

theorem openInfo_entries_of_ne (h : other ≠ style) :
    (g.openInfo style io).entries other = g.entries other :=
  Function.update_of_ne h ..

@[simp] theorem setInfo_infos_self {info : Info} :
    (g.setInfo style info).infos style = some info :=
  Function.update_self ..

theorem setInfo_infos_of_ne {info : Info} (h : other ≠ style) :
    (g.setInfo style info).infos other = g.infos other :=
  Function.update_of_ne h ..

end Guard

section Files

variable {maxZ : Int} {dir : Directory} {values : Style → Nat → Option Bool} {g : Guard}
  {style : Style}

theorem Sound.openInfo (h : Sound maxZ dir values g) (hnone : ∀ i, values style i = none) (io : Io) :
    Sound maxZ dir values (g.openInfo style io) := by
  obtain ⟨hgrown, hopened⟩ := Info.init_grown (h.entry style) io
  rw [← h.maxZ_eq] at hgrown hopened
  refine ⟨h.maxZ_eq, fun other => ?_, fun other info hinfo => ?_⟩
  · by_cases hother : other = style
    · rw [hother, Guard.openInfo_entries_self, ← h.maxZ_eq]
      exact hgrown
    · rw [Guard.openInfo_entries_of_ne hother]
      exact h.entry other
  · by_cases hother : other = style
    · rw [hother, Guard.openInfo_infos_self] at hinfo
      obtain ⟨hmax, hbits⟩ := hopened info hinfo
      rw [hother, ← h.maxZ_eq]
      exact ⟨hmax, fun i _ => by rw [hnone i, Option.getD_none, hbits i]⟩
    · rw [Guard.openInfo_infos_of_ne hother] at hinfo
      exact h.info other info hinfo

theorem Sound.getItem (h : Sound maxZ dir values g) (hun : Unopened dir values g) (io : Io) :
    Sound maxZ dir values (g.getItem style io) := by
  unfold Guard.getItem
  split
  · exact h
  · next hclosed => exact h.openInfo (hun style hclosed).1 io

theorem Unopened.getItem (hun : Unopened dir values g) (io : Io) :
    Unopened dir values (g.getItem style io) := by
  unfold Guard.getItem
  split
  · exact hun
  · next hclosed =>
    intro other hnone
    by_cases hother : other = style
    · rw [hother]
      exact hun style hclosed
    · rw [Guard.openInfo_infos_of_ne hother] at hnone
      exact hun other hnone

/-! ## The start -/

/-- The files among the names so far are open. -/
structure Entered (maxZ : Int) (dir : Directory) (past : List Style) (g : Guard) : Prop where
  sound : Sound maxZ dir (fun _ _ => none) g
  opened : ∀ style ∈ past, ∀ bytes, dir.entries style = .file bytes → g.infos style ≠ none

theorem Entered.enterName {past : List Style} {g' : Guard} {name : Style}
    (h : Entered maxZ dir past g) (hstep : g.enterName name = some g') :
    Entered maxZ dir (past ++ [name]) g' := by
  have hpast : ∀ {style}, style ∈ past ++ [name] → style ≠ name → style ∈ past := by
    intro style hstyle hne
    simpa [hne] using hstyle
  unfold Guard.enterName at hstep
  split at hstep
  · obtain ⟨hsome, hopen⟩ := Option.ite_none_right_eq_some.mp hstep
    obtain rfl := Option.some.inj hopen
    refine ⟨h.sound.openInfo (fun _ => rfl) .works, fun style hstyle bytes hfile => ?_⟩
    by_cases hname : style = name
    · rw [hname]
      exact Option.isSome_iff_ne_none.mp hsome
    · rw [Guard.openInfo_infos_of_ne hname]
      exact h.opened style (hpast hstyle hname) bytes hfile
  · next hnot =>
    obtain rfl := Option.some.inj hstep
    refine ⟨h.sound, fun style hstyle bytes hfile => ?_⟩
    by_cases hname : style = name
    · obtain ⟨b, hb⟩ := (h.sound.entry style).file hfile
      rw [hname] at hb
      exact absurd hb (hnot b)
    · exact h.opened style (hpast hstyle hname) bytes hfile

/-- The server starts with its files open. -/
theorem enter_sound (h : enter maxZ dir = some g) :
    Sound maxZ dir (fun _ _ => none) g ∧ Unopened dir (fun _ _ => none) g := by
  have hfirst : Entered maxZ dir []
      { maxZ := maxZ, entries := dir.entries, infos := fun _ => none } :=
    { sound := ⟨rfl, fun _ => .inl rfl, fun _ _ hinfo => by cases hinfo⟩
      opened := fun _ hstyle => absurd hstyle List.not_mem_nil }
  have hentered : Entered maxZ dir ([] ++ dir.names) g :=
    Run.run_invariant (fun _ _ _ _ hpast hstep => hpast.enterName hstep) dir.names [] _ g hfirst h
  refine ⟨hentered.sound, fun style hnone => ⟨fun _ => rfl, fun bytes hfile => ?_⟩⟩
  exact hentered.opened style (dir.complete hfile) bytes hfile hnone

end Files

/-! ## What a datagram does -/

/-- The server's state after a datagram, and its answer. -/
inductive Received (g : Guard) (d : Bytes) (io : Io) : Guard × Reply → Prop
  | refused (h : ∀ p, unpack d = some p → Guard.contains p.style = false) : Received g d io (g, .err)
  | closed {p : Packet} (hp : unpack d = some p) (hname : Guard.contains p.style = true)
      (hinfo : (g.getItem p.style io).infos p.style = none) :
      Received g d io (g.getItem p.style io, .err)
  | set {p : Packet} {info : Info} (hp : unpack d = some p) (hname : Guard.contains p.style = true)
      (hinfo : (g.getItem p.style io).infos p.style = some info) (hcmd : p.cmd = SET) :
      Received g d io ((g.getItem p.style io).setInfo p.style (info.setBit p.idx p.val), .ok)
  | get {p : Packet} {info : Info} (hp : unpack d = some p) (hname : Guard.contains p.style = true)
      (hinfo : (g.getItem p.style io).infos p.style = some info) (hcmd : p.cmd = GET) :
      Received g d io (g.getItem p.style io, .ofBit (info.getBit p.idx))
  | unknown {p : Packet} (hp : unpack d = some p) (hset : p.cmd ≠ SET) (hget : p.cmd ≠ GET) :
      Received g d io (g.getItem p.style io, .err)

theorem datagramReceived_cases (g : Guard) (d : Bytes) (io : Io) :
    Received g d io (datagramReceived g d io) := by
  unfold datagramReceived
  cases hp : unpack d with
  | none => exact .refused fun p h => by rw [hp] at h; cases h
  | some p =>
    dsimp only
    split
    · next hname =>
      split
      · next hinfo => exact .closed hp hname hinfo
      · next info hinfo =>
        split
        · next hcmd => exact .set hp hname hinfo hcmd
        · next hset =>
          split
          · next hcmd => exact .get hp hname hinfo hcmd
          · next hget => exact .unknown hp hset hget
    · next hname =>
      refine .refused fun p' h => ?_
      obtain rfl := Option.some.inj (hp.symm.trans h)
      exact Bool.eq_false_iff.mpr hname

section Setting

variable {maxZ : Int} {dir : Directory} {values values' : Style → Nat → Option Bool} {g : Guard}
  {style : Style} {info : Info} {idx : Nat} {val : Int}

theorem Sound.setBit (h : Sound maxZ dir values g) (hinfo : g.infos style = some info)
    (hvalues : ∀ s i, values' s i =
      if s = style ∧ i = idx then some (decide (val > 0)) else values s i) :
    Sound maxZ dir values' (g.setInfo style (info.setBit idx val)) := by
  refine ⟨h.maxZ_eq, h.entry, fun other info' hother => ?_⟩
  by_cases hstyle : other = style
  · subst hstyle
    rw [Guard.setInfo_infos_self] at hother
    obtain rfl := Option.some.inj hother
    have hholds := h.info other info hinfo
    refine ⟨by rw [Info.maxIdx_setBit, hholds.maxIdx_eq], fun i hi => ?_⟩
    rw [Info.maxIdx_setBit] at hi
    rw [info.bitAt_setBit, hvalues]
    by_cases hidx : i = idx
    · rw [if_pos ⟨hidx ▸ hi, hidx⟩, if_pos ⟨rfl, hidx⟩, Option.getD_some]
    · rw [if_neg fun h => hidx h.2, if_neg fun h => hidx h.2, hholds.bits i hi]
  · rw [Guard.setInfo_infos_of_ne hstyle] at hother
    have hsame : values' other = values other :=
      funext fun i => by rw [hvalues, if_neg fun h => hstyle h.1]
    rw [hsame]
    exact h.info other info' hother

theorem Unopened.setBit (h : Unopened dir values g) (info' : Info)
    (hvalues : ∀ s i, values' s i =
      if s = style ∧ i = idx then some (decide (val > 0)) else values s i) :
    Unopened dir values' (g.setInfo style info') := by
  intro other hnone
  by_cases hstyle : other = style
  · rw [hstyle, Guard.setInfo_infos_self] at hnone
    cases hnone
  · rw [Guard.setInfo_infos_of_ne hstyle] at hnone
    refine ⟨fun i => ?_, (h other hnone).2⟩
    rw [hvalues, if_neg fun h => hstyle h.1]
    exact (h other hnone).1 i

end Setting

end RenderMq.ExpiryInfo
