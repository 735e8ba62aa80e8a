import RenderMq.Node.InfoServer

/-!
# Expiry as an array of bits

A node asks the expiry server for a tile's bit and sets it (`mqExpiryInfo`), over a socket that delivers
what is sent. For the server alone this module takes any datagrams: a run is the datagrams that came, with
what was answered (`Exchange`), and `values` is what each bit was last set to, by the answers.

`array_of_bits_iff` compares the server with an array of bits. Setting a bit changes no other. The bit is
read back if and only if the file has it: past the end of the file, a bit is set with success and then not
found.
-/

namespace RenderMq.ExpiryInfo

open PackedBits Wire

/-! ## The client -/

/-- A reply as `get_tile` takes it. Two characters are not one byte, which raises. -/
def Reply.bit? : Reply → Option (Option Bool)
  | .err => some none
  | .bit b => some (some (b != 0))
  | .ok => none

/-- `_get_bit`, `_set_bit`: the datagram is sent and answered. -/
def request (g : Guard) (p : Packet) (io : Io) : Option (Guard × Reply) :=
  (pack p).map fun d => datagramReceived g d io

/-- `get_tile`, unless it raises. -/
def getTile (g : Guard) (x y z : Nat) (style : Style) (io : Io) : Option (Guard × Option Bool) := do
  let idx ← MqExpiry.tileToMetaIdx (x / MqExpiry.METATILE) (y / MqExpiry.METATILE) z
  let (g, reply) ← request g { idx := idx, val := 0, cmd := GET, style := style } io
  let bit ← reply.bit?
  return (g, bit)

/-- `set_tile`, unless it raises: whether the server took the value. -/
def setTile (g : Guard) (x y z : Nat) (style : Style) (val : Bool) (io : Io) :
    Option (Guard × Bool) := do
  let idx ← MqExpiry.tileToMetaIdx (x / MqExpiry.METATILE) (y / MqExpiry.METATILE) z
  let bit := if val then 1 else 0
  let (g, reply) ← request g { idx := idx, val := bit, cmd := SET, style := style } io
  return (g, decide (reply = .ok))

/-! ## Runs of the server -/

/-- A datagram and what was answered. -/
structure Exchange where
  datagram : Bytes
  io : Io
  reply : Reply

def serve (g : Guard) (e : Exchange) : Option Guard :=
  if (datagramReceived g e.datagram e.io).2 = e.reply then
    some (datagramReceived g e.datagram e.io).1
  else none

/-- What an exchange sets a bit to: the server answered that it did. -/
def setTo (style : Style) (idx : Nat) (e : Exchange) : Option Bool :=
  (unpack e.datagram).bind fun p =>
    if p.style = style ∧ p.idx = idx ∧ p.cmd = SET ∧ e.reply = .ok then some (decide (p.val > 0))
    else none

/-- What each bit was last set to. -/
def values (es : List Exchange) (style : Style) (idx : Nat) : Option Bool :=
  Run.last (setTo style idx) es

/-- The bit that a file had before the server started. -/
def stored : Entry → Nat → Option Bool
  | .file bytes, i => if i < 8 * bytes.length then some (bitAt bytes i) else none
  | _, _ => none

/-- An answer tells what a bit should be. A bit that no file ever had, and that was never set, may be
answered as zero or not at all. -/
def Answers (reply : Reply) : Option Bool → Prop
  | some b => reply = .bit b.toNat
  | none => reply = .bit 0 ∨ reply = .err

theorem Reply.ofBit_ne_ok (bit : Option Nat) : Reply.ofBit bit ≠ .ok := by
  cases bit <;> exact Reply.noConfusion

theorem setTo_of_ne_ok {style : Style} {idx : Nat} {e : Exchange} (h : e.reply ≠ .ok) :
    setTo style idx e = none := by
  unfold setTo
  cases unpack e.datagram with
  | none => rfl
  | some p => exact if_neg fun hset => h hset.2.2.2

theorem setTo_of_set {e : Exchange} {p : Packet} (hp : unpack e.datagram = some p)
    (hcmd : p.cmd = SET) (hreply : e.reply = .ok) (style : Style) (idx : Nat) :
    setTo style idx e =
      if style = p.style ∧ idx = p.idx then some (decide (p.val > 0)) else none := by
  rw [setTo, hp, Option.bind_some]
  simp only [hcmd, hreply, and_true, eq_comm]

theorem values_append (es : List Exchange) (e : Exchange) (style : Style) (idx : Nat) :
    values (es ++ [e]) style idx = (setTo style idx e).or (values es style idx) :=
  Run.last_append ..

/-! ## The server keeps what was set -/

/-- What holds of the server after any exchanges. -/
structure Kept (maxZ : Int) (dir : Directory) (es : List Exchange) (g : Guard) : Prop where
  sound : Sound maxZ dir (values es) g
  unopened : Unopened dir (values es) g

section Runs

variable {maxZ : Int} {dir : Directory} {es : List Exchange} {g : Guard}

theorem Kept.getItem (h : Kept maxZ dir es g) (style : Style) (io : Io) :
    Kept maxZ dir es (g.getItem style io) :=
  ⟨h.sound.getItem h.unopened io, h.unopened.getItem io⟩

/-- An exchange that sets nothing. -/
theorem Kept.of_ne_ok {e : Exchange} (h : Kept maxZ dir es g) (he : e.reply ≠ .ok) :
    Kept maxZ dir (es ++ [e]) g := by
  have hsame : values (es ++ [e]) = values es := by
    funext style idx
    rw [values_append, setTo_of_ne_ok he, Option.none_or]
  exact ⟨by rw [hsame]; exact h.sound, by rw [hsame]; exact h.unopened⟩

theorem Kept.set {e : Exchange} {p : Packet} {info : Info} (h : Kept maxZ dir es g)
    (hp : unpack e.datagram = some p) (hcmd : p.cmd = SET) (he : e.reply = .ok)
    (hinfo : g.infos p.style = some info) :
    Kept maxZ dir (es ++ [e]) (g.setInfo p.style (info.setBit p.idx p.val)) := by
  have hvalues : ∀ s i, values (es ++ [e]) s i =
      if s = p.style ∧ i = p.idx then some (decide (p.val > 0)) else values es s i := by
    intro s i
    rw [values_append, setTo_of_set hp hcmd he]
    split
    · rfl
    · rw [Option.none_or]
  exact ⟨h.sound.setBit hinfo hvalues, h.unopened.setBit _ hvalues⟩

theorem Kept.exchange {g' : Guard} {e : Exchange} (h : Kept maxZ dir es g)
    (hstep : serve g e = some g') : Kept maxZ dir (es ++ [e]) g' := by
  obtain ⟨hreply, hg⟩ := Option.ite_none_right_eq_some.mp hstep
  obtain rfl := Option.some.inj hg
  generalize hr : datagramReceived g e.datagram e.io = r at hreply
  have hcases := datagramReceived_cases g e.datagram e.io
  rw [hr] at hcases
  have herr : Reply.err = e.reply → e.reply ≠ .ok := fun he hok => by rw [hok] at he; cases he
  cases hcases with
  | refused => exact h.of_ne_ok (herr hreply)
  | closed => exact (h.getItem _ _).of_ne_ok (herr hreply)
  | unknown => exact (h.getItem _ _).of_ne_ok (herr hreply)
  | set hp _ hinfo hcmd => exact (h.getItem _ _).set hp hcmd hreply.symm hinfo
  | @get p info =>
    refine (h.getItem _ _).of_ne_ok fun hok => ?_
    exact Reply.ofBit_ne_ok _ (hreply.trans hok)

theorem kept {g₀ : Guard} (hstart : enter maxZ dir = some g₀) (hrun : Run.run serve g₀ es = some g) :
    Kept maxZ dir es g := by
  have hfirst : Kept maxZ dir [] g₀ := ⟨(enter_sound hstart).1, (enter_sound hstart).2⟩
  have hkept : Kept maxZ dir ([] ++ es) g :=
    Run.run_invariant (fun _ _ _ _ h hstep => h.exchange hstep) es [] g₀ g hfirst hrun
  exact hkept

/-! ## Reading a bit -/

theorem stored_getD (e : Entry) (i : Nat) : (stored e i).getD false = bitAt e.bytes i := by
  match e with
  | .file bytes =>
    show (if i < 8 * bytes.length then some (bitAt bytes i) else none).getD false = bitAt bytes i
    split
    · rfl
    · next hge => exact (bitAt_of_length_le (Nat.not_lt.mp hge)).symm
  | .absent => exact (bitAt_nil i).symm
  | .other => exact (bitAt_nil i).symm

/-- A file that is opened has the bits it had. -/
theorem stored_eq_none {e : Entry} {i : Nat} (hi : capacity maxZ e ≤ i) : stored e i = none := by
  match e with
  | .file bytes =>
    refine if_neg ?_
    have hle : 8 * bytes.length ≤ capacity maxZ (.file bytes) :=
      Nat.mul_le_mul_left 8 (Nat.le_max_left ..)
    omega
  | .absent => rfl
  | .other => rfl

theorem Info.Holds.getBit {info : Info} {first : Entry} {value : Nat → Option Bool}
    (h : info.Holds maxZ first value) (idx : Nat) :
    info.getBit idx = if idx < capacity maxZ first then
      some ((value idx).getD (bitAt first.bytes idx)).toNat else none := by
  rw [info.getBit_eq, h.maxIdx_eq]
  split
  · next hlt => rw [h.bits idx (by rwa [h.maxIdx_eq])]
  · rfl

/-- The answer that a value calls for is the one given if the file has the bit, or if it was not set. -/
theorem answers_iff {value : Option Bool} {first : Entry} {idx : Nat} :
    Answers (.ofBit (if idx < capacity maxZ first then
        some (value.getD (bitAt first.bytes idx)).toNat else none))
      (value.or (stored first idx)) ↔ idx < capacity maxZ first ∨ value = none := by
  by_cases hlt : idx < capacity maxZ first
  · rw [if_pos hlt]
    refine iff_of_true ?_ (.inl hlt)
    cases value with
    | some b => rfl
    | none =>
      rw [Option.none_or, Option.getD_none, ← stored_getD]
      cases stored first idx with
      | some b => rfl
      | none => exact .inl rfl
  · rw [if_neg hlt]
    have hstored : stored first idx = none := stored_eq_none (Nat.not_lt.mp hlt)
    cases value with
    | some b => exact iff_of_false (fun h => by cases h) (fun h => by simp [hlt] at h)
    | none =>
      rw [hstored]
      exact iff_of_true (.inr rfl) (.inr rfl)

/-- **What is answered is what was set**, where the file has the bit. -/
theorem Kept.get_iff (h : Kept maxZ dir es g) {d : Bytes} {p : Packet} (io : Io)
    (hp : unpack d = some p) (hcmd : p.cmd = GET) (hname : Guard.contains p.style = true) :
    Answers (datagramReceived g d io).2
        ((values es p.style p.idx).or (stored (dir.entries p.style) p.idx)) ↔
      p.idx < capacity maxZ (dir.entries p.style) ∨ values es p.style p.idx = none := by
  have hitem := h.getItem p.style io
  have heq : ∀ {p'}, unpack d = some p' → p = p' := fun hp' => Option.some.inj (hp.symm.trans hp')
  generalize hr : datagramReceived g d io = r
  have hcases := datagramReceived_cases g d io
  rw [hr] at hcases
  cases hcases with
  | refused hrefused =>
    have := hrefused p hp
    rw [hname] at this
    cases this
  | closed hp' _ hinfo =>
    obtain rfl := heq hp'
    obtain ⟨hnone, hfile⟩ := hitem.unopened _ hinfo
    have hstored : stored (dir.entries p.style) p.idx = none := by
      cases hentry : dir.entries p.style with
      | file bytes => exact absurd hentry (hfile bytes)
      | absent => rfl
      | other => rfl
    rw [hnone, hstored]
    exact iff_of_true (.inr rfl) (.inr rfl)
  | get hp' _ hinfo _ =>
    obtain rfl := heq hp'
    rw [(hitem.sound.info _ _ hinfo).getBit]
    exact answers_iff
  | set hp' _ _ hset =>
    obtain rfl := heq hp'
    rw [hcmd] at hset
    cases hset
  | unknown hp' _ hget =>
    obtain rfl := heq hp'
    exact absurd hcmd hget

end Runs

/-! ## The other bits -/

/-- The bit that a style's file holds. -/
def Guard.bit (g : Guard) (style : Style) (idx : Nat) : Bool :=
  match g.infos style with
  | some info => bitAt info.mmap idx
  | none => bitAt (g.entries style).bytes idx

section Frame

variable {g : Guard} {d : Bytes} {io : Io} {p : Packet} {style : Style}

theorem Guard.bit_of_same {g' : Guard} (hinfo : g'.infos style = g.infos style)
    (hentry : g'.entries style = g.entries style) (idx : Nat) :
    g'.bit style idx = g.bit style idx := by
  rw [Guard.bit, Guard.bit, hinfo, hentry]

/-- Opening a style leaves the others as they are. -/
theorem Guard.getItem_of_ne {other : Style} (h : other ≠ style) :
    (g.getItem style io).infos other = g.infos other ∧
      (g.getItem style io).entries other = g.entries other := by
  unfold Guard.getItem
  split
  · exact ⟨rfl, rfl⟩
  · exact ⟨openInfo_infos_of_ne h, openInfo_entries_of_ne h⟩

theorem Guard.bit_openInfo (h : g.infos style = none) (idx : Nat) :
    (g.openInfo style io).bit style idx = g.bit style idx := by
  have hsame : Grown g.maxZ (g.entries style) (g.entries style) := .inl rfl
  obtain ⟨hgrown, hopened⟩ := Info.init_grown hsame io
  rw [Guard.bit, Guard.bit, h, openInfo_infos_self, openInfo_entries_self]
  cases hinfo : (Info.init g.maxZ (g.entries style) io).2 with
  | none => exact hgrown.bitAt_eq idx
  | some info => exact (hopened info hinfo).2 idx

theorem Guard.bit_getItem (other : Style) (idx : Nat) :
    (g.getItem style io).bit other idx = g.bit other idx := by
  by_cases hother : other = style
  · subst hother
    unfold Guard.getItem
    split
    · rfl
    · next hnone => exact bit_openInfo hnone idx
  · have hsame : (g.getItem style io).infos other = g.infos other ∧
        (g.getItem style io).entries other = g.entries other := getItem_of_ne hother
    exact bit_of_same hsame.1 hsame.2 idx

theorem Guard.bit_setInfo {info : Info} {idx i : Nat} {val : Int} (hinfo : g.infos style = some info)
    {other : Style} (hne : other ≠ style ∨ i ≠ idx) :
    (g.setInfo style (info.setBit idx val)).bit other i = g.bit other i := by
  by_cases hother : other = style
  · subst hother
    have hi : i ≠ idx := hne.resolve_left fun h => h rfl
    rw [Guard.bit, Guard.bit, setInfo_infos_self, hinfo]
    show bitAt (info.setBit idx val).mmap i = bitAt info.mmap i
    rw [info.bitAt_setBit, if_neg fun h => hi h.2]
  · exact bit_of_same (setInfo_infos_of_ne hother) rfl i

/-- A datagram for a style does nothing to another. -/
theorem datagramReceived_others (hp : unpack d = some p) (hne : style ≠ p.style) :
    (datagramReceived g d io).1.infos style = g.infos style ∧
      (datagramReceived g d io).1.entries style = g.entries style := by
  have hitem : ∀ {p'}, unpack d = some p' → (g.getItem p'.style io).infos style = g.infos style ∧
      (g.getItem p'.style io).entries style = g.entries style := by
    intro p' hp'
    obtain rfl := Option.some.inj (hp.symm.trans hp')
    exact Guard.getItem_of_ne hne
  generalize hr : datagramReceived g d io = r
  have hcases := datagramReceived_cases g d io
  rw [hr] at hcases
  cases hcases with
  | refused => exact ⟨rfl, rfl⟩
  | closed hp' => exact hitem hp'
  | get hp' => exact hitem hp'
  | unknown hp' => exact hitem hp'
  | set hp' =>
    have hstyle := hne
    rw [Option.some.inj (hp.symm.trans hp')] at hstyle
    exact ⟨(Guard.setInfo_infos_of_ne hstyle).trans (hitem hp').1, (hitem hp').2⟩

/-- **The frame.** A datagram for a bit changes no other. -/
theorem datagramReceived_frame (hp : unpack d = some p) {idx : Nat}
    (hne : style ≠ p.style ∨ idx ≠ p.idx) :
    (datagramReceived g d io).1.bit style idx = g.bit style idx := by
  generalize hr : datagramReceived g d io = r
  have hcases := datagramReceived_cases g d io
  rw [hr] at hcases
  cases hcases with
  | refused => rfl
  | closed => exact Guard.bit_getItem style idx
  | get => exact Guard.bit_getItem style idx
  | unknown => exact Guard.bit_getItem style idx
  | set hp' _ hinfo =>
    rw [Option.some.inj (hp.symm.trans hp')] at hne
    exact (Guard.bit_setInfo hinfo hne).trans (Guard.bit_getItem style idx)

end Frame

/-! ## What the client is told -/

theorem unpack_pack {p : Packet} {d : Bytes} (h : pack p = some d) :
    unpack d = some { p with style := p.style.take 254 } := by
  obtain ⟨⟨hidx, hlow, hhigh⟩, hd⟩ := Option.ite_none_right_eq_some.mp h
  obtain rfl := Option.some.inj hd
  have hval : ((Int8.ofInt p.val).toUInt8.toInt8).toInt = p.val := by
    rw [Int8.toInt8_toUInt8, Int8.toInt_ofInt_of_le hlow (by omega)]
  have hnum : ofBigEndian (bigEndian 8 p.idx) = p.idx := by
    rw [ofBigEndian_bigEndian, Nat.mod_eq_of_lt hidx]
  have hstyle : ofPascal (pascal 255 p.style) = p.style.take 254 := ofPascal_pascal (by decide) _
  have hlen := length_bigEndian 8 p.idx
  have htake : ∀ rest, (bigEndian 8 p.idx ++ rest).take 8 = bigEndian 8 p.idx :=
    fun rest => List.take_left' hlen
  have hdrop : ∀ rest n, (bigEndian 8 p.idx ++ rest).drop (8 + n) = rest.drop n :=
    fun rest n => by rw [← List.drop_drop, List.drop_left' hlen]
  have hget : ∀ rest n, (bigEndian 8 p.idx ++ rest).getD (8 + n) 0 = rest.getD n 0 := by
    intro rest n
    rw [List.getD_append_right _ _ _ _ (by omega), hlen, Nat.add_sub_cancel_left]
  rw [unpack, if_pos (by simp), htake, hget _ 0, hget _ 1, hdrop _ 2, hnum]
  simp only [List.getD_cons_zero, List.getD_cons_succ, List.drop_succ_cons, List.drop_zero, hval,
    hstyle]

section Client

variable {g g' : Guard} {x y z : Nat} {style : Style} {val : Bool} {io : Io}

/-- The index that the client asks for a tile. -/
def tileIdx (x y z : Nat) : Option Nat :=
  MqExpiry.tileToMetaIdx (x / MqExpiry.METATILE) (y / MqExpiry.METATILE) z

/-- The file of the style has the tile's bit. -/
def HasBit (maxZ : Int) (e : Entry) (x y z : Nat) : Prop :=
  ∃ idx, tileIdx x y z = some idx ∧ idx < capacity maxZ e

theorem setTile_eq_some {done : Bool} (h : setTile g x y z style val io = some (g', done)) :
    ∃ idx d reply, tileIdx x y z = some idx ∧
      pack { idx := idx, val := if val then 1 else 0, cmd := SET, style := style } = some d ∧
      datagramReceived g d io = (g', reply) ∧ done = decide (reply = .ok) := by
  obtain ⟨idx, hidx, h⟩ := Option.bind_eq_some_iff.mp h
  obtain ⟨⟨g₁, reply⟩, hreq, h⟩ := Option.bind_eq_some_iff.mp h
  obtain ⟨d, hd, hreply⟩ := Option.map_eq_some_iff.mp hreq
  obtain ⟨rfl, rfl⟩ := Prod.mk.inj (Option.some.inj h)
  exact ⟨idx, d, reply, hidx, hd, hreply, rfl⟩

theorem getTile_eq {idx : Nat} {d : Bytes} (hidx : tileIdx x y z = some idx)
    (hd : pack { idx := idx, val := 0, cmd := GET, style := style } = some d) :
    getTile g x y z style io =
      (datagramReceived g d io).2.bit?.map fun bit => ((datagramReceived g d io).1, bit) := by
  have hreq : request g { idx := idx, val := 0, cmd := GET, style := style } io =
      some (datagramReceived g d io) := by rw [request, hd, Option.map_some]
  unfold getTile
  rw [show MqExpiry.tileToMetaIdx _ _ z = some idx from hidx]
  show (request g { idx := idx, val := 0, cmd := GET, style := style } io).bind _ = _
  rw [hreq, Option.bind_some]
  obtain ⟨g₁, reply⟩ := datagramReceived g d io
  cases reply <;> rfl

/-- A style that is open answers from its file. -/
theorem datagramReceived_of_open {d : Bytes} {p : Packet} {info : Info} (hp : unpack d = some p)
    (hname : Guard.contains p.style = true) (hinfo : g.infos p.style = some info)
    (hcmd : p.cmd = GET) : datagramReceived g d io = (g, .ofBit (info.getBit p.idx)) := by
  have hitem : g.getItem p.style io = g := by rw [Guard.getItem, hinfo]
  have hget : ¬ p.cmd = SET := by
    rw [hcmd]
    decide
  rw [datagramReceived, hp]
  dsimp only
  rw [if_pos hname, hitem, hinfo]
  dsimp only
  rw [if_neg hget, if_pos hcmd]

/-- What was set with success is open. -/
theorem open_of_ok {d : Bytes} {p : Packet} (hp : unpack d = some p)
    (h : datagramReceived g d io = (g', .ok)) :
    Guard.contains p.style = true ∧ ∃ info, g'.infos p.style = some info := by
  have hcases := datagramReceived_cases g d io
  rw [h] at hcases
  generalize hr : (g', Reply.ok) = r at hcases
  cases hcases with
  | refused => cases hr
  | closed => cases hr
  | unknown => cases hr
  | set hp' hname _ _ =>
    obtain rfl := Option.some.inj (hp.symm.trans hp')
    obtain rfl := (Prod.mk.inj hr).1
    exact ⟨hname, _, Guard.setInfo_infos_self⟩
  | @get p' info =>
    exact absurd (Prod.mk.inj hr).2.symm (Reply.ofBit_ne_ok _)

/-- **A value that was set is read back if and only if the file has the bit.** -/
theorem Kept.getTile_iff {maxZ : Int} {dir : Directory} {es : List Exchange}
    (h : Kept maxZ dir es g) (hstyle : style.length ≤ 254)
    (hset : setTile g x y z style val io = some (g', true)) (io' : Io) :
    (∃ g'', getTile g' x y z style io' = some (g'', some val)) ↔
      HasBit maxZ (dir.entries style) x y z := by
  obtain ⟨idx, d, reply, hidx, hd, hreceived, hdone⟩ := setTile_eq_some hset
  obtain rfl := of_decide_eq_true hdone.symm
  have hcut : style.take 254 = style := List.take_of_length_le hstyle
  have hp := unpack_pack hd
  dsimp only at hp
  rw [hcut] at hp
  -- the exchange that set the bit is one more of the run
  let e : Exchange := { datagram := d, io := io, reply := .ok }
  have hstep : serve g e = some g' := by
    rw [serve, show datagramReceived g e.datagram e.io = (g', .ok) from hreceived, if_pos rfl]
  have hvalue : values (es ++ [e]) style idx = some val := by
    rw [values_append, setTo_of_set hp rfl rfl, if_pos ⟨rfl, rfl⟩]
    cases val <;> rfl
  obtain ⟨hname, info, hinfo⟩ := open_of_ok hp hreceived
  have hbit := ((h.exchange hstep).sound.info style info hinfo).getBit idx
  rw [hvalue, Option.getD_some] at hbit
  obtain ⟨⟨hidx64, _⟩, _⟩ := Option.ite_none_right_eq_some.mp hd
  obtain ⟨d', hd'⟩ : ∃ d', pack { idx := idx, val := 0, cmd := GET, style := style } = some d' :=
    ⟨_, if_pos ⟨hidx64, show (-128 : Int) ≤ 0 by decide, show (0 : Int) ≤ 127 by decide⟩⟩
  have hp' := unpack_pack hd'
  dsimp only at hp'
  rw [hcut] at hp'
  rw [getTile_eq hidx hd', datagramReceived_of_open hp' hname hinfo rfl, hbit]
  by_cases hlt : idx < capacity maxZ (dir.entries style)
  · rw [if_pos hlt]
    refine iff_of_true ⟨g', ?_⟩ ⟨idx, hidx, hlt⟩
    cases val <;> rfl
  · rw [if_neg hlt]
    refine iff_of_false (fun hget => ?_) fun hhas => ?_
    · obtain ⟨_, hget⟩ := hget
      cases hget
    · obtain ⟨idx', hidx', hlt'⟩ := hhas
      obtain rfl := Option.some.inj (hidx.symm.trans hidx')
      exact hlt hlt'

end Client

/-- **The server is an array of bits as far as its files reach.** After any exchanges: a question is
answered with what the bit was last set to, or with what it was before the start, if and only if the
file has the bit or it was never set; a datagram that sets a bit changes no other; and a tile that the
client set with success is read back if and only if the file has its bit.

Datagrams are any bytes, served one at a time, and operations on files may fail. Nothing else changes
the files while the server runs. A style of more than 254 characters is not covered in the last part. -/
theorem array_of_bits_iff {maxZ : Int} {dir : Directory} {g₀ g : Guard} {es : List Exchange}
    (hstart : enter maxZ dir = some g₀) (hrun : Run.run serve g₀ es = some g) :
    (∀ d io p, unpack d = some p → p.cmd = GET → Guard.contains p.style = true →
      (Answers (datagramReceived g d io).2
          ((values es p.style p.idx).or (stored (dir.entries p.style) p.idx)) ↔
        p.idx < capacity maxZ (dir.entries p.style) ∨ values es p.style p.idx = none)) ∧
    (∀ d io p, unpack d = some p → p.cmd = SET → ∀ style,
      (style ≠ p.style → (datagramReceived g d io).1.infos style = g.infos style ∧
        (datagramReceived g d io).1.entries style = g.entries style) ∧
      ∀ idx, style ≠ p.style ∨ idx ≠ p.idx →
        (datagramReceived g d io).1.bit style idx = g.bit style idx) ∧
    ∀ x y z style val io g', style.length ≤ 254 →
      setTile g x y z style val io = some (g', true) → ∀ io',
        ((∃ g'', getTile g' x y z style io' = some (g'', some val)) ↔
          HasBit maxZ (dir.entries style) x y z) := by
  have hkept := kept hstart hrun
  refine ⟨?_, ?_, ?_⟩
  · intro d io p hp hcmd hname
    exact hkept.get_iff io hp hcmd hname
  · intro d io p hp _ style
    exact ⟨datagramReceived_others hp, fun idx => datagramReceived_frame hp⟩
  · intro x y z style val io g' hstyle hset io'
    exact hkept.getTile_iff hstyle hset io'

/-! ## A server for zoom 4 -/

def noFiles : Directory :=
  { entries := fun _ => .absent, names := [], complete := fun h => by cases h }

/-- The server as it starts. -/
def zoomFour : Guard := { maxZ := 4, entries := fun _ => .absent, infos := fun _ => none }

/-- The name `osm`. -/
def osm : Style := [111, 115, 109]

/-- A tile of zoom 4 is read back. -/
theorem zoom_four_is_kept :
    ∃ g g', setTile zoomFour 0 0 4 osm true .works = some (g, true) ∧
      getTile g 0 0 4 osm .works = some (g', some true) := by
  have hdone : (setTile zoomFour 0 0 4 osm true .works).map Prod.snd = some true := by
    decide +kernel
  obtain ⟨⟨g, _⟩, hset, rfl⟩ := Option.map_eq_some_iff.mp hdone
  have hstart : enter 4 noFiles = some zoomFour := rfl
  have hrun : Run.run serve zoomFour [] = some zoomFour := rfl
  have hbits := (array_of_bits_iff hstart hrun).2.2 0 0 4 osm true .works g (by decide) hset .works
  obtain ⟨g', hget⟩ := hbits.mpr ⟨4, rfl, by decide⟩
  exact ⟨g, g', hset, hget⟩

/-- A tile of zoom 5 is set with success and not found. -/
theorem zoom_five_is_lost :
    ¬ ∀ g₀ g, enter 4 noFiles = some g₀ → setTile g₀ 0 0 5 osm true .works = some (g, true) →
      ∃ g', getTile g 0 0 5 osm .works = some (g', some true) := by
  intro h
  have hlost : ((setTile zoomFour 0 0 5 osm true .works).bind fun set =>
      (getTile set.1 0 0 5 osm .works).map fun get => (set.2, get.2)) = some (true, none) := by
    decide +kernel
  obtain ⟨⟨g, _⟩, hset, hlost⟩ := Option.bind_eq_some_iff.mp hlost
  obtain ⟨⟨_, _⟩, hnone, hread⟩ := Option.map_eq_some_iff.mp hlost
  obtain ⟨rfl, rfl⟩ := Prod.mk.inj hread
  obtain ⟨_, hget⟩ := h zoomFour g rfl hset
  rw [hnone] at hget
  cases hget

end RenderMq.ExpiryInfo
