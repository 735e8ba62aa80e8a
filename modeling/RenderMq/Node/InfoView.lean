import RenderMq.Node.InfoClient

/-!
# The bits that a node sees

Where the operating system lets the expiry server open its files, a node sees of it only what asking for
a bit returns (`Guard.look`): the bit, or nothing where the style's file can not have it. `getTile_eq_look`
is what `get_tile` returns, and it changes nothing seen; after `set_tile` one bit is another, if it is seen
at all (`setTile_look`).
-/

namespace RenderMq.ExpiryInfo

open PackedBits

/-- The bit at an index of an open style. -/
def Guard.read (g : Guard) (style : Style) (idx : Nat) : Option Bool :=
  (g.infos style).bind fun info =>
    if idx < info.maxIdx then some (bitAt info.mmap idx) else none

/-- The bit that a question for it is answered with. -/
def Guard.look (g : Guard) (style : Style) (idx : Nat) : Option Bool :=
  if Guard.contains style then (g.getItem style .works).read style idx else none

/-- The index of a tile, unless it can not be sent. -/
def sentIdx (x y z : Nat) : Option Nat := (tileIdx x y z).filter fun idx => idx < 2 ^ 64

/-- The name of a style, as it is sent. -/
def sentStyle (style : Style) : Style := style.take 254

theorem sentIdx_eq_some {x y z idx : Nat} :
    sentIdx x y z = some idx ↔ tileIdx x y z = some idx ∧ idx < 2 ^ 64 := by
  rw [sentIdx, Option.filter_eq_some_iff, decide_eq_true_iff]

section Looks

variable {g g' : Guard} {style other : Style} {idx i : Nat}

/-- What is seen of a style depends on its own file. -/
theorem Guard.look_congr (hmax : g'.maxZ = g.maxZ) (hinfo : g'.infos style = g.infos style)
    (hentry : g'.entries style = g.entries style) : g'.look style i = g.look style i := by
  have hitem : (g'.getItem style .works).infos style = (g.getItem style .works).infos style := by
    unfold Guard.getItem
    rw [hinfo]
    cases g.infos style with
    | some info => exact hinfo
    | none =>
      dsimp only
      rw [openInfo_infos_self, openInfo_infos_self, hmax, hentry]
  rw [Guard.look, Guard.look, Guard.read, Guard.read, hitem]

theorem Guard.look_of_open {info : Info} (hinfo : g.infos style = some info)
    (hname : Guard.contains style = true) : g.look style i = g.read style i := by
  rw [Guard.look, if_pos hname, Guard.getItem, hinfo]

@[simp] theorem Guard.maxZ_getItem {io : Io} : (g.getItem style io).maxZ = g.maxZ := by
  unfold Guard.getItem
  split <;> rfl

/-- A file that could not be opened, though nothing went wrong, is left as it was. -/
theorem Info.init_works_none {maxZ : Int} {e : Entry} (h : (Info.init maxZ e .works).2 = none) :
    (Info.init maxZ e .works).1 = e := by
  unfold Info.init at h ⊢
  cases hsize : sizeOf maxZ with
  | none => rfl
  | some wanted =>
    rw [hsize] at h
    dsimp only at h ⊢
    by_cases hlt : wanted > e.bytes.length
    · rw [if_pos hlt] at h ⊢
      cases hgrow : e.grow (wanted - e.bytes.length) with
      | none => rw [Entry.expand, hgrow, Option.getD_none]
      | some e' =>
        -- a file with zeros added is not empty, so it is mapped
        obtain ⟨_, rfl⟩ := Entry.grow_eq_some.mp hgrow
        rw [Entry.expand, hgrow, Option.getD_some, Option.isSome_some, if_pos rfl] at h
        have hne : e.bytes ++ List.replicate (wanted - e.bytes.length) 0 ≠ [] := by
          refine List.ne_nil_of_length_pos ?_
          rw [List.length_append, List.length_replicate]
          omega
        obtain ⟨b, bytes, hcons⟩ := List.exists_cons_of_ne_nil hne
        rw [hcons] at h
        cases h
    · rw [if_neg hlt]

theorem Guard.getItem_works_closed (h : (g.getItem style .works).infos style = none) :
    g.getItem style .works = g := by
  unfold Guard.getItem at h ⊢
  split
  · rfl
  · next hnone =>
    rw [hnone] at h
    dsimp only at h
    rw [openInfo_infos_self] at h
    rw [Guard.openInfo, Info.init_works_none h, h, Function.update_eq_self, ← hnone,
      Function.update_eq_self]

/-- Opening a file changes nothing seen. -/
theorem Guard.look_getItem : (g.getItem style .works).look other i = g.look other i := by
  by_cases hother : other = style
  · subst hother
    cases hinfo : (g.getItem other .works).infos other with
    | none => rw [getItem_works_closed hinfo]
    | some info =>
      by_cases hname : Guard.contains other = true
      · rw [look_of_open hinfo hname, Guard.look, if_pos hname]
      · rw [Guard.look, Guard.look, if_neg hname, if_neg hname]
  · have hsame : (g.getItem style .works).infos other = g.infos other ∧
        (g.getItem style .works).entries other = g.entries other := getItem_of_ne hother
    exact look_congr maxZ_getItem hsame.1 hsame.2

theorem Guard.look_eq_none_of_closed (h : (g.getItem style .works).infos style = none) :
    g.look style i = none := by
  unfold Guard.look Guard.read
  rw [h]
  exact ite_self none

/-- One bit of an open file is another. -/
theorem Guard.look_setInfo {info : Info} {val : Int} (hinfo : g.infos style = some info)
    (hname : Guard.contains style = true) :
    (g.setInfo style (info.setBit idx val)).look other i =
      if other = style ∧ i = idx then (g.look other i).map fun _ => decide (val > 0)
      else g.look other i := by
  by_cases hother : other = style
  · subst hother
    rw [look_of_open setInfo_infos_self hname, look_of_open hinfo hname, Guard.read, Guard.read,
      setInfo_infos_self, hinfo, Option.bind_some, Option.bind_some, Info.maxIdx_setBit,
      info.bitAt_setBit]
    by_cases hi : i = idx
    · subst hi
      by_cases hlt : i < info.maxIdx
      · simp [hlt]
      · simp [hlt]
    · simp [hi]
  · rw [if_neg fun h => hother h.1]
    exact look_congr rfl (setInfo_infos_of_ne hother) rfl

end Looks

section Tiles

variable {g g' : Guard} {x y z idx : Nat} {style : Style}

theorem pack_isSome {val : Int} {cmd : UInt8} (h : idx < 2 ^ 64) (hval : val = 0 ∨ val = 1) :
    ∃ d, pack { idx := idx, val := val, cmd := cmd, style := style } = some d := by
  refine ⟨_, if_pos ⟨h, ?_⟩⟩
  show -128 ≤ val ∧ val ≤ 127
  omega

theorem datagramReceived_get {d : Bytes} {p : Packet} (hp : unpack d = some p)
    (hcmd : p.cmd = GET) :
    (datagramReceived g d .works).2 = (match g.look p.style p.idx with
      | some b => .bit b.toNat
      | none => .err) ∧
    ∀ s i, (datagramReceived g d .works).1.look s i = g.look s i := by
  generalize hr : datagramReceived g d .works = r
  have hcases := datagramReceived_cases g d .works
  rw [hr] at hcases
  have heq : ∀ {p'}, unpack d = some p' → p = p' := fun hp' => Option.some.inj (hp.symm.trans hp')
  cases hcases with
  | refused hrefused =>
    refine ⟨?_, fun _ _ => rfl⟩
    rw [Guard.look, hrefused p hp]
    rfl
  | closed hp' _ hinfo =>
    obtain rfl := heq hp'
    refine ⟨?_, fun _ _ => Guard.look_getItem⟩
    rw [Guard.look_eq_none_of_closed hinfo]
  | get hp' hname hinfo _ =>
    obtain rfl := heq hp'
    refine ⟨?_, fun _ _ => Guard.look_getItem⟩
    rw [Guard.look, if_pos hname, Guard.read, hinfo, Option.bind_some, Info.getBit_eq]
    split <;> rfl
  | set hp' _ _ hset =>
    obtain rfl := heq hp'
    rw [hcmd] at hset
    cases hset
  | unknown hp' _ hget => exact absurd (heq hp' ▸ hcmd) hget

theorem datagramReceived_set {d : Bytes} {p : Packet} (hp : unpack d = some p)
    (hcmd : p.cmd = SET) (s : Style) (i : Nat) :
    (datagramReceived g d .works).1.look s i =
      if s = p.style ∧ i = p.idx then (g.look s i).map fun _ => decide (p.val > 0)
      else g.look s i := by
  generalize hr : datagramReceived g d .works = r
  have hcases := datagramReceived_cases g d .works
  rw [hr] at hcases
  have heq : ∀ {p'}, unpack d = some p' → p = p' := fun hp' => Option.some.inj (hp.symm.trans hp')
  have hnothing : g.look p.style p.idx = none → g.look s i =
      if s = p.style ∧ i = p.idx then (g.look s i).map fun _ => decide (p.val > 0)
      else g.look s i := by
    intro hnone
    split
    · next h => rw [h.1, h.2, hnone, Option.map_none]
    · rfl
  cases hcases with
  | refused hrefused =>
    refine hnothing ?_
    rw [Guard.look, hrefused p hp]
    rfl
  | closed hp' _ hinfo =>
    obtain rfl := heq hp'
    exact Guard.look_getItem.trans (hnothing (Guard.look_eq_none_of_closed hinfo))
  | set hp' hname hinfo _ =>
    obtain rfl := heq hp'
    rw [Guard.look_setInfo hinfo hname, Guard.look_getItem]
  | get hp' _ _ hget =>
    obtain rfl := heq hp'
    rw [hcmd] at hget
    cases hget
  | unknown hp' hset _ => exact absurd (heq hp' ▸ hcmd) hset

/-- `get_tile` returns what is seen. -/
theorem getTile_eq_look (hidx : sentIdx x y z = some idx) :
    ∃ g', getTile g x y z style .works = some (g', g.look (sentStyle style) idx) ∧
      ∀ s i, g'.look s i = g.look s i := by
  obtain ⟨hidx, hlt⟩ := sentIdx_eq_some.mp hidx
  have hpack : ∃ d, pack { idx := idx, val := 0, cmd := GET, style := style } = some d :=
    pack_isSome hlt (.inl rfl)
  obtain ⟨d, hd⟩ := hpack
  obtain ⟨hreply, hsame⟩ := datagramReceived_get (g := g) (unpack_pack hd) rfl
  refine ⟨_, ?_, hsame⟩
  rw [getTile_eq hidx hd, hreply]
  show Option.map _ (Reply.bit? (match g.look (sentStyle style) idx with
    | some b => .bit b.toNat
    | none => .err)) = _
  cases g.look (sentStyle style) idx with
  | none => rfl
  | some b => cases b <;> rfl

/-- After `set_tile` one bit is another, if it is seen. -/
theorem setTile_look {val : Bool} (hidx : sentIdx x y z = some idx) :
    ∃ g' done, setTile g x y z style val .works = some (g', done) ∧
      ∀ s i, g'.look s i =
        if s = sentStyle style ∧ i = idx then (g.look s i).map fun _ => val else g.look s i := by
  obtain ⟨hidx, hlt⟩ := sentIdx_eq_some.mp hidx
  have hval : (if val then 1 else 0 : Int) = 0 ∨ (if val then 1 else 0 : Int) = 1 := by
    cases val
    · exact .inl rfl
    · exact .inr rfl
  have hpack : ∃ d, pack { idx := idx, val := if val then 1 else 0, cmd := SET, style := style } =
      some d := pack_isSome hlt hval
  obtain ⟨d, hd⟩ := hpack
  have hlook := datagramReceived_set (g := g) (unpack_pack hd) rfl
  have hgreater : decide ((if val then 1 else 0 : Int) > 0) = val := by
    cases val <;> rfl
  dsimp only at hlook
  rw [hgreater] at hlook
  refine ⟨(datagramReceived g d .works).1, decide ((datagramReceived g d .works).2 = .ok), ?_, hlook⟩
  unfold setTile
  rw [show MqExpiry.tileToMetaIdx _ _ z = some idx from hidx]
  show (request g _ .works).bind _ = _
  rw [request, hd, Option.map_some, Option.bind_some]
  rfl

/-- An index that can not be sent raises. -/
theorem request_eq_none {p : Packet} (h : sentIdx x y z = none)
    (hidx : MqExpiry.tileToMetaIdx (x / MqExpiry.METATILE) (y / MqExpiry.METATILE) z = some p.idx)
    (io : Io) : request g p io = none := by
  have hlt : ¬ p.idx < 2 ^ 64 := by
    intro hlt
    rw [sentIdx_eq_some.mpr ⟨hidx, hlt⟩] at h
    cases h
  rw [request, pack, if_neg fun hp => hlt hp.1, Option.map_none]

theorem getTile_eq_none (h : sentIdx x y z = none) (io : Io) :
    getTile g x y z style io = none := by
  unfold getTile
  cases hidx : MqExpiry.tileToMetaIdx (x / MqExpiry.METATILE) (y / MqExpiry.METATILE) z with
  | none => rfl
  | some idx =>
    show (request g _ io).bind _ = none
    rw [request_eq_none h hidx, Option.bind_none]

theorem setTile_eq_none (h : sentIdx x y z = none) (val : Bool) (io : Io) :
    setTile g x y z style val io = none := by
  unfold setTile
  cases hidx : MqExpiry.tileToMetaIdx (x / MqExpiry.METATILE) (y / MqExpiry.METATILE) z with
  | none => rfl
  | some idx =>
    show (request g _ io).bind _ = none
    rw [request_eq_none h hidx, Option.bind_none]

end Tiles

end RenderMq.ExpiryInfo
