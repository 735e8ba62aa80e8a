import RenderMq.Tile.PathGrammar

/-!
# The paths that are accepted

What the grammar reads is told by the pieces of the text (`PathText`), and the command after them. The
grammar asks for the end of the text only where there is no command, and the parser does not ask
whether all was read. So a text may go on after its command. It may also begin with something before
its first `/`, since the parser drops all up to the third (`Splits`).

`accepts_exactly_iff` says that these are the only texts that are accepted and are no paths.
-/

namespace RenderMq

namespace TilePath

open Peg

/-! ## The language -/

/-- A text of an `int`: a sign, if any, and digits. -/
def SpellsInt (text : List Char) (v : Int) : Prop :=
  ∃ signText negative digits, (signText, negative) ∈ signs ∧ digits ≠ [] ∧
    (∀ c ∈ digits, c.isDigit = true) ∧ text = signText ++ digits ∧ IsInt v ∧
    (if negative then -(Nat.ofDigitChars 10 digits 0 : Int)
      else (Nat.ofDigitChars 10 digits 0 : Int)) = v

/-- The pieces of `/STYLE/z/x/y.FMT`. -/
structure PathText where
  first : List Char
  more : List (List Char)
  z : List Char
  x : List Char
  y : List Char
  spelling : List Char
  isStyle : IsSegment first ∧ ∀ text ∈ more, IsSegment text
  isZ : ∃ v, SpellsInt z v
  isX : ∃ v, SpellsInt x v
  isY : ∃ v, SpellsInt y v
  isFormat : ∃ format, (spelling, format) ∈ formats

def PathText.style (p : PathText) : List Char := p.first ++ p.more.flatMap (List.cons '/')

def PathText.text (p : PathText) (rest : List Char) : List Char :=
  '/' :: (p.style ++ '/' :: (p.z ++ '/' :: (p.x ++ '/' :: (p.y ++ '.' :: (p.spelling ++ rest)))))

/-- A text is a path, but for something before the first `/`, and something after the command. -/
def Splits (text before rest : List Char) : Prop :=
  ∃ (a b : List Char) (p : PathText) (command : String) (status : ProtoCmd),
    '/' ∉ before ∧ '/' ∉ a ∧ '/' ∉ b ∧ (command, status) ∈ commandTexts ∧
      (command = "" → rest = []) ∧
      text = before ++ '/' :: (a ++ '/' :: (b ++ p.text (command.toList ++ rest)))

/-- Two segments, `/STYLE/z/x/y.FMT`, and nothing, `/dirty` or `/status`. -/
def IsPath (text : String) : Prop := Splits text.toList [] []

/-- A path with something before its first `/`, or after its command. -/
def HasExtra (text : String) : Prop :=
  ∃ before rest, Splits text.toList before rest ∧ ¬(before = [] ∧ rest = [])

/-! ## What the parsers take -/

theorem sign_of_reads {input rest : List Char} {negative : Bool} (h : Reads sign input negative rest) :
    ∃ text, (text, negative) ∈ signs ∧ input = text ++ rest := by
  rcases orElse_of_reads h with h | h
  · obtain ⟨_, _, hliteral, h⟩ := reads_bind_iff.mp h
    obtain ⟨rfl, rfl⟩ := reads_pure_iff.mp h
    exact ⟨['-'], by decide, literal_of_reads hliteral⟩
  rcases orElse_of_reads h with h | h
  · obtain ⟨_, _, hliteral, h⟩ := reads_bind_iff.mp h
    obtain ⟨rfl, rfl⟩ := reads_pure_iff.mp h
    exact ⟨['+'], by decide, literal_of_reads hliteral⟩
  · obtain ⟨rfl, rfl⟩ := reads_pure_iff.mp h
    exact ⟨[], by decide, rfl⟩

theorem int_of_reads {input rest : List Char} {v : Int} (h : Reads int input v rest) :
    ∃ text, SpellsInt text v ∧ input = text ++ rest := by
  obtain ⟨negative, _, hsign, h⟩ := reads_bind_iff.mp h
  obtain ⟨digits, _, hdigits, hvalue⟩ := reads_bind_iff.mp h
  clear h
  obtain ⟨signText, hmem, rfl⟩ := sign_of_reads hsign
  obtain ⟨hall, rfl⟩ := many_satisfy_of_reads hdigits
  dsimp only at hvalue
  generalize hw : (if negative then -(Nat.ofDigitChars 10 digits 0 : Int)
    else (Nat.ofDigitChars 10 digits 0 : Int)) = w at hvalue
  split at hvalue
  · next hfits =>
    obtain ⟨rfl, rfl⟩ := reads_pure_iff.mp hvalue
    refine ⟨signText ++ digits, ?_, (List.append_assoc ..).symm⟩
    exact ⟨signText, negative, digits, hmem, hfits.1, hall, rfl, hfits.2, hw⟩
  · cases hvalue

theorem segment_of_reads {input rest : List Char} {u : Unit} (h : Reads segment input u rest) :
    ∃ text, IsSegment text ∧ input = text ++ rest := by
  obtain ⟨a, _, hfirst, h⟩ := reads_bind_iff.mp h
  obtain ⟨letters, _, hletters, h⟩ := reads_bind_iff.mp h
  obtain ⟨rfl, rfl⟩ := reads_pure_iff.mp h
  obtain ⟨ha, rfl⟩ := satisfy_of_reads hfirst
  obtain ⟨hall, rfl⟩ := many_satisfy_of_reads hletters
  exact ⟨a :: letters, ⟨a, letters, rfl, ha, hall⟩, rfl⟩

theorem segments_of_reads {input rest : List Char} {us : List Unit}
    (h : Reads (listOf segment (literal ['/'])) input us rest) :
    ∃ (first : List Char) (more : List (List Char)), IsSegment first ∧ (∀ text ∈ more, IsSegment text) ∧
      input = first ++ more.flatMap (List.cons '/') ++ rest := by
  obtain ⟨_, _, middle, _, hfirst, hmore⟩ := listOf_of_reads h
  obtain ⟨first, hsegment, rfl⟩ := segment_of_reads hfirst
  have hone : ∀ input u rest, Reads (do let _ ← literal ['/']; segment) input u rest →
      ∃ text, (∃ s, IsSegment s ∧ text = '/' :: s) ∧ input = text ++ rest := by
    intro input u rest h
    obtain ⟨_, _, hslash, h⟩ := reads_bind_iff.mp h
    obtain ⟨s, hs, rfl⟩ := segment_of_reads h
    obtain rfl := literal_of_reads hslash
    exact ⟨'/' :: s, ⟨s, hs, rfl⟩, rfl⟩
  have hflat : ∀ {us : List Unit} {texts : List (List Char)},
      List.Forall₂ (fun _ text => ∃ s, IsSegment s ∧ text = '/' :: s) us texts →
        ∃ more : List (List Char), (∀ text ∈ more, IsSegment text) ∧
          texts.flatten = more.flatMap (List.cons '/') := by
    intro us texts htexts
    induction htexts with
    | nil => exact ⟨[], by simp, rfl⟩
    | cons hone _ ih =>
      obtain ⟨s, hs, rfl⟩ := hone
      obtain ⟨more, hmore, hflat⟩ := ih
      refine ⟨s :: more, List.forall_mem_cons.mpr ⟨hs, hmore⟩, ?_⟩
      rw [List.flatten_cons, List.flatMap_cons, hflat]
  obtain ⟨texts, htexts, rfl⟩ := many_of_reads hone hmore
  obtain ⟨more, hmore, hflat⟩ := hflat htexts
  exact ⟨first, more, hsegment, hmore, by rw [hflat, List.append_assoc]⟩

theorem commands_of_reads {input rest : List Char} {status : ProtoCmd}
    (h : Reads commands input status rest) : ∃ command : String, (command, status) ∈ commandTexts ∧
      (command = "" → rest = []) ∧ input = command.toList ++ rest := by
  rcases orElse_of_reads h with h | h
  · obtain ⟨_, _, hend, h⟩ := reads_bind_iff.mp h
    obtain ⟨rfl, rfl⟩ := reads_pure_iff.mp h
    obtain ⟨rfl, rfl⟩ := endOfInput_of_reads hend
    exact ⟨"", by decide, fun _ => rfl, rfl⟩
  rcases orElse_of_reads h with h | h
  · obtain ⟨_, _, hliteral, h⟩ := reads_bind_iff.mp h
    obtain ⟨rfl, rfl⟩ := reads_pure_iff.mp h
    exact ⟨"/dirty", by decide, fun h => absurd h (by decide), literal_of_reads hliteral⟩
  · obtain ⟨_, _, hliteral, h⟩ := reads_bind_iff.mp h
    obtain ⟨rfl, rfl⟩ := reads_pure_iff.mp h
    exact ⟨"/status", by decide, fun h => absurd h (by decide), literal_of_reads hliteral⟩

theorem path_of_reads {tile v : TileProtocol} {input rest : List Char}
    (h : Reads (path tile) input v rest) :
    ∃ (p : PathText) (command : String) (status : ProtoCmd), (command, status) ∈ commandTexts ∧
      (command = "" → rest = []) ∧ input = p.text (command.toList ++ rest) := by
  obtain ⟨_, input₁, hslash, h₁⟩ := reads_bind_iff.mp h
  obtain ⟨style, input₂, hstyle, h₂⟩ := reads_bind_iff.mp h₁
  obtain ⟨_, _, hslash₁, h₃⟩ := reads_bind_iff.mp h₂
  obtain ⟨z, _, hz, h₄⟩ := reads_bind_iff.mp h₃
  obtain ⟨_, _, hslash₂, h₅⟩ := reads_bind_iff.mp h₄
  obtain ⟨x, _, hx, h₆⟩ := reads_bind_iff.mp h₅
  obtain ⟨_, _, hslash₃, h₇⟩ := reads_bind_iff.mp h₆
  obtain ⟨y, _, hy, h₈⟩ := reads_bind_iff.mp h₇
  obtain ⟨_, _, hdot, h₉⟩ := reads_bind_iff.mp h₈
  obtain ⟨format, _, hformat, h₁₀⟩ := reads_bind_iff.mp h₉
  obtain ⟨status, _, hcommand, hpure⟩ := reads_bind_iff.mp h₁₀
  clear h h₁ h₂ h₃ h₄ h₅ h₆ h₇ h₈ h₉ h₁₀
  obtain ⟨rfl, rfl⟩ := reads_pure_iff.mp hpure
  have hsuffix : ∀ us, Reads (listOf segment (literal ['/'])) input₁ us input₂ →
      input₂ <:+ input₁ := by
    intro us hus
    obtain ⟨first, more, _, _, rfl⟩ := segments_of_reads hus
    exact List.suffix_append _ _
  obtain ⟨us, hus, hraw⟩ := raw_of_reads hstyle hsuffix
  obtain ⟨first, more, hfirst, hmore, heq⟩ := segments_of_reads hus
  obtain ⟨command, hmem, hrest, rfl⟩ := commands_of_reads hcommand
  obtain ⟨spelling, hspelling, rfl⟩ := symbols_of_reads hformat
  obtain rfl := literal_of_reads hdot
  obtain ⟨yText, hyText, rfl⟩ := int_of_reads hy
  obtain rfl := literal_of_reads hslash₃
  obtain ⟨xText, hxText, rfl⟩ := int_of_reads hx
  obtain rfl := literal_of_reads hslash₂
  obtain ⟨zText, hzText, rfl⟩ := int_of_reads hz
  obtain rfl := literal_of_reads hslash₁
  let p : PathText :=
    { first := first, more := more, z := zText, x := xText, y := yText, spelling := spelling,
      isStyle := ⟨hfirst, hmore⟩, isZ := ⟨z, hzText⟩, isX := ⟨x, hxText⟩, isY := ⟨y, hyText⟩,
      isFormat := ⟨format, hspelling⟩ }
  refine ⟨p, command, status, hmem, hrest, ?_⟩
  rw [literal_of_reads hslash, heq]
  simp [p, PathText.text, PathText.style]

theorem findNth_succ_of_eq_cons {c a : Char} {n : Nat} {text rest : List Char}
    (h : findNth c (n + 1) text = a :: rest) :
    ∃ before after, c ∉ before ∧ text = before ++ c :: after ∧ findNth c n after = a :: rest := by
  induction text with
  | nil => cases h
  | cons b text ih =>
    rw [findNth] at h
    split at h
    · next hb => exact ⟨[], text, List.not_mem_nil, by rw [hb, List.nil_append], h⟩
    · next hb =>
      obtain ⟨before, after, hbefore, rfl, hfound⟩ := ih h
      refine ⟨b :: before, after, fun hmem => ?_, rfl, hfound⟩
      rcases List.mem_cons.mp hmem with rfl | hmem
      · exact hb rfl
      · exact hbefore hmem

theorem findNth_zero_of_eq_cons {c a : Char} {text rest : List Char}
    (h : findNth c 0 text = a :: rest) : ∃ before, c ∉ before ∧ text = before ++ a :: rest := by
  induction text with
  | nil => cases h
  | cons b text ih =>
    rw [findNth] at h
    split at h
    · next hb => exact ⟨[], List.not_mem_nil, h⟩
    · next hb =>
      obtain ⟨before, hbefore, rfl⟩ := ih h
      refine ⟨b :: before, fun hmem => ?_, rfl⟩
      rcases List.mem_cons.mp hmem with rfl | hmem
      · exact hb rfl
      · exact hbefore hmem

/-! ## What is accepted -/

theorem splits_of_reads {tile v : TileProtocol} {text rest : List Char}
    (h : Reads (path tile) (findNth '/' 2 text) v rest) : ∃ before, Splits text before rest := by
  obtain ⟨p, command, status, hmem, hrest, hfound⟩ := path_of_reads h
  obtain ⟨before, after, hbefore, htext, hfound₁⟩ := findNth_succ_of_eq_cons hfound
  obtain ⟨a, after₁, ha, hafter, hfound₂⟩ := findNth_succ_of_eq_cons hfound₁
  obtain ⟨b, hb, hafter₁⟩ := findNth_zero_of_eq_cons hfound₂
  rw [hafter, hafter₁] at htext
  exact ⟨before, a, b, p, command, status, hbefore, ha, hb, hmem, hrest, htext⟩

theorem SpellsInt.reads {text : List Char} {v : Int} (h : SpellsInt text v) : ReadsInt text v := by
  obtain ⟨signText, negative, digits, hsign, hne, hdigits, rfl, hfits, hv⟩ := h
  intro rest hrest
  rw [List.append_assoc]
  exact reads_int_of_digits (reads_sign hsign hne hdigits rest) hne hdigits hrest hv hfits.1 hfits.2

theorem SpellsInt.head_not_alpha {text : List Char} {v : Int} (h : SpellsInt text v)
    (rest : List Char) : ∀ c ∈ (text ++ rest).head?, c.isAlpha = false := by
  obtain ⟨signText, negative, digits, hsign, hne, hdigits, rfl, _⟩ := h
  simp only [signs, List.mem_cons, List.not_mem_nil, or_false, Prod.mk.injEq] at hsign
  rcases hsign with ⟨rfl, _⟩ | ⟨rfl, _⟩ | ⟨rfl, _⟩
  · exact forall_head (by decide)
  · exact forall_head (by decide)
  · obtain ⟨c, digits, rfl⟩ := List.exists_cons_of_ne_nil hne
    refine forall_head (Bool.eq_false_iff.mpr fun halpha => ?_)
    have hdigit := hdigits c List.mem_cons_self
    rw [isDigit_of_isAlpha halpha] at hdigit
    cases hdigit

theorem PathText.reads (p : PathText) (tile : TileProtocol) {command : String} {status : ProtoCmd}
    (hmem : (command, status) ∈ commandTexts) {rest : List Char} (hrest : command = "" → rest = []) :
    ∃ v, Reads (path tile) (p.text (command.toList ++ rest)) v rest := by
  obtain ⟨z, hz⟩ := p.isZ
  obtain ⟨x, hx⟩ := p.isX
  obtain ⟨y, hy⟩ := p.isY
  obtain ⟨format, hformat⟩ := p.isFormat
  have hstyle (rest : List Char) (hhead : ∀ c ∈ rest.head?, c.isAlpha = false) :=
    reads_segments p.isStyle.1 p.isStyle.2 hhead
  exact ⟨_, reads_path tile p.style p.z p.x p.y hstyle hz.head_not_alpha hz.reads hx.reads hy.reads
    hformat (reads_commands hmem hrest)⟩

theorem Splits.reads {text before rest : List Char} (h : Splits text before rest)
    (tile : TileProtocol) : ∃ v, Reads (path tile) (findNth '/' 2 text) v rest := by
  obtain ⟨a, b, p, command, status, hbefore, ha, hb, hmem, hrest, rfl⟩ := h
  obtain ⟨v, hv⟩ := p.reads tile hmem hrest
  refine ⟨v, ?_⟩
  rw [findNth_append hbefore]
  unfold PathText.text
  rwa [findNth_third ha hb]

/-- A text is accepted where it is a path, with something before or after it or not. -/
theorem accepts_iff (tile : TileProtocol) (text : String) :
    (parse tile text).isSome = true ↔ ∃ before rest, Splits text.toList before rest := by
  rw [parse, Option.isSome_map, Option.isSome_iff_exists]
  constructor
  · rintro ⟨⟨v, rest⟩, h⟩
    obtain ⟨before, hsplits⟩ := splits_of_reads h
    exact ⟨before, rest, hsplits⟩
  · rintro ⟨before, rest, hsplits⟩
    obtain ⟨v, hv⟩ := hsplits.reads tile
    exact ⟨(v, rest), hv⟩

/-- A path has nothing before it and nothing after it, however it is taken apart. -/
theorem Splits.unique {text before rest : List Char} (h : Splits text [] [])
    (h' : Splits text before rest) : before = [] ∧ rest = [] := by
  constructor
  · obtain ⟨a, b, p, command, status, _, _, _, _, _, htext⟩ := h
    obtain ⟨a', b', p', command', status', hbefore, _, _, _, _, rfl⟩ := h'
    cases before with
    | nil => rfl
    | cons c before =>
      obtain ⟨rfl, _⟩ := List.cons_eq_cons.mp htext
      exact absurd List.mem_cons_self hbefore
  · obtain ⟨v, hv⟩ := h.reads {}
    obtain ⟨v', hv'⟩ := h'.reads {}
    exact (hv'.unique hv).2

/-- **What is accepted.** The parser accepts a text exactly if it is a path, unless the text is a path
with something before its first `/` or after its command.

The text is any. The parser starts from any tile, and what it leaves in it when it refuses a text is not
part of this. -/
theorem accepts_exactly_iff (tile : TileProtocol) (text : String) :
    ((parse tile text).isSome = true ↔ IsPath text) ↔ ¬ HasExtra text := by
  rw [accepts_iff]
  constructor
  · rintro hexact ⟨before, rest, hsplits, hextra⟩
    exact hextra ((hexact.mp ⟨before, rest, hsplits⟩).unique hsplits)
  · intro hplain
    constructor
    · rintro ⟨before, rest, hsplits⟩
      by_cases hextra : before = [] ∧ rest = []
      · rwa [hextra.1, hextra.2] at hsplits
      · exact absurd ⟨before, rest, hsplits, hextra⟩ hplain
    · exact fun hpath => ⟨[], [], hpath⟩

/-- A text goes on after the command. -/
theorem text_after_command_is_accepted :
    ¬ ∀ (tile : TileProtocol) (text : String), (parse tile text).isSome = true ↔ IsPath text := by
  intro h
  have haccepted : (parse {} "/tiles/1.0.0/osm/0/0/0.png/dirty/all").isSome = true := by
    decide +kernel
  obtain ⟨v, hv⟩ := ((h {} _).mp haccepted).reads {}
  have hrest : (path {}).run (findNth '/' 2 "/tiles/1.0.0/osm/0/0/0.png/dirty/all".toList) =
      some (({ style := "osm", status := .cmdDirty } : TileProtocol), "/all".toList) := by
    decide +kernel
  exact absurd (hv.unique hrest).2 (by decide)

end TilePath

end RenderMq
