import RenderMq.Lib.Digits
import RenderMq.Lib.Peg
import RenderMq.Tile.Protocol

/-!
# The paths of tiles

The path of a request for a tile has two segments that say nothing of it, and then its style, zoom,
column, row and format, and maybe a command. The grammar reads it from the third `/`.

A style may have several segments, and the list of them goes on as long as it can: it stops at the
zoom, since a segment begins with a letter. `parse_print` is the round trip.
-/

namespace RenderMq

namespace TilePath

open Peg

/-! ## The grammar -/

/-- `formats_`. -/
def formats : List (List Char × ProtoFmt) :=
  [("png".toList, fmtPNG), ("jpg".toList, fmtJPEG), ("jpeg".toList, fmtJPEG), ("gif".toList, fmtGIF),
    ("json".toList, fmtJSON)]

/-- `commands_`. -/
def commands : Parser Char ProtoCmd :=
  (do let _ ← endOfInput; pure .cmdRender) <|>
    ((do let _ ← literal "/dirty".toList; pure .cmdDirty) <|>
      (do let _ ← literal "/status".toList; pure .cmdStatus))

def sign : Parser Char Bool :=
  (do let _ ← literal ['-']; pure true) <|> ((do let _ ← literal ['+']; pure false) <|> pure false)

/-- `int_`: it fails where the number is not an `int`. -/
def int : Parser Char Int := do
  let negative ← sign
  let digits ← many (satisfy Char.isDigit)
  let n : Int := Nat.ofDigitChars 10 digits 0
  let v := if negative then -n else n
  if digits ≠ [] ∧ -2 ^ 31 ≤ v ∧ v < 2 ^ 31 then pure v else failure

/-- A segment of a style: `alpha >> *alnum`. -/
def segment : Parser Char Unit := do
  let _ ← satisfy Char.isAlpha
  let _ ← many (satisfy Char.isAlphanum)
  pure ()

/-- `path`. What was in the string of the style stays there. -/
def path (tile : TileProtocol) : Parser Char TileProtocol := do
  let _ ← literal ['/']
  let style ← raw (listOf segment (literal ['/']))
  let _ ← literal ['/']
  let z ← int
  let _ ← literal ['/']
  let x ← int
  let _ ← literal ['/']
  let y ← int
  let _ ← literal ['.']
  let format ← symbols formats
  let status ← commands
  pure { tile with style := tile.style ++ String.ofList style, z := z, x := x, y := y,
                   format := format, status := status }

/-- `find_nth`, to the end of the text: the text from the one after so many of a character. -/
def findNth (c : Char) : Nat → List Char → List Char
  | _, [] => []
  | 0, a :: rest => if a = c then a :: rest else findNth c 0 rest
  | n + 1, a :: rest => if a = c then findNth c n rest else findNth c (n + 1) rest

/-- `tile_path_parser::operator()`. What it makes of a tile when it fails is not told. -/
def parse (tile : TileProtocol) (text : String) : Option TileProtocol :=
  ((path tile).run (findNth '/' 2 text.toList)).map Prod.fst

/-! ## Numbers -/

theorem reads_int_of_digits {input digits rest : List Char} {negative : Bool} {v : Int}
    (hsign : Reads sign input negative (digits ++ rest)) (hne : digits ≠ [])
    (hdigits : ∀ c ∈ digits, c.isDigit = true) (hrest : ∀ c ∈ rest.head?, c.isDigit = false)
    (hv : (if negative then -(Nat.ofDigitChars 10 digits 0 : Int)
      else (Nat.ofDigitChars 10 digits 0 : Int)) = v) (hlow : -2 ^ 31 ≤ v) (hhigh : v < 2 ^ 31) :
    Reads int input v rest := by
  refine hsign.bind ((Reads.many_satisfy hdigits hrest).bind ?_)
  simp only [hv]
  rw [if_pos ⟨hne, hlow, hhigh⟩]
  exact Reads.pure v rest

/-- The texts of a sign. -/
def signs : List (List Char × Bool) := [(['-'], true), (['+'], false), ([], false)]

/-- A sign is read, in front of a number. -/
theorem reads_sign {text digits : List Char} {negative : Bool} (htext : (text, negative) ∈ signs)
    (hne : digits ≠ []) (hdigits : ∀ c ∈ digits, c.isDigit = true) (rest : List Char) :
    Reads sign (text ++ (digits ++ rest)) negative (digits ++ rest) := by
  simp only [signs, List.mem_cons, List.not_mem_nil, or_false, Prod.mk.injEq] at htext
  rcases htext with ⟨rfl, rfl⟩ | ⟨rfl, rfl⟩ | ⟨rfl, rfl⟩
  · exact Reads.orElse_left ((Reads.literal ['-'] _).bind (Reads.pure true _))
  · refine Reads.orElse_right (Fails.literal_cons (forall_head (by decide))).bind ?_
    exact Reads.orElse_left ((Reads.literal ['+'] _).bind (Reads.pure false _))
  · obtain ⟨c, digits, rfl⟩ := List.exists_cons_of_ne_nil hne
    have hc : c.isDigit = true := hdigits c List.mem_cons_self
    have hfails {a : Char} (ha : a.isDigit = false) :
        Fails (literal [a]) (c :: (digits ++ rest)) := by
      refine Fails.literal_cons (forall_head fun hac => ?_)
      rw [hac, hc] at ha
      cases ha
    refine Reads.orElse_right (hfails (by decide)).bind ?_
    exact Reads.orElse_right (hfails (by decide)).bind (Reads.pure false _)

/-- An `int` is read as it is printed. -/
theorem reads_int {v : Int} {rest : List Char} (hlow : -2 ^ 31 ≤ v) (hhigh : v < 2 ^ 31)
    (hrest : ∀ c ∈ rest.head?, c.isDigit = false) :
    Reads int ((toString v).toList ++ rest) v rest := by
  have hvalue (n : Nat) : Nat.ofDigitChars 10 n.repr.toList 0 = n := by
    rw [Nat.toList_repr, Nat.ofDigitChars_ten_toDigits]
  have hdigits (n : Nat) : ∀ c ∈ n.repr.toList, c.isDigit = true :=
    fun _ => Digits.isDigit_of_mem_repr
  rw [Int.toString_eq_repr, Int.repr_eq_if]
  split
  · next hpos =>
    have hempty : ([], false) ∈ signs := by decide
    have hsign := reads_sign hempty (Digits.repr_ne_nil v.toNat) (hdigits v.toNat) rest
    refine reads_int_of_digits hsign (Digits.repr_ne_nil _) (hdigits _) hrest ?_ hlow hhigh
    rw [hvalue, if_neg Bool.false_ne_true, Int.toNat_of_nonneg hpos]
  · next hneg =>
    have hminus : (['-'], true) ∈ signs := by decide
    have hsign := reads_sign hminus (Digits.repr_ne_nil (-v).toNat) (hdigits (-v).toNat) rest
    rw [String.toList_append, List.append_assoc]
    refine reads_int_of_digits hsign (Digits.repr_ne_nil _) (hdigits _) hrest ?_ hlow hhigh
    rw [hvalue, if_pos rfl]
    omega

/-! ## Styles -/

/-- A letter, and then letters and digits. -/
def IsSegment (text : List Char) : Prop :=
  ∃ a rest, text = a :: rest ∧ a.isAlpha = true ∧ ∀ c ∈ rest, c.isAlphanum = true

theorem reads_segment {text : List Char} (htext : IsSegment text) {rest : List Char}
    (hrest : ∀ c ∈ rest.head?, c.isAlphanum = false) : Reads segment (text ++ rest) () rest := by
  obtain ⟨a, letters, rfl, ha, hletters⟩ := htext
  exact (Reads.satisfy ha _).bind ((Reads.many_satisfy hletters hrest).bind (Reads.pure () rest))

/-- A segment ends at the next `/`. -/
theorem not_alphanum_of_separated (more : List (List Char)) (rest : List Char) :
    ∀ c ∈ (more.flatMap (List.cons '/') ++ '/' :: rest).head?, c.isAlphanum = false := by
  intro c hc
  have hslash : c = '/' := by
    cases more with
    | nil => exact (Option.some.inj hc).symm
    | cons text more => exact (Option.some.inj hc).symm
  rw [hslash]
  decide

/-- The segments after the first are read, up to one that does not begin with a letter. -/
theorem readsAll_segments {more : List (List Char)} (hmore : ∀ text ∈ more, IsSegment text)
    {rest : List Char} (hrest : ∀ c ∈ rest.head?, c.isAlpha = false) :
    ReadsAll (do let _ ← literal ['/']; segment) (more.flatMap (List.cons '/') ++ '/' :: rest)
      (more.map fun _ => ()) ('/' :: rest) := by
  induction more with
  | nil => exact .nil (Fails.bind_of_reads (Reads.literal ['/'] rest) (Fails.satisfy hrest).bind)
  | cons text more ih =>
    obtain ⟨htext, hmore⟩ := List.forall_mem_cons.mp hmore
    rw [List.flatMap_cons, List.append_assoc]
    refine .cons ((Reads.literal ['/'] _).bind
      (reads_segment htext (not_alphanum_of_separated more rest))) ?_ (ih hmore)
    simp

theorem reads_segments {first : List Char} (hfirst : IsSegment first) {more : List (List Char)}
    (hmore : ∀ text ∈ more, IsSegment text) {rest : List Char}
    (hrest : ∀ c ∈ rest.head?, c.isAlpha = false) :
    Reads (raw (listOf segment (literal ['/']))) (first ++ more.flatMap (List.cons '/') ++ '/' :: rest)
      (first ++ more.flatMap (List.cons '/')) ('/' :: rest) := by
  refine Reads.raw (a := () :: more.map fun _ => ()) ?_
  rw [List.append_assoc]
  exact Reads.listOf (reads_segment hfirst (not_alphanum_of_separated more rest))
    (readsAll_segments hmore hrest)

/-- The text of a style. -/
theorem toList_intercalate (first : String) (more : List String) :
    ("/".intercalate (first :: more)).toList =
      first.toList ++ (more.map String.toList).flatMap (List.cons '/') := by
  induction more generalizing first with
  | nil => simp
  | cons second more ih =>
    rw [String.intercalate_cons_cons, String.toList_append, String.toList_append, ih]
    simp

/-! ## Formats and commands -/

theorem formats_prefixFree : PrefixFree formats := by
  unfold PrefixFree formats
  decide

/-- The texts of the commands. -/
def commandTexts : List (String × ProtoCmd) :=
  [("", .cmdRender), ("/dirty", .cmdDirty), ("/status", .cmdStatus)]

/-- A command is read; the end of the text is one, and ends it. -/
theorem reads_commands {text : String} {status : ProtoCmd} (h : (text, status) ∈ commandTexts)
    {rest : List Char} (hrest : text = "" → rest = []) :
    Reads commands (text.toList ++ rest) status rest := by
  simp only [commandTexts, List.mem_cons, List.not_mem_nil, or_false, Prod.mk.injEq] at h
  rcases h with ⟨rfl, rfl⟩ | ⟨rfl, rfl⟩ | ⟨rfl, rfl⟩
  · obtain rfl := hrest rfl
    exact Reads.orElse_left (Reads.endOfInput.bind (Reads.pure _ _))
  · refine Reads.orElse_right (Fails.endOfInput _ _).bind ?_
    exact Reads.orElse_left ((Reads.literal "/dirty".toList rest).bind (Reads.pure _ _))
  · refine Reads.orElse_right (Fails.endOfInput _ _).bind ?_
    refine Reads.orElse_right (Fails.literal ?_).bind ?_
    · exact fun hprefix => absurd (List.prefix_of_prefix_length_le hprefix
        (List.prefix_append "/status".toList rest) (by decide)) (by decide)
    · exact (Reads.literal "/status".toList rest).bind (Reads.pure _ _)

/-! ## The round trip -/

theorem findNth_append {c : Char} {before : List Char} (h : c ∉ before) (n : Nat) (rest : List Char) :
    findNth c n (before ++ rest) = findNth c n rest := by
  induction before with
  | nil => rfl
  | cons a before ih =>
    obtain ⟨ha, hbefore⟩ := not_or.mp (mt List.mem_cons.mpr h)
    cases n with
    | zero => rw [List.cons_append, findNth, if_neg (Ne.symm ha), ih hbefore]
    | succ n => rw [List.cons_append, findNth, if_neg (Ne.symm ha), ih hbefore]

theorem findNth_third {a b : List Char} (ha : '/' ∉ a) (hb : '/' ∉ b) (rest : List Char) :
    findNth '/' 2 ('/' :: (a ++ '/' :: (b ++ '/' :: rest))) = '/' :: rest := by
  rw [findNth, if_pos rfl, findNth_append ha, findNth, if_pos rfl, findNth_append hb, findNth,
    if_pos rfl]

/-- A path, as it is printed. -/
def print (a b : String) (segments : List String) (z x y : Int) (spelling command : String) : String :=
  "/" ++ a ++ "/" ++ b ++ "/" ++ "/".intercalate segments ++ "/" ++ toString z ++ "/" ++ toString x ++
    "/" ++ toString y ++ "." ++ spelling ++ command

theorem toList_print (a b : String) (segments : List String) (z x y : Int) (spelling command : String) :
    (print a b segments z x y spelling command).toList =
      '/' :: (a.toList ++ '/' :: (b.toList ++ '/' :: (("/".intercalate segments).toList ++
        '/' :: ((toString z).toList ++ '/' :: ((toString x).toList ++ '/' :: ((toString y).toList ++
          '.' :: (spelling.toList ++ command.toList))))))) := by
  have hslash : "/".toList = ['/'] := rfl
  have hdot : ".".toList = ['.'] := rfl
  unfold print
  generalize toString z = zText
  generalize toString x = xText
  generalize toString y = yText
  simp only [String.toList_append, List.append_assoc, hslash, hdot, List.cons_append, List.nil_append]

/-- An `int`. -/
def IsInt (v : Int) : Prop := -2 ^ 31 ≤ v ∧ v < 2 ^ 31

theorem isDigit_of_isAlpha {c : Char} (h : c.isAlpha = true) : c.isDigit = false := by
  have hlast : '9'.val.toNat = 57 := rfl
  have hupper : 'A'.val.toNat = 65 := rfl
  have hlower : 'a'.val.toNat = 97 := rfl
  simp only [Char.isAlpha, Char.isUpper, Char.isLower, Char.isDigit, Bool.or_eq_true,
    Bool.and_eq_true, Bool.and_eq_false_iff, decide_eq_true_eq, decide_eq_false_iff_not, ge_iff_le,
    UInt32.le_iff_toNat_le] at h ⊢
  omega

/-- A number does not begin with a letter. -/
theorem head_toString_not_alpha (v : Int) (rest : List Char) :
    ∀ c ∈ ((toString v).toList ++ rest).head?, c.isAlpha = false := by
  intro c hc
  cases htext : (toString v).toList with
  | nil =>
    rw [Int.toString_eq_repr, Int.repr_eq_if] at htext
    split at htext
    · exact absurd htext (Digits.repr_ne_nil _)
    · simp at htext
  | cons d text =>
    rw [htext] at hc
    obtain rfl := Option.some.inj hc
    by_contra hletter
    have halpha : d.isAlpha = true := by simpa using hletter
    have hminus : d ≠ '-' := by
      rintro rfl
      exact absurd halpha (by decide)
    refine Digits.separator_not_mem_toString v (isDigit_of_isAlpha halpha) hminus ?_
    rw [htext]
    exact List.mem_cons_self

/-- A text is read as an `int`, in front of anything but a digit. -/
def ReadsInt (text : List Char) (v : Int) : Prop :=
  ∀ rest, (∀ c ∈ rest.head?, c.isDigit = false) → Reads int (text ++ rest) v rest

theorem reads_path (tile : TileProtocol) (style zText xText yText : List Char)
    {spelling command rest : List Char} {z x y : Int} {format : ProtoFmt} {status : ProtoCmd}
    (hstyle : ∀ rest, (∀ c ∈ rest.head?, c.isAlpha = false) →
      Reads (raw (listOf segment (literal ['/']))) (style ++ '/' :: rest) style ('/' :: rest))
    (hletter : ∀ rest, ∀ c ∈ (zText ++ rest).head?, c.isAlpha = false) (hz : ReadsInt zText z)
    (hx : ReadsInt xText x) (hy : ReadsInt yText y) (hformat : (spelling, format) ∈ formats)
    (hcommand : Reads commands command status rest) :
    Reads (path tile) ('/' :: (style ++ '/' :: (zText ++ '/' :: (xText ++ '/' :: (yText ++
        '.' :: (spelling ++ command))))))
      { tile with style := tile.style ++ String.ofList style, z := z, x := x, y := y,
                  format := format, status := status } rest := by
  unfold path
  refine (Reads.literal ['/'] _).bind ((hstyle _ (hletter _)).bind ?_)
  refine (Reads.literal ['/'] _).bind ((hz _ (forall_head (by decide))).bind ?_)
  refine (Reads.literal ['/'] _).bind ((hx _ (forall_head (by decide))).bind ?_)
  refine (Reads.literal ['/'] _).bind ((hy _ (forall_head (by decide))).bind ?_)
  refine (Reads.literal ['.'] _).bind ((Reads.symbols formats_prefixFree hformat _).bind ?_)
  exact hcommand.bind (Reads.pure _ _)

/-- **The round trip.** A path is read back as what it was printed from.

The two texts before the style have no slash, the style is one segment or more of characters that a
segment may have, the coordinates are `int`s, and the format may be spelled in any way that the table
has. The fields that no path has are those of an empty tile. -/
theorem parse_print {a b : String} (ha : '/' ∉ a.toList) (hb : '/' ∉ b.toList)
    {segments : List String} (hne : segments ≠ [])
    (hsegments : ∀ s ∈ segments, IsSegment s.toList) {z x y : Int} (hz : IsInt z) (hx : IsInt x)
    (hy : IsInt y) {spelling : String} {format : ProtoFmt}
    (hformat : (spelling.toList, format) ∈ formats) {command : String} {status : ProtoCmd}
    (hcommand : (command, status) ∈ commandTexts) :
    parse {} (print a b segments z x y spelling command) =
      some { style := "/".intercalate segments, z := z, x := x, y := y, format := format,
             status := status } := by
  obtain ⟨first, more, rfl⟩ := List.exists_cons_of_ne_nil hne
  obtain ⟨hfirst, hmore⟩ := List.forall_mem_cons.mp hsegments
  have hlists : ∀ text ∈ more.map String.toList, IsSegment text := by
    intro text htext
    obtain ⟨s, hs, rfl⟩ := List.mem_map.mp htext
    exact hmore s hs
  have hint {v : Int} (hv : IsInt v) : ReadsInt (toString v).toList v :=
    fun rest hrest => reads_int hv.1 hv.2 hrest
  have hstyle (rest : List Char) (hrest : ∀ c ∈ rest.head?, c.isAlpha = false) :=
    reads_segments hfirst hlists hrest
  have hhead := head_toString_not_alpha z
  have hcommand : Reads commands command.toList status [] := by
    simpa using reads_commands hcommand fun _ => rfl
  have hread := reads_path {} (first.toList ++ (more.map String.toList).flatMap (List.cons '/'))
    (toString z).toList (toString x).toList (toString y).toList hstyle hhead (hint hz) (hint hx)
    (hint hy) hformat hcommand
  rw [← toList_intercalate] at hread
  unfold parse
  rw [toList_print, findNth_third ha hb, hread, Option.map_some, String.ofList_toList, String.empty_append]

theorem parse_print_deepest :
    parse {} (print "tiles" "1.0.0" ["vx", "osm"] 18 (-1) 2147483647 "jpeg" "/status") =
      some { style := "vx/osm", z := 18, x := -1, y := 2147483647, format := fmtJPEG,
             status := .cmdStatus } := by
  have hformat : ("jpeg".toList, fmtJPEG) ∈ formats := by decide
  have hcommand : ("/status", ProtoCmd.cmdStatus) ∈ commandTexts := by decide
  refine (parse_print (by decide) (by decide) (List.cons_ne_nil _ _) ?_ ⟨by decide, by decide⟩
    ⟨by decide, by decide⟩ ⟨by decide, by decide⟩ hformat hcommand).trans rfl
  intro s hs
  rcases List.mem_pair.mp hs with rfl | rfl
  · exact ⟨'v', ['x'], rfl, by decide, by simp [Char.isAlphanum]⟩
  · exact ⟨'o', ['s', 'm'], rfl, by decide, by simp [Char.isAlphanum]⟩

end TilePath

end RenderMq
