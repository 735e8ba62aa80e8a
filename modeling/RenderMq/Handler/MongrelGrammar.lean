import RenderMq.Lib.Peg
import RenderMq.Lib.Pieces
import RenderMq.Lib.SortedMap

/-!
# The headers of a request

A request has its headers as a JSON object of strings. The grammar is for what stands between the
braces: names and values in quotes, with the escapes of one character.

A string has more than one text, since a `/` may be escaped or not (`Encodes`). `reads_query` says that
every text of some headers is read as these headers.
-/

namespace RenderMq

namespace MongrelGrammar

open Peg

/-! ## The grammar -/

/-- `escapes`. -/
def escapes : List (List Char × Char) :=
  [(['\"'], Char.ofNat 0x22), (['\\'], Char.ofNat 0x5c), (['/'], Char.ofNat 0x2f),
    (['b'], Char.ofNat 0x08), (['f'], Char.ofNat 0x0c), (['n'], Char.ofNat 0x0a),
    (['r'], Char.ofNat 0x0d), (['t'], Char.ofNat 0x09)]

/-- A character that stands for itself. A byte of 128 or more is negative, and no code point. -/
def isRaw (c : Char) : Bool := decide (c.toNat < 128) && decide (c ≠ '\"') && decide (c ≠ '\\')

/-- `qi::space`. -/
def isSpace (c : Char) : Bool := c = ' ' || (decide (9 ≤ c.toNat) && decide (c.toNat ≤ 13))

/-- A parser, after the spaces before it. -/
def skip {α : Type} (p : Parser Char α) : Parser Char α := do
  let _ ← many (satisfy isSpace)
  p

def uchar : Parser Char Char :=
  satisfy isRaw <|> (do let _ ← literal ['\\']; symbols escapes)

def str : Parser Char (List Char) := do
  let _ ← literal ['\"']
  let chars ← many uchar
  let _ ← literal ['\"']
  pure chars

def pair : Parser Char (String × String) := do
  let name ← skip str
  let _ ← skip (literal [':'])
  let value ← skip str
  pure (String.ofList name, String.ofList value)

def query : Parser Char (List (String × String)) := listOf pair (skip (literal [',']))

/-! ## Texts -/

/-- A text of a string, as it stands between quotes. -/
inductive Encodes : List Char → List Char → Prop where
  | nil : Encodes [] []
  | raw {c : Char} {text value : List Char} : isRaw c = true → Encodes text value →
      Encodes (c :: text) (c :: value)
  | escaped {k v : Char} {text value : List Char} : ([k], v) ∈ escapes → Encodes text value →
      Encodes ('\\' :: k :: text) (v :: value)

theorem Encodes.self {text : List Char} (h : ∀ c ∈ text, isRaw c = true) : Encodes text text := by
  induction text with
  | nil => exact .nil
  | cons c text ih =>
    obtain ⟨hc, htext⟩ := List.forall_mem_cons.mp h
    exact .raw hc (ih htext)

/-- A text of a header. -/
structure Header where
  name : String
  value : String
  nameText : List Char
  valueText : List Char
  encodesName : Encodes nameText name.toList
  encodesValue : Encodes valueText value.toList

def Header.text (h : Header) : List Char :=
  '\"' :: (h.nameText ++ '\"' :: ':' :: '\"' :: (h.valueText ++ ['\"']))

def Header.entry (h : Header) : String × String := (h.name, h.value)

/-- A text of headers, as it stands between braces. -/
def json : List Header → List Char
  | [] => []
  | h :: hs => h.text ++ hs.flatMap fun h => ',' :: h.text

/-! ## What is read -/

theorem escapes_prefixFree : PrefixFree escapes := by
  unfold PrefixFree escapes
  decide

theorem readsAll_uchar {text value : List Char} (h : Encodes text value) (rest : List Char) :
    ReadsAll uchar (text ++ '\"' :: rest) value ('\"' :: rest) := by
  induction h with
  | nil =>
    exact .nil (Fails.orElse (Fails.satisfy (forall_head (by decide)))
      (Fails.literal_cons (forall_head (by decide))).bind)
  | raw hc _ ih => exact .cons (Reads.orElse_left (Reads.satisfy hc _)) (by simp) ih
  | @escaped k v text value hmem _ ih =>
    refine .cons (Reads.orElse_right (Fails.satisfy (forall_head (by decide)))
      ((Reads.literal ['\\'] _).bind (Reads.symbols escapes_prefixFree hmem _))) ?_ ih
    show (text ++ '\"' :: rest).length < (text ++ '\"' :: rest).length + 2
    omega

theorem reads_str {text value : List Char} (h : Encodes text value) (rest : List Char) :
    Reads str ('\"' :: (text ++ '\"' :: rest)) value rest :=
  (Reads.literal ['\"'] _).bind ((Reads.many (readsAll_uchar h rest)).bind
    ((Reads.literal ['\"'] rest).bind (Reads.pure _ _)))

/-- Where there is no space, none is skipped. -/
theorem reads_skip {α : Type} {p : Parser Char α} {c : Char} {input rest : List Char} {a : α}
    (hc : isSpace c = false) (hp : Reads p (c :: input) a rest) :
    Reads (skip p) (c :: input) a rest := by
  have hspaces : Reads (many (satisfy isSpace)) ([] ++ c :: input) [] (c :: input) :=
    Reads.many_satisfy (by simp) (by simpa using hc)
  exact hspaces.bind hp

theorem reads_pair (h : Header) (rest : List Char) :
    Reads pair (h.text ++ rest) h.entry rest := by
  have htext : h.text ++ rest =
      '\"' :: (h.nameText ++ '\"' :: ':' :: '\"' :: (h.valueText ++ '\"' :: rest)) := by
    simp [Header.text]
  have hentry : h.entry = (String.ofList h.name.toList, String.ofList h.value.toList) := by
    simp [Header.entry]
  rw [htext, hentry]
  refine (reads_skip (by decide) (reads_str h.encodesName _)).bind ?_
  refine (reads_skip (by decide) (Reads.literal [':'] _)).bind ?_
  exact (reads_skip (by decide) (reads_str h.encodesValue _)).bind (Reads.pure _ _)

theorem readsAll_pairs (hs : List Header) :
    ReadsAll (do let _ ← skip (literal [',']); pair) (hs.flatMap fun h => ',' :: h.text)
      (hs.map Header.entry) [] := by
  induction hs with
  | nil =>
    have hspaces : Reads (many (satisfy isSpace)) ([] ++ []) [] [] :=
      Reads.many_satisfy (by simp) (by simp)
    have hcomma : Fails (literal [',']) ([] : List Char) := Fails.literal (by decide)
    exact .nil (Fails.bind_of_reads hspaces hcomma).bind
  | cons h hs ih =>
    rw [List.flatMap_cons, List.map_cons]
    refine .cons ((reads_skip (by decide) (Reads.literal [','] _)).bind (reads_pair h _)) ?_ ih
    rw [List.cons_append, List.length_cons, List.length_append]
    omega

/-- **Headers are read.** Each text of some headers is read as these. -/
theorem reads_query {hs : List Header} (hne : hs ≠ []) :
    Reads query (json hs) (hs.map Header.entry) [] := by
  obtain ⟨h, hs, rfl⟩ := List.exists_cons_of_ne_nil hne
  exact Reads.listOf (reads_pair h _) (readsAll_pairs hs)

/-! ## What stands in a text -/

/-- What has no character that needs an escape, or may have one, is in a text where it is in the
string. -/
theorem prefix_text_iff {text value : List Char} (h : Encodes text value) :
    ∀ {f : List Char}, (∀ e ∈ escapes, e.2 ∉ f) → (f <+: text ↔ f <+: value) := by
  induction h with
  | nil => exact fun _ => Iff.rfl
  | raw _ _ ih =>
    intro f hf
    cases f with
    | nil => simp
    | cons a f =>
      rw [List.cons_prefix_cons, List.cons_prefix_cons,
        ih fun e he h => hf e he (List.mem_cons_of_mem a h)]
  | @escaped k v text value hmem _ _ =>
    intro f hf
    cases f with
    | nil => simp
    | cons a f =>
      rw [List.cons_prefix_cons, List.cons_prefix_cons]
      refine iff_of_false (fun h => ?_) (fun h => ?_)
      · refine hf (['\\'], Char.ofNat 0x5c) (by decide) ?_
        rw [h.1]
        exact List.mem_cons_self
      · refine hf ([k], v) hmem ?_
        rw [h.1]
        exact List.mem_cons_self

theorem infix_text_iff {text value : List Char} (h : Encodes text value) {f : List Char}
    (hf : ∀ e ∈ escapes, e.2 ∉ ' ' :: f) : ' ' :: f <:+: text ↔ ' ' :: f <:+: value := by
  induction h with
  | nil => exact Iff.rfl
  | raw hc htext ih =>
    rw [List.infix_cons_iff, List.infix_cons_iff, prefix_text_iff (.raw hc htext) hf, ih]
  | @escaped k v text value hmem htext ih =>
    have hkey : ¬ ' ' :: f <+: k :: text := by
      intro hprefix
      obtain ⟨rfl, _⟩ := List.cons_prefix_cons.mp hprefix
      have hspace : [' '] ∈ escapes.map Prod.fst := List.mem_map_of_mem hmem
      exact absurd hspace (by decide)
    rw [List.infix_cons_iff, prefix_text_iff (.escaped hmem htext) hf, List.infix_cons_iff,
      or_iff_right hkey, ih, List.infix_cons_iff]

/-- What has no quote in it, and begins with a space, is in the text of a header where it is in the
name or in the value. -/
theorem infix_header_iff (h : Header) {f : List Char} (hquote : '\"' ∉ ' ' :: f)
    (hf : ∀ e ∈ escapes, e.2 ∉ ' ' :: f) (rest : List Char) :
    ' ' :: f <:+: h.text ++ rest ↔
      (' ' :: f <:+: h.name.toList ∨ ' ' :: f <:+: h.value.toList) ∨ ' ' :: f <:+: rest := by
  have htext : h.text ++ rest =
      [] ++ '\"' :: (h.nameText ++ '\"' :: ([':'] ++ '\"' :: (h.valueText ++ '\"' :: rest))) := by
    simp [Header.text]
  have hcolon : ¬ ' ' :: f <:+: [':'] := fun h => by simpa using h.subset List.mem_cons_self
  rw [htext, Pieces.infix_append_cons_iff hquote, Pieces.infix_append_cons_iff hquote,
    Pieces.infix_append_cons_iff hquote, Pieces.infix_append_cons_iff hquote,
    infix_text_iff h.encodesName hf, infix_text_iff h.encodesValue hf, or_iff_right (by simp),
    or_iff_right hcolon, or_assoc]

theorem infix_json_iff {f : List Char} (hquote : '\"' ∉ ' ' :: f)
    (hf : ∀ e ∈ escapes, e.2 ∉ ' ' :: f) (hs : List Header) :
    ' ' :: f <:+: json hs ↔
      ∃ h ∈ hs, ' ' :: f <:+: h.name.toList ∨ ' ' :: f <:+: h.value.toList := by
  have hmore (hs : List Header) : ' ' :: f <:+: (hs.flatMap fun h => ',' :: h.text) ↔
      ∃ h ∈ hs, ' ' :: f <:+: h.name.toList ∨ ' ' :: f <:+: h.value.toList := by
    induction hs with
    | nil => simp
    | cons h hs ih =>
      have hcomma : ',' :: h.text ++ (hs.flatMap fun h => ',' :: h.text) =
          [','] ++ (h.text ++ hs.flatMap fun h => ',' :: h.text) := rfl
      rw [List.flatMap_cons, hcomma, Pieces.cons_infix_append_iff (by decide),
        infix_header_iff h hquote hf, ih, List.exists_mem_cons_iff]
  cases hs with
  | nil => simp [json]
  | cons h hs => rw [json, infix_header_iff h hquote hf, hmore, List.exists_mem_cons_iff]

end MongrelGrammar

end RenderMq
