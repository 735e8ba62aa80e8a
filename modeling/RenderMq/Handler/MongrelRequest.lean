import RenderMq.Handler.MongrelGrammar
import RenderMq.Lib.Backtrack
import RenderMq.Lib.Digits
import RenderMq.Lib.Pieces

/-!
# The requests of Mongrel2

A request is a message of a server, an id and a path, and then the headers as a netstring: their
length, and a JSON object. A regular expression takes the message apart. It does not look at the
length, and what it takes for the path is as long as it can be (`rex`).

So the path may go on into the headers, where these have a text in them that looks like the beginning
of the netstring (`LooksLikeHeaders`). `request_recovered_iff` says that nothing else goes wrong.
-/

namespace RenderMq

/-- `mongrel_request`. -/
structure MongrelRequest where
  uuid : String := ""
  id : String := ""
  path : String := ""
  headers : SortedMap String String := SortedMap.empty

namespace MongrelRequest

open Backtrack MongrelGrammar

/-! ## The parser -/

/-- `[\w-]`. -/
def isWord (c : Char) : Bool := c.isAlphanum || decide (c = '_') || decide (c = '-')

/-- `.`, which may be the end of a line. -/
def isAny (_ : Char) : Bool := true

/-- `what[1]` to `what[4]`. -/
structure Groups where
  uuid : List Char
  id : List Char
  path : List Char
  headers : List Char
  deriving DecidableEq

/-- `rex_`, after the path. -/
def afterPath {β : Type} (groups : List Char → β) : Matcher Char β :=
  text [' '] <| many1 Char.isDigit fun _ => text [':', '{'] <| many isAny fun headers =>
    text ['}', ','] <| many1 Char.isDigit fun _ => text [':', ','] <| atEnd (groups headers)

/-- `rex_`. -/
def rex : Matcher Char Groups :=
  many1 isWord fun uuid => text [' '] <| many1 Char.isDigit fun id => text [' '] <|
    many isAny fun path => afterPath fun headers => ⟨uuid, id, path, headers⟩

/-- `request_parser::operator()`. What is set of a request when it fails is not told. -/
def requestParser (request : MongrelRequest) (input : String) : Option MongrelRequest := do
  let what ← rex input.toList
  let (headers, _) ← query.run what.headers
  some { uuid := String.ofList what.uuid, id := String.ofList what.id,
         path := String.ofList what.path, headers := request.headers.insertAll headers }

/-! ## Messages -/

/-- What the end of a message is, after the headers. -/
def ending : List Char := ['}', ',', '0', ':', ',']

/-- A message after the path. The length counts the braces. -/
def netstring (hs : List Header) : List Char :=
  (toString ((json hs).length + 2)).toList ++ ':' :: '{' :: (json hs ++ ending)

def message (uuid id path : String) (hs : List Header) : String :=
  String.ofList (uuid.toList ++ ' ' :: (id.toList ++ ' ' :: (path.toList ++ ' ' :: netstring hs)))

/-- A text that the headers may begin after. -/
def IsOpening (f : List Char) : Prop :=
  ∃ digits, digits ≠ [] ∧ (∀ c ∈ digits, c.isDigit = true) ∧ f = ' ' :: (digits ++ [':', '{'])

/-- Somewhere in a text there is a space, a number, a colon and an opening brace. -/
def LooksLikeHeaders (s : List Char) : Prop := ∃ f, IsOpening f ∧ f <:+: s

/-! ## What the expression finds -/

/-- A text that begins with no digit does not match at one. -/
theorem text_fails_at {β : Type} {q : Char → Bool} {c : Char} {s : List Char} {next : Matcher Char β}
    (hc : q c = false) {a : Char} (ha : q a = true) (rest : List Char) :
    text (c :: s) next (a :: rest) = none := by
  refine text_cons_ne (fun heq => ?_) rest
  rw [heq, ha] at hc
  cases hc

/-- The end of the message ends the headers, and no end of it does. -/
theorem many_ending {β : Type} (groups : List Char → β) (content : List Char) :
    (many isAny fun headers => text ['}', ','] <| many1 Char.isDigit fun _ => text [':', ','] <|
      atEnd (groups headers)) (content ++ ending) = some (groups content) := by
  refine many_eq_some_iff.mpr ⟨content, ending, ⟨rfl, fun _ _ => rfl⟩, rfl, ?_⟩
  intro s' rest' hsplit hlt
  refine Option.eq_none_iff_forall_ne_some.mpr fun v hv => ?_
  obtain ⟨rest, rfl, _⟩ := text_eq_some hv
  rcases List.append_eq_append_iff.mp hsplit.eq with ⟨after, hs, hrest⟩ | ⟨after, hs, _⟩
  · cases after with
    | nil =>
      rw [hs, List.append_nil] at hlt
      exact Nat.lt_irrefl _ hlt
    | cons a after =>
      -- the ending has one closing brace, the first of it
      have hbrace : '}' ∈ [',', '0', ':', ','] := by
        rw [(List.cons_eq_cons.mp hrest).2]
        exact List.mem_append_right after List.mem_cons_self
      exact absurd hbrace (by decide)
  · rw [hs, List.length_append] at hlt
    omega

/-- After the path comes a netstring: the headers are all of it up to the ending. -/
theorem afterPath_opening {β : Type} (groups : List Char → β) {digits : List Char}
    (hne : digits ≠ []) (hdigits : ∀ c ∈ digits, c.isDigit = true) (content : List Char) :
    afterPath groups (' ' :: (digits ++ ':' :: '{' :: (content ++ ending))) =
      some (groups content) := by
  refine (text_append (s := [' ']) (digits ++ ':' :: '{' :: (content ++ ending))).trans ?_
  rw [many1_append hne hdigits (Peg.forall_head (by decide))]
  · exact (text_append (s := [':', '{']) _).trans (many_ending groups content)
  · exact fun _ a rest ha => text_fails_at (q := Char.isDigit) (by decide) ha rest

/-- What is matched after the path begins with an opening. -/
theorem opening_of_afterPath {β : Type} {groups : List Char → β} {input : List Char} {v : β}
    (h : afterPath groups input = some v) :
    (∃ f, IsOpening f ∧ f <+: input) ∧ ∃ headers, v = groups headers := by
  obtain ⟨_, rfl, hnumber⟩ := text_eq_some h
  obtain ⟨digits, _, hne, ⟨rfl, hdigits⟩, hbrace⟩ := many1_eq_some hnumber
  obtain ⟨rest, rfl, hheaders⟩ := text_eq_some hbrace
  obtain ⟨headers, _, _, hclose, _⟩ := many_eq_some_iff.mp hheaders
  obtain ⟨_, _, hlast⟩ := text_eq_some hclose
  obtain ⟨_, _, _, _, hcomma⟩ := many1_eq_some hlast
  obtain ⟨_, _, hend⟩ := text_eq_some hcomma
  refine ⟨⟨' ' :: (digits ++ [':', '{']), ⟨digits, hne, hdigits, rfl⟩, rest, by simp⟩, headers, ?_⟩
  unfold atEnd at hend
  split at hend
  · exact (Option.some.inj hend).symm
  · cases hend

theorem IsOpening.eq_cons {f : List Char} (h : IsOpening f) : ∃ f', f = ' ' :: f' := by
  obtain ⟨digits, _, _, rfl⟩ := h
  exact ⟨_, rfl⟩

/-- What has no space does not look like headers. -/
theorem not_looksLikeHeaders {s : List Char} (hspace : ' ' ∉ s) : ¬ LooksLikeHeaders s := by
  rintro ⟨f, hopening, hf⟩
  obtain ⟨f', rfl⟩ := hopening.eq_cons
  exact hspace (hf.subset List.mem_cons_self)

/-- The characters of an opening. -/
theorem IsOpening.not_mem {f : List Char} (h : IsOpening f) {c : Char} (hdigit : c.isDigit = false)
    (hc : c ∉ [' ', ':', '{']) : c ∉ f := by
  obtain ⟨digits, _, hdigits, rfl⟩ := h
  intro hmem
  rcases List.mem_cons.mp hmem with rfl | hmem
  · exact hc (by decide)
  · rcases List.mem_append.mp hmem with hmem | hmem
    · rw [hdigits c hmem] at hdigit
      cases hdigit
    · exact hc (List.mem_cons_of_mem _ hmem)

/-- An opening after the path and its space is one in the headers. -/
theorem infix_of_netstring {hs : List Header} {f : List Char} (hopening : IsOpening f) :
    f <:+: netstring hs ↔ f <:+: json hs := by
  obtain ⟨f', rfl⟩ := hopening.eq_cons
  let digits := (toString ((json hs).length + 2)).toList
  have hdigits : ' ' ∉ digits := fun h => absurd (Digits.isDigit_of_mem_repr h) (by decide)
  have hlength : ' ' ∉ digits ++ [':', '{'] := by
    simpa using hdigits
  have hnetstring : netstring hs = digits ++ [':', '{'] ++ (json hs ++ '}' :: [',', '0', ':', ',']) := by
    simp [netstring, ending, digits]
  have hbrace : '}' ∉ ' ' :: f' := hopening.not_mem (by decide) (by decide)
  rw [hnetstring, Pieces.cons_infix_append_iff hlength, Pieces.infix_append_cons_iff hbrace]
  refine or_iff_left fun h => ?_
  have hspace : ' ' ∈ [',', '0', ':', ','] := h.subset List.mem_cons_self
  exact absurd hspace (by decide)

/-- The headers have an opening where one of their names or values has. -/
theorem looksLikeHeaders_json_iff (hs : List Header) :
    LooksLikeHeaders (json hs) ↔
      ∃ h ∈ hs, LooksLikeHeaders h.name.toList ∨ LooksLikeHeaders h.value.toList := by
  have hinside {f : List Char} (hopening : IsOpening f) : f <:+: json hs ↔
      ∃ h ∈ hs, f <:+: h.name.toList ∨ f <:+: h.value.toList := by
    obtain ⟨f', rfl⟩ := hopening.eq_cons
    refine infix_json_iff (hopening.not_mem (by decide) (by decide)) (fun e he => ?_) hs
    refine hopening.not_mem ?_ ?_
    · revert e
      decide
    · revert e
      decide
  constructor
  · rintro ⟨f, hopening, hf⟩
    obtain ⟨h, hh, hname | hvalue⟩ := (hinside hopening).mp hf
    · exact ⟨h, hh, .inl ⟨f, hopening, hname⟩⟩
    · exact ⟨h, hh, .inr ⟨f, hopening, hvalue⟩⟩
  · rintro ⟨h, hh, ⟨f, hopening, hname⟩ | ⟨f, hopening, hvalue⟩⟩
    · exact ⟨f, hopening, (hinside hopening).mpr ⟨h, hh, .inl hname⟩⟩
    · exact ⟨f, hopening, (hinside hopening).mpr ⟨h, hh, .inr hvalue⟩⟩

/-! ## The path -/

/-- `rex_`, from the path. -/
def fromPath (uuid id : List Char) : Matcher Char Groups :=
  many isAny fun path => afterPath fun headers => ⟨uuid, id, path, headers⟩

/-- The message is taken apart up to the path in one way. -/
theorem rex_message {uuid id : List Char} (huuid : uuid ≠ [] ∧ ∀ c ∈ uuid, isWord c = true)
    (hid : id ≠ [] ∧ ∀ c ∈ id, c.isDigit = true) (rest : List Char) :
    rex (uuid ++ ' ' :: (id ++ ' ' :: rest)) = fromPath uuid id rest := by
  refine (many1_append huuid.1 huuid.2 (Peg.forall_head (by decide)) ?_).trans ?_
  · exact fun _ a rest ha => text_fails_at (by decide) ha rest
  refine (text_append (s := [' ']) (id ++ ' ' :: rest)).trans ?_
  refine (many1_append hid.1 hid.2 (Peg.forall_head (by decide)) ?_).trans ?_
  · exact fun _ a rest ha => text_fails_at (q := Char.isDigit) (by decide) ha rest
  exact text_append (s := [' ']) rest

theorem netstring_eq (hs : List Header) : ∃ digits, digits ≠ [] ∧ (∀ c ∈ digits, c.isDigit = true) ∧
    netstring hs = digits ++ ':' :: '{' :: (json hs ++ ending) :=
  ⟨_, Digits.repr_ne_nil _, fun _ => Digits.isDigit_of_mem_repr, rfl⟩

/-- A text that is taken for the path begins with it, and the rest ends the netstring. -/
theorem after_of_longer {path s rest : List Char} {hs : List Header}
    (heq : path ++ ' ' :: netstring hs = s ++ rest) (hlt : path.length < s.length) :
    rest <:+ netstring hs := by
  rcases List.append_eq_append_iff.mp heq with ⟨after, hs', hrest⟩ | ⟨after, hs', _⟩
  · cases after with
    | nil =>
      rw [hs', List.append_nil] at hlt
      exact absurd hlt (Nat.lt_irrefl _)
    | cons a after => exact ⟨after, (List.cons_eq_cons.mp hrest).2.symm⟩
  · rw [hs', List.length_append] at hlt
    omega

/-- Where no header looks like headers, the message is taken apart as it was put together. -/
theorem fromPath_netstring (uuid id path : List Char) {hs : List Header}
    (hplain : ¬ LooksLikeHeaders (json hs)) :
    fromPath uuid id (path ++ ' ' :: netstring hs) = some ⟨uuid, id, path, json hs⟩ := by
  refine many_eq_some_iff.mpr ⟨path, ' ' :: netstring hs, ⟨rfl, fun _ _ => rfl⟩, ?_, ?_⟩
  · obtain ⟨digits, hne, hdigits, hnetstring⟩ := netstring_eq hs
    rw [hnetstring]
    exact afterPath_opening _ hne hdigits (json hs)
  · intro s rest hsplit hlt
    refine Option.eq_none_iff_forall_ne_some.mpr fun v hv => hplain ?_
    obtain ⟨⟨f, hopening, hprefix⟩, _⟩ := opening_of_afterPath hv
    have hinside := hprefix.isInfix.trans (after_of_longer hsplit.eq hlt).isInfix
    exact ⟨f, hopening, (infix_of_netstring hopening).mp hinside⟩

/-- Where a header looks like headers, the path goes on into the headers. -/
theorem path_ne_of_looksLikeHeaders {uuid id path : List Char} {hs : List Header} {what : Groups}
    (hlooks : LooksLikeHeaders (json hs))
    (h : fromPath uuid id (path ++ ' ' :: netstring hs) = some what) : what.path ≠ path := by
  obtain ⟨s, rest, hsplit, hafter, hlongest⟩ := many_eq_some_iff.mp h
  obtain ⟨_, headers, rfl⟩ := opening_of_afterPath hafter
  intro hpath
  obtain rfl : s = path := hpath
  obtain ⟨f, ⟨digits, hne, hdigits, rfl⟩, before, after, hjson⟩ := hlooks
  obtain ⟨length, _, _, hnetstring⟩ := netstring_eq hs
  have hopening := afterPath_opening
    (fun headers => Groups.mk uuid id (s ++ ' ' :: (length ++ ':' :: '{' :: before)) headers)
    hne hdigits after
  rw [hlongest _ _ ⟨?_, fun _ _ => rfl⟩ (by simp)] at hopening
  · cases hopening
  · rw [hnetstring, ← hjson]
    simp

/-! ## The request -/

theorem toList_message (uuid id path : String) (hs : List Header) :
    (message uuid id path hs).toList =
      uuid.toList ++ ' ' :: (id.toList ++ ' ' :: (path.toList ++ ' ' :: netstring hs)) :=
  String.toList_ofList

/-- What is asked of the names and the values, by the text of the headers. -/
theorem plain_iff {headers : SortedMap String String} {hs : List Header}
    (hheaders : (hs.map Header.entry).Perm headers.entries) :
    (∀ name value, headers.find name = some value →
      ¬ LooksLikeHeaders name.toList ∧ ¬ LooksLikeHeaders value.toList) ↔
        ¬ LooksLikeHeaders (json hs) := by
  rw [looksLikeHeaders_json_iff]
  constructor
  · rintro hplain ⟨h, hh, hlooks⟩
    have hentry := hheaders.mem_iff.mp (List.mem_map_of_mem hh)
    have hfound := hplain _ _ (SortedMap.find_eq_some_iff.mpr hentry)
    exact hlooks.elim hfound.1 hfound.2
  · intro hplain name value hfound
    obtain ⟨h, hh, hentry⟩ :=
      List.mem_map.mp (hheaders.mem_iff.mpr (SortedMap.find_eq_some_iff.mp hfound))
    obtain ⟨rfl, rfl⟩ := Prod.mk.inj hentry
    exact ⟨fun hname => hplain ⟨h, hh, .inl hname⟩, fun hvalue => hplain ⟨h, hh, .inr hvalue⟩⟩

/-- **When a request is recovered.** The parser makes of a message the request that it was made of, if
and only if none of the names and values of its headers looks like headers.

The path is any text, and so are the names and values, of which there is at least one; they may be sent
in any order. The two ids are of the characters that the server has for them. That the message was
printed as the server prints it is assumed. -/
theorem request_recovered_iff {uuid id : String} (path : String)
    (huuid : uuid.toList ≠ [] ∧ ∀ c ∈ uuid.toList, isWord c = true)
    (hid : id.toList ≠ [] ∧ ∀ c ∈ id.toList, c.isDigit = true) {headers : SortedMap String String}
    {hs : List Header} (hne : hs ≠ []) (hheaders : (hs.map Header.entry).Perm headers.entries) :
    requestParser {} (message uuid id path hs) = some ⟨uuid, id, path, headers⟩ ↔
      ∀ name value, headers.find name = some value →
        ¬ LooksLikeHeaders name.toList ∧ ¬ LooksLikeHeaders value.toList := by
  have hrex := rex_message huuid hid (path.toList ++ ' ' :: netstring hs)
  rw [plain_iff hheaders]
  unfold requestParser
  rw [toList_message, hrex]
  constructor
  · intro hrequest hlooks
    obtain ⟨what, hwhat, hrequest⟩ := Option.bind_eq_some_iff.mp hrequest
    obtain ⟨_, _, hrequest⟩ := Option.bind_eq_some_iff.mp hrequest
    have hpath : String.ofList what.path = path :=
      congrArg MongrelRequest.path (Option.some.inj hrequest)
    refine path_ne_of_looksLikeHeaders hlooks hwhat ?_
    rw [← hpath, String.toList_ofList]
  · intro hplain
    have hquery : query.run (json hs) = some (hs.map Header.entry, []) := reads_query hne
    have hinsert : SortedMap.insertAll (hs.map Header.entry) SortedMap.empty = headers :=
      SortedMap.insertAll_of_perm hheaders
    rw [fromPath_netstring _ _ _ hplain, Option.bind_eq_bind, Option.bind_some, hquery,
      Option.bind_eq_bind, Option.bind_some]
    show some (MongrelRequest.mk (String.ofList uuid.toList) (String.ofList id.toList)
      (String.ofList path.toList) (SortedMap.insertAll (hs.map Header.entry) SortedMap.empty)) = _
    rw [hinsert, String.ofList_toList, String.ofList_toList, String.ofList_toList]

/-- A header without escapes. -/
def plainHeader (name value : List Char) (hname : ∀ c ∈ name, isRaw c = true)
    (hvalue : ∀ c ∈ value, isRaw c = true) : Header where
  name := String.ofList name
  value := String.ofList value
  nameText := name
  valueText := value
  encodesName := by
    rw [String.toList_ofList]
    exact .self hname
  encodesValue := by
    rw [String.toList_ofList]
    exact .self hvalue

def methodHeader : Header := plainHeader ['M'] ['G', 'E', 'T'] (List.all_eq_true.mp rfl)
  (List.all_eq_true.mp rfl)

/-- The header `a`, whose value looks like headers. -/
def lookingHeader : Header := plainHeader ['a'] [' ', '1', ':', '{'] (List.all_eq_true.mp rfl)
  (List.all_eq_true.mp rfl)

theorem request_recovered_method :
    requestParser {} (message "MONGREL2" "1" "/t" [methodHeader]) =
      some ⟨"MONGREL2", "1", "/t", SortedMap.empty.insert "M" "GET"⟩ := by
  refine (request_recovered_iff "/t" ⟨by decide, List.all_eq_true.mp (by decide)⟩
    ⟨by decide, List.all_eq_true.mp (by decide)⟩ (by simp) (.refl _)).mpr ?_
  intro name value hfound
  have hmem := List.mem_singleton.mp (SortedMap.find_eq_some_iff.mp hfound)
  obtain ⟨rfl, rfl⟩ := Prod.mk.inj hmem
  exact ⟨not_looksLikeHeaders (by decide +kernel), not_looksLikeHeaders (by decide +kernel)⟩

/-- The path goes on into the value of the header. -/
theorem path_swallows_headers : ¬ ∀ (uuid id path : String) (headers : SortedMap String String)
    (hs : List Header), (uuid.toList ≠ [] ∧ ∀ c ∈ uuid.toList, isWord c = true) →
    (id.toList ≠ [] ∧ ∀ c ∈ id.toList, c.isDigit = true) → ' ' ∉ path.toList → hs ≠ [] →
    (hs.map Header.entry).Perm headers.entries →
    requestParser {} (message uuid id path hs) = some ⟨uuid, id, path, headers⟩ := by
  intro h
  have hparsed := h "u" "1" "/" (SortedMap.empty.insert "a" " 1:\x7b") [lookingHeader]
    ⟨by decide, List.all_eq_true.mp (by decide)⟩ ⟨by decide, List.all_eq_true.mp (by decide)⟩
    (by decide) (by simp) (.refl _)
  have hpath := congrArg (Option.map MongrelRequest.path) hparsed
  revert hpath
  decide +kernel

end MongrelRequest

end RenderMq
