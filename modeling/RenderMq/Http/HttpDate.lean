import RenderMq.Handler.MongrelGrammar
import RenderMq.Lib.Actions
import RenderMq.Lib.Calendar
import RenderMq.Lib.Digits

/-!
# Dates in headers

A time is sent as a date of RFC 1123, and is read from any of three texts. The grammar tries these in
turn, and each writes to the one timestamp as it goes.

The parser is told by the moment that a text is of: each of the three alternatives writes every field,
so that nothing is left of those that gave up before it. `parse_formatted` is the round trip.
-/

namespace RenderMq

namespace HttpDate

open Peg MongrelGrammar Digits

/-! ## The grammar -/

/-- `timestamp`, but for what is never written. -/
structure Timestamp where
  tmWday : Int := 0
  tmMday : Int := 0
  tmMon : Int := 0
  tmYear : Int := 0
  tmHour : Int := 0
  tmMin : Int := 0
  tmSec : Int := 0
  deriving DecidableEq, Repr

/-- `month`. -/
def month : List (List Char × Int) :=
  [("Jan".toList, 0), ("Feb".toList, 1), ("Mar".toList, 2), ("Apr".toList, 3), ("May".toList, 4),
    ("Jun".toList, 5), ("Jul".toList, 6), ("Aug".toList, 7), ("Sep".toList, 8), ("Oct".toList, 9),
    ("Nov".toList, 10), ("Dec".toList, 11)]

/-- `wk_day`. -/
def wkDay : List (List Char × Int) :=
  [("Mon".toList, 1), ("Tue".toList, 2), ("Wed".toList, 3), ("Thu".toList, 4), ("Fri".toList, 5),
    ("Sat".toList, 6), ("Sun".toList, 0)]

/-- `week_day`. -/
def weekDay : List (List Char × Int) :=
  [("Monday".toList, 1), ("Tuesday".toList, 2), ("Wednesday".toList, 3), ("Thursday".toList, 4),
    ("Friday".toList, 5), ("Saturday".toList, 6), ("Sunday".toList, 0)]

/-- `qi::uint_parser< unsigned, 10, min, max >`. -/
def uint (min max : Nat) : Parser Char Nat := fun input =>
  let digits := (input.take max).takeWhile Char.isDigit
  if min ≤ digits.length then
    some (Nat.ofDigitChars 10 digits 0, input.drop digits.length)
  else none

/-- A text that is not written. -/
def lit (text : String) : Rule Char Timestamp := Rule.pass (skip (literal text.toList))

/-- A parser with its action. -/
def token {α : Type} (p : Parser Char α) (write : α → Timestamp → Timestamp) : Rule Char Timestamp :=
  Rule.act (skip p) write

def setWday (v : Int) (t : Timestamp) : Timestamp := { t with tmWday := v }

def setMday (v : Nat) (t : Timestamp) : Timestamp := { t with tmMday := v }

def setMon (v : Int) (t : Timestamp) : Timestamp := { t with tmMon := v }

/-- A year before 1900 is less than zero as an `int` again. -/
def setYear (v : Nat) (t : Timestamp) : Timestamp := { t with tmYear := v - 1900 }

def setShortYear (v : Nat) (t : Timestamp) : Timestamp :=
  if v < 70 then { t with tmYear := v + 100 } else { t with tmYear := v }

def setHour (v : Nat) (t : Timestamp) : Timestamp := { t with tmHour := v }

def setMin (v : Nat) (t : Timestamp) : Timestamp := { t with tmMin := v }

def setSec (v : Nat) (t : Timestamp) : Timestamp := { t with tmSec := v }

def rfc1123Date : Rule Char Timestamp :=
  .sequence [token (symbols wkDay) setWday, lit ",", token (uint 2 2) setMday,
    token (symbols month) setMon, token (uint 4 4) setYear, token (uint 2 2) setHour, lit ":",
    token (uint 2 2) setMin, lit ":", token (uint 2 2) setSec, lit "GMT"]

def rfc850Date : Rule Char Timestamp :=
  .sequence [token (symbols weekDay) setWday, lit ",", token (uint 2 2) setMday, lit "-",
    token (symbols month) setMon, lit "-", token (uint 2 2) setShortYear, token (uint 2 2) setHour,
    lit ":", token (uint 2 2) setMin, lit ":", token (uint 2 2) setSec, lit "GMT"]

def asctimeDate : Rule Char Timestamp :=
  .sequence [token (symbols wkDay) setWday, token (symbols month) setMon, token (uint 1 2) setMday,
    token (uint 2 2) setHour, lit ":", token (uint 2 2) setMin, lit ":", token (uint 2 2) setSec,
    token (uint 4 4) setYear]

def httpDate : Rule Char Timestamp := rfc1123Date <|> rfc850Date <|> asctimeDate

/-! ## Times -/

/-- The first day of 1970. -/
def epoch : Int := 719528

/-- `timegm`, of the C library; months that are not of the year count on into others. -/
def timegm (t : Timestamp) : Int :=
  let first := Calendar.monthStart (t.tmYear + 1900 + t.tmMon / 12) (t.tmMon % 12).toNat
  (((first - epoch + (t.tmMday - 1)) * 24 + t.tmHour) * 60 + t.tmMin) * 60 + t.tmSec

/-- `parse_http_date`. -/
def parseHttpDate (input : String) : Option Int :=
  match httpDate.run input.toList {} with
  | (some _, t) => some (timegm t)
  | (none, _) => none

/-- A time, taken apart. -/
structure Moment where
  date : Calendar.Date
  weekday : Nat
  hour : Nat
  minute : Nat
  second : Nat
  weekday_lt : weekday < 7
  hour_lt : hour < 24
  minute_lt : minute < 60
  second_lt : second < 60

/-- `from_time_t`. -/
def fromTimeT (t : Int) : Moment where
  date := Calendar.ofDay (epoch + t / 86400)
  weekday := Calendar.weekday (epoch + t / 86400)
  hour := (t % 86400 / 3600).toNat
  minute := (t % 3600 / 60).toNat
  second := (t % 60).toNat
  weekday_lt := Calendar.weekday_lt _
  hour_lt := by omega
  minute_lt := by omega
  second_lt := by omega

def weekdayNames : List String :=
  ["Sunday", "Monday", "Tuesday", "Wednesday", "Thursday", "Friday", "Saturday"]

def shortWeekdayNames : List String := ["Sun", "Mon", "Tue", "Wed", "Thu", "Fri", "Sat"]

def shortMonthNames : List String :=
  ["Jan", "Feb", "Mar", "Apr", "May", "Jun", "Jul", "Aug", "Sep", "Oct", "Nov", "Dec"]

/-- A flag of a `local_time_facet`, in the zone GMT. -/
def Moment.flag (m : Moment) : Char → List Char
  | 'a' => (shortWeekdayNames.getD m.weekday "").toList
  | 'A' => (weekdayNames.getD m.weekday "").toList
  | 'b' => (shortMonthNames.getD m.date.month "").toList
  | 'd' => padded 2 (m.date.day + 1)
  | 'e' => if m.date.day + 1 < 10 then ' ' :: padded 1 (m.date.day + 1) else padded 2 (m.date.day + 1)
  | 'H' => padded 2 m.hour
  | 'M' => padded 2 m.minute
  | 'S' => padded 2 m.second
  | 'y' => padded 2 (m.date.year % 100).toNat
  | 'Y' => padded 4 m.date.year.toNat
  | 'z' => "GMT".toList
  | _ => []

/-- A moment by a format of a `local_time_facet`. -/
def Moment.format (m : Moment) : List Char → List Char
  | '%' :: flag :: rest => m.flag flag ++ m.format rest
  | c :: rest => c :: m.format rest
  | [] => []

/-- `http_date_formatter::operator()`. -/
def httpDateFormatter (t : Int) : String :=
  String.ofList ((fromTimeT t).format "%a, %d %b %Y %H:%M:%S %z".toList)

/-- The date of RFC 850, which no code here writes. -/
def rfc850Text (t : Int) : String :=
  String.ofList ((fromTimeT t).format "%A, %d-%b-%y %H:%M:%S %z".toList)

/-- The date of `asctime`. -/
def asctimeText (t : Int) : String :=
  String.ofList ((fromTimeT t).format "%a %b %e %H:%M:%S %Y".toList)

/-! ## What is read -/

theorem reads_uint {min max : Nat} {digits rest : List Char} (hdigits : ∀ c ∈ digits, c.isDigit = true)
    (hmin : min ≤ digits.length) (hmax : digits.length ≤ max)
    (hrest : digits.length < max → ∀ c ∈ rest.head?, c.isDigit = false) :
    Reads (uint min max) (digits ++ rest) (Nat.ofDigitChars 10 digits 0) rest := by
  have hnone : (rest.take (max - digits.length)).takeWhile Char.isDigit = [] := by
    rcases lt_or_eq_of_le hmax with hlt | heq
    · cases rest with
      | nil => simp
      | cons c rest =>
        obtain ⟨k, hk⟩ : ∃ k, max - digits.length = k + 1 := ⟨max - digits.length - 1, by omega⟩
        rw [hk, List.take_succ_cons, List.takeWhile_cons, hrest hlt c rfl, if_neg Bool.false_ne_true]
    · rw [heq, Nat.sub_self, List.take_zero, List.takeWhile_nil]
  have htake : ((digits ++ rest).take max).takeWhile Char.isDigit = digits := by
    rw [List.take_append, List.take_of_length_le hmax, List.takeWhile_append_of_pos hdigits, hnone,
      List.append_nil]
  unfold Reads uint
  rw [StateT.run, htake, if_pos hmin, List.drop_left]

/-- Spaces are skipped, up to what is none. -/
theorem reads_skip_spaces {α : Type} {p : Parser Char α} {spaces input rest : List Char} {a : α}
    (hspaces : ∀ c ∈ spaces, isSpace c = true) (hinput : ∀ c ∈ input.head?, isSpace c = false)
    (hp : Reads p input a rest) : Reads (skip p) (spaces ++ input) a rest :=
  (Reads.many_satisfy hspaces hinput).bind hp

theorem fails_skip_spaces {α : Type} {p : Parser Char α} {spaces input : List Char}
    (hspaces : ∀ c ∈ spaces, isSpace c = true) (hinput : ∀ c ∈ input.head?, isSpace c = false)
    (hp : Fails p input) : Fails (skip p) (spaces ++ input) :=
  Fails.bind_of_reads (Reads.many_satisfy hspaces hinput) hp

theorem isSpace_of_isDigit {c : Char} (h : c.isDigit = true) : isSpace c = false := by
  have hzero : '0'.val.toNat = 48 := rfl
  have hnine : '9'.val.toNat = 57 := rfl
  have hne : c ≠ ' ' := by
    rintro rfl
    exact absurd h (by decide)
  simp only [Char.isDigit, Bool.and_eq_true, decide_eq_true_eq, ge_iff_le,
    UInt32.le_iff_toNat_le] at h
  have hlate : ¬ c.toNat ≤ 13 := by
    unfold Char.toNat
    omega
  simp only [isSpace, hne, hlate, decide_false, Bool.and_false, Bool.or_false]

theorem head_padded {w : Nat} (hw : 0 < w) (n : Nat) (rest : List Char) :
    ∀ c ∈ (padded w n ++ rest).head?, isSpace c = false := by
  intro c hc
  cases htext : padded w n with
  | nil =>
    have hlength := length_padded w n
    rw [htext] at hlength
    exact absurd hlength.symm hw.ne'
  | cons d text =>
    rw [htext] at hc
    obtain rfl := Option.some.inj hc
    refine isSpace_of_isDigit (isDigit_of_mem_padded (w := w) (n := n) ?_)
    rw [htext]
    exact List.mem_cons_self

variable {spaces : List Char} (hspaces : ∀ c ∈ spaces, isSpace c = true)

include hspaces in
theorem takes_padded {w n : Nat} (hw : 0 < w) (hn : n < 10 ^ w) (write : Nat → Timestamp → Timestamp)
    (rest : List Char) (t : Timestamp) :
    (token (uint w w) write).Takes (spaces ++ (padded w n ++ rest)) t rest (write n t) := by
  have hlength := length_padded w n
  have hread : Reads (uint w w) (padded w n ++ rest) n rest := by
    have hdigits : ∀ c ∈ padded w n, c.isDigit = true := fun _ => isDigit_of_mem_padded
    have h : Reads (uint w w) (padded w n ++ rest) (Nat.ofDigitChars 10 (padded w n) 0) rest :=
      reads_uint hdigits hlength.ge hlength.le fun hlt => absurd hlength hlt.ne
    rwa [ofDigitChars_padded hn] at h
  exact Rule.Takes.act (reads_skip_spaces hspaces (head_padded hw n rest) hread) write t

include hspaces in
theorem takes_lit (literalText : String) {c : Char} {text : List Char}
    (htext : literalText.toList = c :: text) (hc : isSpace c = false) (rest : List Char)
    (t : Timestamp) : (lit literalText).Takes (spaces ++ (c :: (text ++ rest))) t rest t := by
  unfold lit
  rw [htext]
  exact Rule.Takes.pass (reads_skip_spaces hspaces (forall_head hc) (Reads.literal (c :: text) rest)) t

/-- The day of `asctime` has a space more where it is short. -/
theorem takes_day (m : Moment) (rest : List Char) (t : Timestamp) :
    (token (uint 1 2) setMday).Takes (' ' :: (m.flag 'e' ++ ' ' :: rest)) t (' ' :: rest)
      (setMday (m.date.day + 1) t) := by
  have hend : ∀ c ∈ (' ' :: rest).head?, c.isDigit = false := forall_head (by decide)
  have hread : ∀ {w : Nat}, 1 ≤ w → w ≤ 2 → m.date.day + 1 < 10 ^ w →
      Reads (uint 1 2) (padded w (m.date.day + 1) ++ ' ' :: rest) (m.date.day + 1) (' ' :: rest) := by
    intro w hmin hmax hlt
    have hdigits : ∀ c ∈ padded w (m.date.day + 1), c.isDigit = true := fun _ => isDigit_of_mem_padded
    have hlength := length_padded w (m.date.day + 1)
    have h := reads_uint hdigits (hmin.trans hlength.ge) (hlength.le.trans hmax) fun _ => hend
    rwa [ofDigitChars_padded hlt] at h
  show (token (uint 1 2) setMday).Takes (' ' :: ((if m.date.day + 1 < 10 then
    ' ' :: padded 1 (m.date.day + 1) else padded 2 (m.date.day + 1)) ++ ' ' :: rest)) t _ _
  split
  · next hday =>
    have htwo : ∀ c ∈ [' ', ' '], isSpace c = true := by simp [isSpace]
    have hread := hread le_rfl (by decide) (by rwa [pow_one])
    exact Rule.Takes.act (reads_skip_spaces htwo (head_padded (by decide) _ _) hread) setMday t
  · have hone : ∀ c ∈ [' '], isSpace c = true := by simp [isSpace]
    have hlt : m.date.day + 1 < 10 ^ 2 := by
      have hlt := m.date.day_lt
      omega
    have hread := hread (by decide) le_rfl hlt
    exact Rule.Takes.act (reads_skip_spaces hone (head_padded (by decide) _ _) hread) setMday t

/-- A table of names, none of which begins with a space. -/
def IsNames (table : List (List Char × Int)) : Prop :=
  PrefixFree table ∧ ∀ e ∈ table, isSpace (e.1.headD ' ') = false

theorem head_name {name : List Char} (h : isSpace (name.headD ' ') = false) (rest : List Char) :
    ∀ c ∈ (name ++ rest).head?, isSpace c = false := by
  cases name with
  | nil => exact absurd h (by decide)
  | cons c name => exact forall_head h

include hspaces in
theorem takes_name {table : List (List Char × Int)} (htable : IsNames table) {name : List Char}
    {v : Int} (hmem : (name, v) ∈ table) (write : Int → Timestamp → Timestamp) (rest : List Char)
    (t : Timestamp) :
    (token (symbols table) write).Takes (spaces ++ (name ++ rest)) t rest (write v t) :=
  Rule.Takes.act (reads_skip_spaces hspaces (head_name (htable.2 _ hmem) rest)
    (Reads.symbols htable.1 hmem rest)) write t

theorem isNames_wkDay : IsNames wkDay := by
  unfold IsNames PrefixFree wkDay
  decide

theorem isNames_weekDay : IsNames weekDay := by
  unfold IsNames PrefixFree weekDay
  decide

theorem isNames_month : IsNames month := by
  unfold IsNames PrefixFree month
  decide

theorem wkDay_mem (m : Moment) : (m.flag 'a', (m.weekday : Int)) ∈ wkDay := by
  have hall : ∀ k < 7, ((shortWeekdayNames.getD k "").toList, (k : Int)) ∈ wkDay := by decide
  exact hall m.weekday m.weekday_lt

theorem weekDay_mem (m : Moment) : (m.flag 'A', (m.weekday : Int)) ∈ weekDay := by
  have hall : ∀ k < 7, ((weekdayNames.getD k "").toList, (k : Int)) ∈ weekDay := by decide
  exact hall m.weekday m.weekday_lt

theorem month_mem (m : Moment) : (m.flag 'b', (m.date.month : Int)) ∈ month := by
  have hall : ∀ k < 12, ((shortMonthNames.getD k "").toList, (k : Int)) ∈ month := by decide
  exact hall m.date.month m.date.month_lt

/-! ## The alternatives -/

/-- The timestamp of a moment. -/
def Moment.timestamp (m : Moment) : Timestamp where
  tmWday := m.weekday
  tmMday := m.date.day + 1
  tmMon := m.date.month
  tmYear := m.date.year - 1900
  tmHour := m.hour
  tmMin := m.minute
  tmSec := m.second

theorem no_space : ∀ c ∈ ([] : List Char), isSpace c = true := by simp

theorem one_space : ∀ c ∈ [' '], isSpace c = true := by simp [isSpace]

theorem format_rfc1123 (m : Moment) : m.format "%a, %d %b %Y %H:%M:%S %z".toList =
    m.flag 'a' ++ ',' :: ' ' :: (m.flag 'd' ++ ' ' :: (m.flag 'b' ++ ' ' :: (m.flag 'Y' ++
      ' ' :: (m.flag 'H' ++ ':' :: (m.flag 'M' ++ ':' :: (m.flag 'S' ++ ' ' :: (m.flag 'z' ++
        []))))))) := rfl

/-- The time of a day is read, in front of what comes after it. -/
theorem takes_time (m : Moment) {rules : List (Rule Char Timestamp)} {rest last : List Char}
    {t t' : Timestamp}
    (h : (Rule.sequence rules).Takes rest
      { t with tmHour := m.hour, tmMin := m.minute, tmSec := m.second } last t') :
    (Rule.sequence (token (uint 2 2) setHour :: lit ":" :: token (uint 2 2) setMin :: lit ":" ::
        token (uint 2 2) setSec :: rules)).Takes
      (' ' :: (m.flag 'H' ++ ':' :: (m.flag 'M' ++ ':' :: (m.flag 'S' ++ rest)))) t last t' := by
  have hhour : m.hour < 10 ^ 2 := m.hour_lt.trans (by decide)
  have hminute : m.minute < 10 ^ 2 := m.minute_lt.trans (by decide)
  have hsecond : m.second < 10 ^ 2 := m.second_lt.trans (by decide)
  refine (takes_padded one_space (by decide) hhour setHour _ t).cons ?_
  refine (takes_lit no_space ":" rfl (by decide) _ _).cons ?_
  refine (takes_padded no_space (by decide) hminute setMin _ _).cons ?_
  refine (takes_lit no_space ":" rfl (by decide) _ _).cons ?_
  exact (takes_padded no_space (by decide) hsecond setSec _ _).cons h

theorem takes_rfc1123Date (m : Moment) (hlow : 0 ≤ m.date.year) (hhigh : m.date.year < 10 ^ 4)
    (t : Timestamp) :
    rfc1123Date.Takes (m.format "%a, %d %b %Y %H:%M:%S %z".toList) t [] m.timestamp := by
  have hday : m.date.day + 1 < 10 ^ 2 := by
    have hlt := m.date.day_lt
    omega
  have hyear : m.date.year.toNat < 10 ^ 4 := by omega
  rw [format_rfc1123]
  refine (takes_name no_space isNames_wkDay (wkDay_mem m) setWday _ t).cons ?_
  refine (takes_lit no_space "," rfl (by decide) _ _).cons ?_
  refine (takes_padded one_space (by decide) hday setMday _ _).cons ?_
  refine (takes_name one_space isNames_month (month_mem m) setMon _ _).cons ?_
  refine (takes_padded one_space (by decide) hyear setYear _ _).cons ?_
  refine takes_time m ?_
  refine (takes_lit one_space "GMT" rfl (by decide) [] _).cons ?_
  simp only [setWday, setMday, setMon, setYear, Int.toNat_of_nonneg hlow]
  exact Rule.Takes.nil _ _

/-- A short year is of one of the hundred years from 1970 on. -/
theorem setShortYear_mod {year : Int} (hlow : 1970 ≤ year) (hhigh : year ≤ 2069) (t : Timestamp) :
    setShortYear (year % 100).toNat t = { t with tmYear := year - 1900 } := by
  unfold setShortYear
  split
  · next hshort =>
    have hyear : ((year % 100).toNat : Int) + 100 = year - 1900 := by omega
    rw [hyear]
  · next hshort =>
    have hyear : ((year % 100).toNat : Int) = year - 1900 := by omega
    rw [hyear]

theorem format_rfc850 (m : Moment) : m.format "%A, %d-%b-%y %H:%M:%S %z".toList =
    m.flag 'A' ++ ',' :: ' ' :: (m.flag 'd' ++ '-' :: (m.flag 'b' ++ '-' :: (m.flag 'y' ++
      ' ' :: (m.flag 'H' ++ ':' :: (m.flag 'M' ++ ':' :: (m.flag 'S' ++ ' ' :: (m.flag 'z' ++
        []))))))) := rfl

theorem takes_rfc850Date (m : Moment) (hlow : 1970 ≤ m.date.year) (hhigh : m.date.year ≤ 2069)
    (t : Timestamp) :
    rfc850Date.Takes (m.format "%A, %d-%b-%y %H:%M:%S %z".toList) t [] m.timestamp := by
  have hday : m.date.day + 1 < 10 ^ 2 := by
    have hlt := m.date.day_lt
    omega
  have hyear : (m.date.year % 100).toNat < 10 ^ 2 := by omega
  rw [format_rfc850]
  refine (takes_name no_space isNames_weekDay (weekDay_mem m) setWday _ t).cons ?_
  refine (takes_lit no_space "," rfl (by decide) _ _).cons ?_
  refine (takes_padded one_space (by decide) hday setMday _ _).cons ?_
  refine (takes_lit no_space "-" rfl (by decide) _ _).cons ?_
  refine (takes_name no_space isNames_month (month_mem m) setMon _ _).cons ?_
  refine (takes_lit no_space "-" rfl (by decide) _ _).cons ?_
  refine (takes_padded no_space (by decide) hyear setShortYear _ _).cons ?_
  rw [setShortYear_mod hlow hhigh]
  refine takes_time m ?_
  exact (takes_lit one_space "GMT" rfl (by decide) [] _).cons (Rule.Takes.nil _ _)

theorem format_asctime (m : Moment) : m.format "%a %b %e %H:%M:%S %Y".toList =
    m.flag 'a' ++ ' ' :: (m.flag 'b' ++ ' ' :: (m.flag 'e' ++ ' ' :: (m.flag 'H' ++ ':' ::
      (m.flag 'M' ++ ':' :: (m.flag 'S' ++ ' ' :: (m.flag 'Y' ++ [])))))) := rfl

theorem takes_asctimeDate (m : Moment) (hlow : 0 ≤ m.date.year) (hhigh : m.date.year < 10 ^ 4)
    (t : Timestamp) :
    asctimeDate.Takes (m.format "%a %b %e %H:%M:%S %Y".toList) t [] m.timestamp := by
  have hyear : m.date.year.toNat < 10 ^ 4 := by omega
  rw [format_asctime]
  refine (takes_name no_space isNames_wkDay (wkDay_mem m) setWday _ t).cons ?_
  refine (takes_name one_space isNames_month (month_mem m) setMon _ _).cons ?_
  refine (takes_day m _ _).cons ?_
  refine takes_time m ?_
  refine (takes_padded one_space (by decide) hyear setYear [] _).cons ?_
  simp only [setWday, setMday, setMon, setYear, Int.toNat_of_nonneg hlow]
  exact Rule.Takes.nil _ _

/-! ## The alternatives that give up -/

/-- The short name of a day is followed by no comma. -/
theorem rfc1123Date_givesUp (m : Moment) {spaces input : List Char}
    (hspaces : ∀ c ∈ spaces, isSpace c = true) (hhead : ∀ c ∈ input.head?, isSpace c = false)
    (hcomma : ∀ c ∈ input.head?, ',' ≠ c) (t : Timestamp) :
    rfc1123Date.GivesUp (m.flag 'a' ++ (spaces ++ input)) t (setWday m.weekday t) := by
  refine .cons (takes_name no_space isNames_wkDay (wkDay_mem m) setWday _ t) (.head ?_)
  exact .act (fails_skip_spaces hspaces hhead (Fails.literal_cons hcomma)) _ _

/-- A long name goes on after the short one. -/
theorem flag_long (m : Moment) : ∃ c text, m.flag 'A' = m.flag 'a' ++ c :: text ∧
    isSpace c = false ∧ ',' ≠ c := by
  have hall : ∀ k < 7, (weekdayNames.getD k "").toList =
      (shortWeekdayNames.getD k "").toList ++ (weekdayNames.getD k "").toList.drop 3 ∧
        isSpace (((weekdayNames.getD k "").toList.drop 3).headD ' ') = false ∧
        ',' ≠ ((weekdayNames.getD k "").toList.drop 3).headD ' ' := by decide
  obtain ⟨htext, hspace, hcomma⟩ := hall m.weekday m.weekday_lt
  cases hlong : (weekdayNames.getD m.weekday "").toList.drop 3 with
  | nil =>
    rw [hlong] at hspace
    exact absurd hspace (by decide)
  | cons c text =>
    rw [hlong] at htext hspace hcomma
    exact ⟨c, text, htext, hspace, hcomma⟩

theorem flag_month (m : Moment) : ∃ c text, m.flag 'b' = c :: text ∧ isSpace c = false ∧ ',' ≠ c := by
  have hall : ∀ e ∈ month, isSpace (e.1.headD ' ') = false ∧ ',' ≠ e.1.headD ' ' := by
    unfold month
    decide
  obtain ⟨hspace, hcomma⟩ := hall _ (month_mem m)
  dsimp only at hspace hcomma
  cases hname : m.flag 'b' with
  | nil =>
    rw [hname] at hspace
    exact absurd hspace (by decide)
  | cons c text =>
    rw [hname] at hspace hcomma
    exact ⟨c, text, rfl, hspace, hcomma⟩

/-- No long name begins as a short one and a space. -/
theorem rfc850Date_givesUp (m : Moment) (rest : List Char) (t : Timestamp) :
    rfc850Date.GivesUp (m.flag 'a' ++ ' ' :: rest) t t := by
  have hall : ∀ k < 7, ((shortWeekdayNames.getD k "").toList ++ [' ']).length = 4 ∧
      ∀ e ∈ weekDay, ¬ e.1.take 4 <+: (shortWeekdayNames.getD k "").toList ++ [' '] := by decide
  obtain ⟨hlength, hnone⟩ := hall m.weekday m.weekday_lt
  have hfails : Fails (symbols weekDay) (m.flag 'a' ++ ' ' :: rest) := by
    refine Fails.symbols fun e he hprefix => ?_
    have htake : (m.flag 'a' ++ ' ' :: rest).take 4 = m.flag 'a' ++ [' '] := by
      rw [List.append_cons]
      exact List.take_left' hlength
    have hname := hprefix.take 4
    rw [htake] at hname
    exact hnone e he hname
  have hhead := head_name (isNames_wkDay.2 _ (wkDay_mem m)) (' ' :: rest)
  have hskip : Fails (skip (symbols weekDay)) ([] ++ (m.flag 'a' ++ ' ' :: rest)) :=
    fails_skip_spaces no_space hhead hfails
  exact .head (.act hskip setWday t)

/-! ## The round trip -/

theorem timegm_timestamp (t : Int) : timegm (fromTimeT t).timestamp = t := by
  have hmonth := (fromTimeT t).date.month_lt
  have hday : (fromTimeT t).date.toDay = epoch + t / 86400 := Calendar.toDay_ofDay _
  have hmod : (((fromTimeT t).date.month : Int) % 12).toNat = (fromTimeT t).date.month := by omega
  have hdiv : ((fromTimeT t).date.month : Int) / 12 = 0 := by omega
  have hyear : (fromTimeT t).date.year - 1900 + 1900 + 0 = (fromTimeT t).date.year := by omega
  unfold Calendar.Date.toDay at hday
  unfold timegm Moment.timestamp
  dsimp only
  rw [hmod, hdiv, hyear]
  have hhour : ((fromTimeT t).hour : Int) = t % 86400 / 3600 := by
    show ((t % 86400 / 3600).toNat : Int) = _
    omega
  have hminute : ((fromTimeT t).minute : Int) = t % 3600 / 60 := by
    show ((t % 3600 / 60).toNat : Int) = _
    omega
  have hsecond : ((fromTimeT t).second : Int) = t % 60 := by
    show ((t % 60).toNat : Int) = _
    omega
  rw [hhour, hminute, hsecond]
  omega

/-- The years that are written with four digits. -/
theorem year_fromTimeT {t : Int} (hlow : 0 ≤ t) (hhigh : t ≤ 253402300799) :
    1970 ≤ (fromTimeT t).date.year ∧ (fromTimeT t).date.year < 10 ^ 4 := by
  have hyear : (fromTimeT t).date.year = Calendar.yearOf (epoch + t / 86400) := rfl
  rw [hyear]
  constructor
  · refine (Calendar.le_yearOf_iff _ _).mpr ?_
    unfold Calendar.yearStart epoch
    omega
  · refine not_le.mp (mt (Calendar.le_yearOf_iff _ _).mp ?_)
    unfold Calendar.yearStart epoch
    omega

theorem parseHttpDate_of_takes {text : List Char} {t : Int}
    (h : httpDate.Takes text {} [] (fromTimeT t).timestamp) :
    parseHttpDate (String.ofList text) = some t := by
  unfold Rule.Takes at h
  unfold parseHttpDate
  rw [String.toList_ofList, h]
  exact congrArg some (timegm_timestamp t)

/-- **The round trip.** A time is read back from its date, and from the two texts of other kinds, where
the short year of one tells it.

The time is any from the epoch to the end of the year 9999. The years 1970 to 2069 are those that two
digits tell. Texts that the formatter does not write are not covered. -/
theorem parseHttpDate_formatted {t : Int} (hlow : 0 ≤ t) (hhigh : t ≤ 253402300799) :
    parseHttpDate (httpDateFormatter t) = some t ∧ parseHttpDate (asctimeText t) = some t ∧
      ((fromTimeT t).date.year ≤ 2069 → parseHttpDate (rfc850Text t) = some t) := by
  obtain ⟨hfirst, hlast⟩ := year_fromTimeT hlow hhigh
  have hzero : 0 ≤ (fromTimeT t).date.year := le_trans (by decide) hfirst
  refine ⟨?_, ?_, fun hshort => ?_⟩
  · exact parseHttpDate_of_takes (takes_rfc1123Date _ hzero hlast {}).orElse_left
  · obtain ⟨c, text, hmonth, hspace, hcomma⟩ := flag_month (fromTimeT t)
    let s := setWday (fromTimeT t).weekday {}
    have hgivesUp : rfc850Date.GivesUp ((fromTimeT t).format "%a %b %e %H:%M:%S %Y".toList) s s := by
      rw [format_asctime]
      exact rfc850Date_givesUp _ _ _
    have htaken := takes_asctimeDate _ hzero hlast s
    refine parseHttpDate_of_takes (.orElse_right ?_ (.orElse_right hgivesUp htaken))
    rw [format_asctime, hmonth]
    exact rfc1123Date_givesUp _ one_space (forall_head hspace) (forall_head hcomma) {}
  · obtain ⟨c, text, hlong, hspace, hcomma⟩ := flag_long (fromTimeT t)
    have htaken := takes_rfc850Date _ hfirst hshort (setWday (fromTimeT t).weekday {})
    refine parseHttpDate_of_takes (.orElse_right ?_ htaken.orElse_left)
    rw [format_rfc850, hlong, List.append_assoc]
    exact rfc1123Date_givesUp _ no_space (forall_head hspace) (forall_head hcomma) {}

/-- The last second of the short years. -/
theorem parseHttpDate_formatted_last :
    parseHttpDate (httpDateFormatter 3155759999) = some 3155759999 ∧
      parseHttpDate (asctimeText 3155759999) = some 3155759999 ∧
      parseHttpDate (rfc850Text 3155759999) = some 3155759999 := by
  obtain ⟨hformatted, hasctime, hshort⟩ :=
    @parseHttpDate_formatted 3155759999 (by decide) (by decide)
  exact ⟨hformatted, hasctime, hshort (by decide)⟩

example : httpDateFormatter 784111777 = "Sun, 06 Nov 1994 08:49:37 GMT" := by decide +kernel

end HttpDate

end RenderMq
