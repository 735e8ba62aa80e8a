import Mathlib.Data.List.MinMax
import Mathlib.Data.List.Infix

/-!
# Parsers that take what they can

A parser reads a value off the front of a text, or fails. A second alternative is tried where the
first fails, and a repetition goes on for as long as it can; neither is ever taken back.

What a parser makes of an input is `Reads`: a value, and the rest of the input. The rules compose it
along the parser. The whole rest is kept in each, since what comes next is what ends a repetition.

The other way round, what was read is taken apart by the `of_reads` of each parser.
-/

namespace Peg

variable {τ α β : Type}

abbrev Parser (τ : Type) : Type → Type := StateT (List τ) Option

/-- The parser reads a value off an input, up to a rest. -/
def Reads (p : Parser τ α) (input : List τ) (v : α) (rest : List τ) : Prop :=
  p.run input = some (v, rest)

def Fails (p : Parser τ α) (input : List τ) : Prop := p.run input = none

/-! ## Parsers -/

/-- One token of a kind. -/
def satisfy (q : τ → Bool) : Parser τ τ := fun input =>
  match input with
  | [] => none
  | a :: rest => if q a then some (a, rest) else none

/-- The end of the text. -/
def endOfInput : Parser τ Unit := fun input =>
  match input with
  | [] => some ((), [])
  | _ :: _ => none

/-- A repetition, at most some times. -/
def manyFrom (p : Parser τ α) : Nat → List τ → List α × List τ
  | 0, input => ([], input)
  | n + 1, input =>
    match p.run input with
    | none => ([], input)
    | some (a, rest) => ((manyFrom p n rest).1.cons a, (manyFrom p n rest).2)

/-- A repetition of a parser that does not read the empty text. -/
def many (p : Parser τ α) : Parser τ (List α) := fun input => some (manyFrom p input.length input)

/-- One or more, with a separator between them. -/
def listOf (p : Parser τ α) (separator : Parser τ β) : Parser τ (List α) := do
  let a ← p
  let as ← many (do let _ ← separator; p)
  pure (a :: as)

/-- The text that a parser reads. -/
def raw (p : Parser τ α) : Parser τ (List τ) := fun input =>
  (p.run input).map fun out => (input.take (input.length - out.2.length), out.2)

section Equality

variable [DecidableEq τ]

/-- A text. -/
def literal (text : List τ) : Parser τ Unit := fun input =>
  if text <+: input then some ((), input.drop text.length) else none

/-- The longest key of a table. -/
def symbols (table : List (List τ × α)) : Parser τ α := fun input =>
  ((table.filter fun e => decide (e.1 <+: input)).argmax fun e => e.1.length).map
    fun e => (e.2, input.drop e.1.length)

end Equality

/-! ## What they read -/

theorem Reads.pure (v : α) (input : List τ) : Reads (Pure.pure v : Parser τ α) input v input := rfl

theorem Reads.bind {p : Parser τ α} {f : α → Parser τ β} {input middle rest : List τ} {a : α} {b : β}
    (hp : Reads p input a middle) (hf : Reads (f a) middle b rest) :
    Reads (p >>= f) input b rest := by
  unfold Reads at hp hf ⊢
  rw [StateT.run_bind, hp]
  exact hf

theorem Fails.bind {p : Parser τ α} {f : α → Parser τ β} {input : List τ} (hp : Fails p input) :
    Fails (p >>= f) input := by
  unfold Fails at hp ⊢
  rw [StateT.run_bind, hp]
  rfl

/-- A sequence fails where its second parser does. -/
theorem Fails.bind_of_reads {p : Parser τ α} {f : α → Parser τ β} {input rest : List τ} {a : α}
    (hp : Reads p input a rest) (hf : Fails (f a) rest) : Fails (p >>= f) input := by
  unfold Reads Fails at *
  rw [StateT.run_bind, hp]
  exact hf

theorem Reads.orElse_left {p q : Parser τ α} {input rest : List τ} {a : α}
    (hp : Reads p input a rest) : Reads (p <|> q) input a rest := by
  show (p.run input <|> q.run input) = some (a, rest)
  rw [hp]
  rfl

theorem Reads.orElse_right {p q : Parser τ α} {input rest : List τ} {a : α} (hp : Fails p input)
    (hq : Reads q input a rest) : Reads (p <|> q) input a rest := by
  show (p.run input <|> q.run input) = some (a, rest)
  rw [hp, hq]
  rfl

theorem Fails.orElse {p q : Parser τ α} {input : List τ} (hp : Fails p input) (hq : Fails q input) :
    Fails (p <|> q) input := by
  show (p.run input <|> q.run input) = none
  rw [hp, hq]
  rfl

/-- What the first token of a text is. -/
theorem forall_head {q : τ → Prop} {a : τ} {rest : List τ} (ha : q a) :
    ∀ b ∈ (a :: rest).head?, q b := by
  intro b hb
  obtain rfl := Option.some.inj hb
  exact ha

theorem Reads.satisfy {q : τ → Bool} {a : τ} (ha : q a = true) (rest : List τ) :
    Reads (Peg.satisfy q) (a :: rest) a rest :=
  if_pos ha

theorem Fails.satisfy {q : τ → Bool} {input : List τ} (h : ∀ a ∈ input.head?, q a = false) :
    Fails (Peg.satisfy q) input := by
  cases input with
  | nil => rfl
  | cons a rest =>
    have ha : ¬ q a = true := by simp [h a rfl]
    exact if_neg ha

theorem Reads.endOfInput : Reads (Peg.endOfInput : Parser τ Unit) [] () [] := rfl

theorem Fails.endOfInput (a : τ) (rest : List τ) :
    Fails (Peg.endOfInput : Parser τ Unit) (a :: rest) := rfl

theorem Reads.raw {p : Parser τ α} {text rest : List τ} {a : α} (hp : Reads p (text ++ rest) a rest) :
    Reads (Peg.raw p) (text ++ rest) text rest := by
  show (p.run (text ++ rest)).map _ = _
  rw [hp]
  simp

/-! ## Repetitions -/

/-- Values are read one after the other, up to where the parser fails. -/
inductive ReadsAll (p : Parser τ α) : List τ → List α → List τ → Prop where
  | nil {rest : List τ} : Fails p rest → ReadsAll p rest [] rest
  | cons {input middle rest : List τ} {v : α} {vs : List α} : Reads p input v middle →
      middle.length < input.length → ReadsAll p middle vs rest → ReadsAll p input (v :: vs) rest

theorem manyFrom_eq {p : Parser τ α} {input rest : List τ} {vs : List α}
    (h : ReadsAll p input vs rest) :
    ∀ n, input.length - rest.length ≤ n → manyFrom p n input = (vs, rest) := by
  induction h with
  | nil hfails =>
    intro n _
    cases n with
    | zero => rfl
    | succ n => rw [manyFrom, hfails]
  | @cons input middle rest v vs hread hlt hall ih =>
    intro n hn
    have hle : rest.length ≤ middle.length := by
      clear ih hn hread hlt
      induction hall with
      | nil => exact le_rfl
      | cons _ hlt _ ih => omega
    obtain ⟨n, rfl⟩ : ∃ k, n = k + 1 := ⟨n - 1, by omega⟩
    rw [manyFrom, hread]
    simp only [ih n (by omega)]

theorem Reads.many {p : Parser τ α} {input rest : List τ} {vs : List α}
    (h : ReadsAll p input vs rest) : Reads (Peg.many p) input vs rest :=
  congrArg some (manyFrom_eq h _ (Nat.sub_le ..))

/-- All tokens of a kind, up to one that is not. -/
theorem Reads.many_satisfy {q : τ → Bool} {text rest : List τ} (htext : ∀ a ∈ text, q a = true)
    (hrest : ∀ a ∈ rest.head?, q a = false) :
    Reads (Peg.many (Peg.satisfy q)) (text ++ rest) text rest := by
  refine Reads.many ?_
  induction text with
  | nil => exact .nil (Fails.satisfy hrest)
  | cons a text ih =>
    obtain ⟨ha, htext⟩ := List.forall_mem_cons.mp htext
    exact .cons (Reads.satisfy ha _) (by simp) (ih htext)

theorem Reads.listOf {p : Parser τ α} {separator : Parser τ β} {input middle rest : List τ} {a : α}
    {as : List α} (hp : Reads p input a middle)
    (hmore : ReadsAll (do let _ ← separator; p) middle as rest) :
    Reads (Peg.listOf p separator) input (a :: as) rest :=
  hp.bind ((Reads.many hmore).bind (Reads.pure _ _))

/-! ## Fixed texts -/

section Equality

variable [DecidableEq τ]

theorem Reads.literal (text rest : List τ) : Reads (Peg.literal text) (text ++ rest) () rest := by
  refine (if_pos (List.prefix_append text rest)).trans ?_
  rw [List.drop_left]

theorem Fails.literal {text input : List τ} (h : ¬ text <+: input) : Fails (Peg.literal text) input :=
  if_neg h

/-- A text fails where its first token is not there. -/
theorem Fails.literal_cons {a : τ} {text input : List τ} (h : ∀ b ∈ input.head?, a ≠ b) :
    Fails (Peg.literal (a :: text)) input := by
  refine Fails.literal fun hprefix => ?_
  cases input with
  | nil => exact absurd (List.prefix_nil.mp hprefix) (List.cons_ne_nil a text)
  | cons b input => exact h b rfl (List.cons_prefix_cons.mp hprefix).1

/-- No key of a table begins with another. -/
def PrefixFree (table : List (List τ × α)) : Prop :=
  ∀ e ∈ table, ∀ e' ∈ table, e.1 <+: e'.1 → e = e'

theorem Reads.symbols {table : List (List τ × α)} {key : List τ} {v : α} (hfree : PrefixFree table)
    (hmem : (key, v) ∈ table) (rest : List τ) : Reads (Peg.symbols table) (key ++ rest) v rest := by
  let found := table.filter fun e => decide (e.1 <+: key ++ rest)
  have hfound : (key, v) ∈ found :=
    List.mem_filter.mpr ⟨hmem, decide_eq_true (List.prefix_append key rest)⟩
  have honly : ∀ e ∈ found, e = (key, v) := by
    intro e he
    obtain ⟨he, hprefix⟩ := List.mem_filter.mp he
    have hprefix := of_decide_eq_true hprefix
    rcases List.prefix_or_prefix_of_prefix hprefix (List.prefix_append key rest) with h | h
    · exact hfree e he (key, v) hmem h
    · exact (hfree (key, v) hmem e he h).symm
  show (found.argmax fun e => e.1.length).map (fun e => (e.2, (key ++ rest).drop e.1.length)) = _
  cases hmax : found.argmax fun e => e.1.length with
  | none =>
    rw [List.argmax_eq_none] at hmax
    rw [hmax] at hfound
    cases hfound
  | some e =>
    rw [honly e (List.argmax_mem hmax), Option.map_some, List.drop_left]

/-- A table fails where none of its keys is. -/
theorem Fails.symbols {table : List (List τ × α)} {input : List τ}
    (h : ∀ e ∈ table, ¬ e.1 <+: input) : Fails (Peg.symbols table) input := by
  have hnone : (table.filter fun e => decide (e.1 <+: input)) = [] :=
    List.filter_eq_nil_iff.mpr fun e he hprefix => h e he (of_decide_eq_true hprefix)
  show ((table.filter fun e => decide (e.1 <+: input)).argmax fun e => e.1.length).map _ = none
  rw [hnone]
  rfl

end Equality

/-! ## What was read -/

theorem Reads.unique {p : Parser τ α} {input rest rest' : List τ} {a a' : α}
    (h : Reads p input a rest) (h' : Reads p input a' rest') : a = a' ∧ rest = rest' :=
  Prod.mk.inj (Option.some.inj (h.symm.trans h'))

theorem reads_pure_iff {v w : α} {input rest : List τ} :
    Reads (Pure.pure v : Parser τ α) input w rest ↔ w = v ∧ rest = input := by
  constructor
  · exact fun h => h.unique (Reads.pure v input)
  · rintro ⟨rfl, rfl⟩
    exact Reads.pure w rest

theorem reads_bind_iff {p : Parser τ α} {f : α → Parser τ β} {input rest : List τ} {b : β} :
    Reads (p >>= f) input b rest ↔ ∃ a middle, Reads p input a middle ∧ Reads (f a) middle b rest := by
  constructor
  · intro h
    unfold Reads at h
    rw [StateT.run_bind] at h
    obtain ⟨⟨a, middle⟩, hp, hf⟩ := Option.bind_eq_some_iff.mp h
    exact ⟨a, middle, hp, hf⟩
  · rintro ⟨a, middle, hp, hf⟩
    exact hp.bind hf

theorem orElse_of_reads {p q : Parser τ α} {input rest : List τ} {a : α}
    (h : Reads (p <|> q) input a rest) : Reads p input a rest ∨ Reads q input a rest := by
  replace h : (p.run input <|> q.run input) = some (a, rest) := h
  cases hp : p.run input with
  | some out =>
    rw [hp] at h
    exact .inl (hp.trans h)
  | none =>
    rw [hp] at h
    exact .inr h

theorem satisfy_of_reads {q : τ → Bool} {input rest : List τ} {a : τ}
    (h : Reads (satisfy q) input a rest) : q a = true ∧ input = a :: rest := by
  cases input with
  | nil => cases h
  | cons b input =>
    replace h : (if q b then some (b, input) else none) = some (a, rest) := h
    split at h
    · next hb =>
      obtain ⟨rfl, rfl⟩ := Prod.mk.inj (Option.some.inj h)
      exact ⟨hb, rfl⟩
    · cases h

theorem endOfInput_of_reads {input rest : List τ} {u : Unit}
    (h : Reads (endOfInput : Parser τ Unit) input u rest) : input = [] ∧ rest = [] := by
  cases input with
  | nil => exact ⟨rfl, (h.unique Reads.endOfInput).2⟩
  | cons a input => cases h

/-- What a repetition reads is a text of values, each read by the parser. -/
theorem many_of_reads {p : Parser τ α} {Text : α → List τ → Prop}
    (hp : ∀ input v rest, Reads p input v rest → ∃ text, Text v text ∧ input = text ++ rest)
    {input rest : List τ} {vs : List α} (h : Reads (many p) input vs rest) :
    ∃ texts, List.Forall₂ Text vs texts ∧ input = texts.flatten ++ rest := by
  have hfrom : ∀ (n : Nat) (input : List τ), ∃ texts,
      List.Forall₂ Text (manyFrom p n input).1 texts ∧
        input = texts.flatten ++ (manyFrom p n input).2 := by
    intro n
    induction n with
    | zero => exact fun input => ⟨[], .nil, rfl⟩
    | succ n ih =>
      intro input
      rw [manyFrom]
      cases hrun : p.run input with
      | none => exact ⟨[], .nil, rfl⟩
      | some out =>
        obtain ⟨text, htext, hinput⟩ := hp input out.1 out.2 hrun
        obtain ⟨texts, htexts, hout⟩ := ih out.2
        refine ⟨text :: texts, .cons htext htexts, ?_⟩
        rw [List.flatten_cons, List.append_assoc, ← hout]
        exact hinput
  obtain ⟨texts, htexts, hinput⟩ := hfrom input.length input
  obtain ⟨hvs, hrest⟩ := Prod.mk.inj (Option.some.inj h)
  rw [hvs] at htexts
  rw [hrest] at hinput
  exact ⟨texts, htexts, hinput⟩

theorem many_satisfy_of_reads {q : τ → Bool} {input rest text : List τ}
    (h : Reads (many (satisfy q)) input text rest) :
    (∀ a ∈ text, q a = true) ∧ input = text ++ rest := by
  have hone : ∀ input v rest, Reads (satisfy q) input v rest →
      ∃ one, (q v = true ∧ one = [v]) ∧ input = one ++ rest := by
    intro input v rest h
    obtain ⟨hv, rfl⟩ := satisfy_of_reads h
    exact ⟨[v], ⟨hv, rfl⟩, rfl⟩
  obtain ⟨texts, htexts, rfl⟩ := many_of_reads hone h
  clear h
  induction htexts with
  | nil => simp
  | cons hone _ ih =>
    obtain ⟨hv, rfl⟩ := hone
    refine ⟨List.forall_mem_cons.mpr ⟨hv, ih.1⟩, ?_⟩
    rw [List.flatten_cons, List.append_assoc, ih.2]
    rfl

theorem listOf_of_reads {p : Parser τ α} {separator : Parser τ β} {input rest : List τ} {vs : List α}
    (h : Reads (listOf p separator) input vs rest) : ∃ a as middle, vs = a :: as ∧
      Reads p input a middle ∧ Reads (many (do let _ ← separator; p)) middle as rest := by
  obtain ⟨a, middle, hp, h⟩ := reads_bind_iff.mp h
  obtain ⟨as, rest', hmany, h⟩ := reads_bind_iff.mp h
  obtain ⟨rfl, rfl⟩ := reads_pure_iff.mp h
  exact ⟨a, as, middle, rfl, hp, hmany⟩

/-- The text that is read is what stands before the rest. -/
theorem raw_of_reads {p : Parser τ α} {input rest text : List τ} (h : Reads (raw p) input text rest)
    (hp : ∀ a, Reads p input a rest → rest <:+ input) :
    ∃ a, Reads p input a rest ∧ input = text ++ rest := by
  obtain ⟨⟨a, rest'⟩, hrun, hout⟩ := Option.map_eq_some_iff.mp h
  obtain ⟨rfl, rfl⟩ := Prod.mk.inj hout
  obtain ⟨before, rfl⟩ := hp a hrun
  refine ⟨a, hrun, ?_⟩
  simp

section Equality

variable [DecidableEq τ]

theorem literal_of_reads {text input rest : List τ} {u : Unit}
    (h : Reads (literal text) input u rest) : input = text ++ rest := by
  replace h : (if text <+: input then some ((), input.drop text.length) else none) =
    some (u, rest) := h
  split at h
  · next hprefix =>
    obtain ⟨after, rfl⟩ := hprefix
    rw [List.drop_left] at h
    rw [(Prod.mk.inj (Option.some.inj h)).2]
  · cases h

theorem symbols_of_reads {table : List (List τ × α)} {input rest : List τ} {v : α}
    (h : Reads (symbols table) input v rest) : ∃ key, (key, v) ∈ table ∧ input = key ++ rest := by
  obtain ⟨e, hmax, hout⟩ := Option.map_eq_some_iff.mp h
  obtain ⟨rfl, rfl⟩ := Prod.mk.inj hout
  obtain ⟨hmem, hprefix⟩ := List.mem_filter.mp (List.argmax_mem hmax)
  obtain ⟨after, rfl⟩ := of_decide_eq_true hprefix
  exact ⟨e.1, hmem, by rw [List.drop_left]⟩

end Equality

end Peg
