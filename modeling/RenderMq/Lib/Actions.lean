import RenderMq.Lib.Peg

/-!
# Parsers that write as they go

A rule is a parser that writes what it reads to a memory, one piece after the other. A rule that fails
has written what it had read by then, and the alternative after it begins with that memory.

So there are two judgements again, and both tell the memory: `Takes` and `GivesUp`.
-/

namespace Peg

variable {τ σ α : Type}

/-- A parser with a memory, which a failure keeps. -/
structure Rule (τ σ : Type) where
  run : List τ → σ → Option (List τ) × σ

namespace Rule

/-- A parser, and where its value is written. -/
def act (p : Parser τ α) (write : α → σ → σ) : Rule τ σ where
  run input s :=
    match p.run input with
    | some (a, rest) => (some rest, write a s)
    | none => (none, s)

/-- A parser whose value is not written. -/
def pass (p : Parser τ α) : Rule τ σ := act p fun _ s => s

/-- One rule after the other. -/
def sequence : List (Rule τ σ) → Rule τ σ
  | [] => { run := fun input s => (some input, s) }
  | r :: rs =>
    { run := fun input s =>
        match r.run input s with
        | (some rest, s) => (sequence rs).run rest s
        | (none, s) => (none, s) }

instance : OrElse (Rule τ σ) where
  orElse r q :=
    { run := fun input s =>
        match r.run input s with
        | (some rest, s) => (some rest, s)
        | (none, s) => (q ()).run input s }

/-- The rule takes an input up to a rest. -/
def Takes (r : Rule τ σ) (input : List τ) (s : σ) (rest : List τ) (s' : σ) : Prop :=
  r.run input s = (some rest, s')

def GivesUp (r : Rule τ σ) (input : List τ) (s s' : σ) : Prop := r.run input s = (none, s')

variable {r q : Rule τ σ} {input middle rest : List τ} {s s' s'' : σ}

theorem Takes.act {p : Parser τ α} {a : α} (h : Reads p input a rest) (write : α → σ → σ) (s : σ) :
    Takes (Rule.act p write) input s rest (write a s) := by
  unfold Takes Rule.act
  dsimp only
  rw [h]

theorem Takes.pass {p : Parser τ α} {a : α} (h : Reads p input a rest) (s : σ) :
    Takes (Rule.pass p) input s rest s :=
  Takes.act h _ s

theorem GivesUp.act {p : Parser τ α} (h : Fails p input) (write : α → σ → σ) (s : σ) :
    GivesUp (Rule.act p write) input s s := by
  unfold GivesUp Rule.act
  dsimp only
  rw [h]

theorem Takes.nil (input : List τ) (s : σ) : Takes (sequence []) input s input s := rfl

/-- Behind a rule that was taken, a sequence goes on with the others. -/
theorem run_sequence_cons (hr : Takes r input s middle s') (rs : List (Rule τ σ)) :
    (sequence (r :: rs)).run input s = (sequence rs).run middle s' := by
  unfold Takes at hr
  rw [sequence]
  dsimp only
  rw [hr]

theorem Takes.cons {rs : List (Rule τ σ)} (hr : Takes r input s middle s')
    (hrs : Takes (sequence rs) middle s' rest s'') : Takes (sequence (r :: rs)) input s rest s'' :=
  (run_sequence_cons hr rs).trans hrs

/-- A sequence keeps what was written before it failed. -/
theorem GivesUp.cons {rs : List (Rule τ σ)} (hr : Takes r input s middle s')
    (hrs : GivesUp (sequence rs) middle s' s'') : GivesUp (sequence (r :: rs)) input s s'' :=
  (run_sequence_cons hr rs).trans hrs

theorem GivesUp.head {rs : List (Rule τ σ)} (hr : GivesUp r input s s') :
    GivesUp (sequence (r :: rs)) input s s' := by
  unfold GivesUp at *
  rw [sequence]
  dsimp only
  rw [hr]

theorem run_orElse (r q : Rule τ σ) (input : List τ) (s : σ) :
    (r <|> q).run input s = match r.run input s with
      | (some rest, s) => (some rest, s)
      | (none, s) => q.run input s := rfl

theorem Takes.orElse_left (hr : Takes r input s rest s') : Takes (r <|> q) input s rest s' := by
  unfold Takes at *
  rw [run_orElse, hr]

theorem Takes.orElse_right (hr : GivesUp r input s s') (hq : Takes q input s' rest s'') :
    Takes (r <|> q) input s rest s'' := by
  unfold Takes GivesUp at *
  rw [run_orElse, hr]
  exact hq

end Rule

end Peg
