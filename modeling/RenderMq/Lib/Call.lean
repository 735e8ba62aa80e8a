import Mathlib.Logic.Basic

/-!
# Calls that may raise

A call changes a state, and returns a value or raises an exception (`none`). What it has changed stays
changed when it raises. Calls are made one after another (`bind`), and an exception ends what comes after
it, up to where it is caught (`attempt`).

`wp` is what must hold of the state for a call to end as it is meant to, whether it returns or raises.
Each way to make a call has its rule, and `wp_mono` weakens what is meant. Where one thing holds of the
state from the first call to the last, `Keeps` has rules that do not go through the states.
-/

/-- A call with a state. -/
def Call (σ α : Type) : Type := σ → Option α × σ

namespace Call

variable {σ α β : Type}

/-- Raise an exception. -/
def raise : Call σ α := fun s => (none, s)

/-- `try`: the exception is caught. -/
def attempt (x : Call σ α) : Call σ (Option α) := fun s => (some (x s).1, (x s).2)

/-- A value that there may not be. -/
def ofOption (a : Option α) : Call σ α := fun s => (a, s)

instance : Monad (Call σ) where
  pure a := fun s => (some a, s)
  bind x f := fun s =>
    match x s with
    | (some a, s') => f a s'
    | (none, s') => (none, s')

/-! ## The rules -/

/-- A call from a state ends as it is meant to. -/
def wp (x : Call σ α) (post : Option α → σ → Prop) (s : σ) : Prop := post (x s).1 (x s).2

variable {post post' : Option α → σ → Prop} {s : σ}

@[simp] theorem wp_pure (a : α) : wp (pure a : Call σ α) post s ↔ post (some a) s := Iff.rfl

@[simp] theorem wp_raise : wp (raise : Call σ α) post s ↔ post none s := Iff.rfl

@[simp] theorem wp_ofOption (a : Option α) : wp (ofOption a : Call σ α) post s ↔ post a s := Iff.rfl

@[simp] theorem wp_attempt (x : Call σ α) {post : Option (Option α) → σ → Prop} :
    wp x.attempt post s ↔ wp x (fun r => post (some r)) s := Iff.rfl

@[simp] theorem wp_bind (x : Call σ α) (f : α → Call σ β) {post : Option β → σ → Prop} :
    wp (x >>= f) post s ↔ wp x (fun r s' => r.elim (post none s') fun a => wp (f a) post s') s := by
  simp only [wp, bind]
  rcases x s with ⟨_ | a, s'⟩
  · rfl
  · rfl

theorem wp_mono {x : Call σ α} (h : wp x post s) (hpost : ∀ r s', post r s' → post' r s') :
    wp x post' s :=
  hpost _ _ h

/-- What a call returns from a state. -/
theorem wp_iff {x : Call σ α} : wp x post s ↔ ∀ r s', x s = (r, s') → post r s' :=
  ⟨fun h r s' hx => by rwa [wp, hx] at h, fun h => h _ _ rfl⟩

/-- A call on one half of a state. -/
def onFirst {τ : Type} (x : Call σ α) : Call (σ × τ) α := fun s => ((x s.1).1, ((x s.1).2, s.2))

@[simp] theorem wp_onFirst {τ : Type} (x : Call σ α) {post : Option α → σ × τ → Prop} {s : σ × τ} :
    wp x.onFirst post s ↔ wp x (fun r s' => post r (s', s.2)) s.1 := Iff.rfl

/-! ## What is kept -/

/-- A call keeps what holds of the state, also when it raises. -/
def Keeps (Inv : σ → Prop) (x : Call σ α) : Prop := ∀ s, Inv s → wp x (fun _ s' => Inv s') s

variable {Inv : σ → Prop}

theorem keeps_pure (a : α) : Keeps Inv (pure a : Call σ α) := fun _ h => h

theorem keeps_raise : Keeps Inv (raise : Call σ α) := fun _ h => h

theorem keeps_ofOption (a : Option α) : Keeps Inv (ofOption a) := fun _ h => h

theorem keeps_bind {x : Call σ α} {f : α → Call σ β} (hx : Keeps Inv x) (hf : ∀ a, Keeps Inv (f a)) :
    Keeps Inv (x >>= f) := by
  intro s h
  rw [wp_bind]
  refine wp_mono (hx s h) fun r s' h' => ?_
  cases r with
  | none => exact h'
  | some a => exact hf a s' h'

/-- Where there is a value, it is known. -/
theorem keeps_bind_ofOption {a : Option α} {f : α → Call σ β} (hf : ∀ b, a = some b → Keeps Inv (f b)) :
    Keeps Inv (ofOption a >>= f) := by
  intro s h
  cases a with
  | none => exact h
  | some b => exact hf b rfl s h

theorem keeps_attempt {x : Call σ α} (hx : Keeps Inv x) : Keeps Inv x.attempt := hx

theorem keeps_foldlM {f : β → α → Call σ β} (hf : ∀ b a, Keeps Inv (f b a)) (l : List α) :
    ∀ b, Keeps Inv (l.foldlM f b) := by
  induction l with
  | nil => exact keeps_pure
  | cons a l ih =>
    intro b
    rw [List.foldlM_cons]
    exact keeps_bind (hf b a) ih

end Call
