import RenderMq.Lib.Pieces
import Mathlib.Data.List.GetD
import Mathlib.Tactic.Ring

/-!
# Records of 32 bit words

A record that is copied to and from memory as it stands is a list of words, each four bytes, least
significant byte first. `wordAt` reads a word at a byte position; a byte past the end reads as zero,
so a caller that copies memory checks the length first, as it would in C.

`wordAt_encodeAll` is the round trip: the `i`-th word of an encoded list is read back at position
`4 * i`, whatever follows.
-/

namespace Words

/-- The four bytes of a word. -/
def encode (w : BitVec 32) : List UInt8 :=
  [UInt8.ofNat w.toNat, UInt8.ofNat (w.toNat / 2 ^ 8), UInt8.ofNat (w.toNat / 2 ^ 16),
    UInt8.ofNat (w.toNat / 2 ^ 24)]

def encodeAll (ws : List (BitVec 32)) : List UInt8 := ws.flatMap encode

/-- The word at a byte position. -/
def wordAt (b : List UInt8) (pos : Nat) : BitVec 32 :=
  let byte (n : Nat) : Nat := (b.getD (pos + n) 0).toNat
  BitVec.ofNat 32 (byte 0 + 2 ^ 8 * byte 1 + 2 ^ 16 * byte 2 + 2 ^ 24 * byte 3)

@[simp] theorem length_encode (w : BitVec 32) : (encode w).length = 4 := rfl

@[simp] theorem length_encodeAll (ws : List (BitVec 32)) :
    (encodeAll ws).length = 4 * ws.length := by
  induction ws with
  | nil => rfl
  | cons w ws ih =>
    rw [encodeAll, List.flatMap_cons, List.length_append, length_encode, List.length_cons]
    rw [encodeAll] at ih
    omega

/-- Reading past a block reads what follows it. -/
theorem wordAt_append_right (a b : List UInt8) (pos : Nat) :
    wordAt (a ++ b) (a.length + pos) = wordAt b pos := by
  have hbyte : ∀ n, (a ++ b).getD (a.length + pos + n) 0 = b.getD (pos + n) 0 := by
    intro n
    rw [Nat.add_assoc, List.getD_append_right _ _ _ _ (Nat.le_add_right _ _),
      Nat.add_sub_cancel_left]
  simp only [wordAt, hbyte]

/-- Reading a word inside a block does not look at what follows the block. -/
theorem wordAt_append_left {a b : List UInt8} {pos : Nat} (h : pos + 4 ≤ a.length) :
    wordAt (a ++ b) pos = wordAt a pos := by
  have hbyte : ∀ n, n < 4 → (a ++ b).getD (pos + n) 0 = a.getD (pos + n) 0 :=
    fun n hn => List.getD_append _ _ _ _ (by omega)
  simp only [wordAt, hbyte 0 (by decide), hbyte 1 (by decide), hbyte 2 (by decide),
    hbyte 3 (by decide)]

theorem wordAt_encode (w : BitVec 32) (rest : List UInt8) : wordAt (encode w ++ rest) 0 = w := by
  have hlt : w.toNat < 2 ^ 32 := w.isLt
  apply BitVec.eq_of_toNat_eq
  simp only [wordAt, encode, List.cons_append, List.getD_eq_getElem?_getD, Nat.zero_add,
    List.getElem?_cons_zero, List.getElem?_cons_succ, Option.getD_some, UInt8.toNat_ofNat',
    BitVec.toNat_ofNat]
  omega

/-- A word that is read is what the bytes there are. -/
theorem encode_wordAt_prefix {b : List UInt8} (h : 4 ≤ b.length) : encode (wordAt b 0) <+: b := by
  obtain ⟨b0, b1, b2, b3, rest, rfl⟩ : ∃ b0 b1 b2 b3 rest, b = b0 :: b1 :: b2 :: b3 :: rest := by
    match b, h with
    | b0 :: b1 :: b2 :: b3 :: rest, _ => exact ⟨b0, b1, b2, b3, rest, rfl⟩
  have hlt : ∀ c : UInt8, c.toNat < 256 := fun c => c.toNat_lt
  have h0 := hlt b0
  have h1 := hlt b1
  have h2 := hlt b2
  have h3 := hlt b3
  refine ⟨rest, ?_⟩
  have hbyte : ∀ (n : Nat) (c : UInt8), n % 256 = c.toNat → UInt8.ofNat n = c := by
    intro n c hn
    apply UInt8.toNat_inj.mp
    rw [UInt8.toNat_ofNat', hn]
  simp only [encode, wordAt, List.getD_eq_getElem?_getD, Nat.zero_add, List.getElem?_cons_zero,
    List.getElem?_cons_succ, Option.getD_some, BitVec.toNat_ofNat, List.cons_append,
    List.nil_append]
  rw [hbyte _ b0 (by omega), hbyte _ b1 (by omega), hbyte _ b2 (by omega), hbyte _ b3 (by omega)]

/-- **The round trip.** -/
theorem wordAt_encodeAll {ws : List (BitVec 32)} {i : Nat} (h : i < ws.length)
    (rest : List UInt8) : wordAt (encodeAll ws ++ rest) (4 * i) = ws[i] := by
  induction ws generalizing i with
  | nil => cases h
  | cons w ws ih =>
    rw [encodeAll, List.flatMap_cons, List.append_assoc]
    cases i with
    | zero => exact wordAt_encode w _
    | succ i =>
      have hpos : 4 * (i + 1) = (encode w).length + 4 * i := by
        rw [length_encode]
        ring
      rw [hpos, wordAt_append_right]
      exact ih (Nat.lt_of_succ_lt_succ h)

/-! ## Pairs of words in a row -/

/-- A list of pairs written out as words: the first word of the `i`-th pair. -/
theorem getElem?_flatMap_fst {α : Type*} (f g : α → BitVec 32) (l : List α) (i : Nat) :
    (l.flatMap fun a => [f a, g a])[2 * i]? = l[i]?.map f := by
  have := Pieces.getElem?_flatMap_block (f := fun a => [f a, g a]) (n := 2) (fun _ => rfl) l i
    (i := 0) (by decide)
  rw [Nat.add_zero] at this
  rw [this]
  cases l[i]? <;> rfl

/-- The second word of the `i`-th pair. -/
theorem getElem?_flatMap_snd {α : Type*} (f g : α → BitVec 32) (l : List α) (i : Nat) :
    (l.flatMap fun a => [f a, g a])[2 * i + 1]? = l[i]?.map g := by
  have := Pieces.getElem?_flatMap_block (f := fun a => [f a, g a]) (n := 2) (fun _ => rfl) l i
    (i := 1) (by decide)
  rw [this]
  cases l[i]? <;> rfl

end Words
