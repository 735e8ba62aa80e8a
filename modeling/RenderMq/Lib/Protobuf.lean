import Mathlib.Algebra.Order.Group.Nat
import Mathlib.Algebra.Ring.Nat
import RenderMq.Lib.Peg

/-!
# Messages of protocol buffers

A message is the texts of its fields, each after a tag that has the number of the field and the type of
its text. Numbers are written seven bits a byte, the lowest first.

A type of values comes with its texts and a parser that reads them (`Coder`), whatever comes after. So
a message is read field by field, and one that may be missing is told by the tag that comes next.
-/

namespace Protobuf

open Peg

/-! ## Numbers -/

/-- A number in at most so many bytes. -/
def varintFrom : Nat → Nat → List UInt8
  | 0, _ => []
  | k + 1, n =>
    if n < 128 then [UInt8.ofNat n] else UInt8.ofNat (n % 128 + 128) :: varintFrom k (n / 128)

def varint (n : Nat) : List UInt8 := varintFrom (n + 1) n

def readVarint : Parser UInt8 Nat := fun input => go input
where
  go : List UInt8 → Option (Nat × List UInt8)
    | [] => none
    | b :: rest =>
      if b.toNat < 128 then some (b.toNat, rest)
      else (go rest).map fun out => (b.toNat - 128 + 128 * out.1, out.2)

theorem go_varintFrom {k n : Nat} (h : n < 128 ^ (k + 1)) (rest : List UInt8) :
    readVarint.go (varintFrom (k + 1) n ++ rest) = some (n, rest) := by
  induction k generalizing n with
  | zero =>
    have hsmall : n < 128 := by rwa [Nat.zero_add, pow_one] at h
    have hbyte : (UInt8.ofNat n).toNat = n := by
      rw [UInt8.toNat_ofNat']
      omega
    rw [varintFrom, if_pos hsmall, List.singleton_append, readVarint.go, hbyte, if_pos hsmall]
  | succ k ih =>
    rw [varintFrom]
    split
    · next hsmall =>
      have hbyte : (UInt8.ofNat n).toNat = n := by
        rw [UInt8.toNat_ofNat']
        omega
      rw [List.singleton_append, readVarint.go, hbyte, if_pos hsmall]
    · next hlarge =>
      have hbyte : (UInt8.ofNat (n % 128 + 128)).toNat = n % 128 + 128 := by
        rw [UInt8.toNat_ofNat']
        omega
      have hlow : n / 128 < 128 ^ (k + 1) := Nat.div_lt_of_lt_mul (by rwa [pow_succ'] at h)
      have hvalue : n % 128 + 128 - 128 + 128 * (n / 128) = n := by omega
      rw [List.cons_append, readVarint.go, hbyte, if_neg (by omega), ih hlow, Option.map_some, hvalue]

/-- A number is read, whatever comes after it. -/
theorem reads_varint (n : Nat) (rest : List UInt8) : Reads readVarint (varint n ++ rest) n rest := by
  have hlarge : n < 128 ^ (n + 1) := (Nat.lt_pow_self (by decide)).trans
    (Nat.pow_lt_pow_right (by decide) (Nat.lt_succ_self n))
  exact go_varintFrom hlarge rest

/-! ## Types of values -/

/-- The texts of a type of values, and a parser that reads them. -/
structure Coder (α : Type) where
  write : α → List UInt8
  read : Parser UInt8 α
  reads : ∀ v rest, Reads read (write v ++ rest) v rest

/-- A number that stands for a value. -/
def Coder.number {α : Type} (toNat : α → Nat) (ofNat : Nat → α) (h : ∀ v, ofNat (toNat v) = v) :
    Coder α where
  write v := varint (toNat v)
  read := do
    let n ← readVarint
    pure (ofNat n)
  reads v rest := by
    have hpure : Reads (pure (ofNat (toNat v))) rest v rest :=
      reads_pure_iff.mpr ⟨(h v).symm, rfl⟩
    exact (reads_varint (toNat v) rest).bind hpure

theorem low_signExtend (v : BitVec 32) : BitVec.ofNat 32 (v.signExtend 64).toNat = v := by
  rw [BitVec.ofNat_toNat]
  ext i hi
  simp [BitVec.getLsbD_signExtend, hi]
  omega

/-- An `int32`, written in 64 bits. -/
def int32 : Coder Int32 :=
  .number (fun v => (v.toBitVec.signExtend 64).toNat) (fun n => Int32.ofBitVec (BitVec.ofNat 32 n))
    fun v => Int32.toBitVec.inj (low_signExtend v.toBitVec)

def uint64 : Coder UInt64 := .number UInt64.toNat UInt64.ofNat fun _ => UInt64.ofNat_toNat

/-- The next so many tokens. -/
def takeBytes (n : Nat) : Parser UInt8 (List UInt8) := fun input =>
  if n ≤ input.length then some (input.take n, input.drop n) else none

/-- A text after its length. -/
def bytes : Coder (List UInt8) where
  write text := varint text.length ++ text
  read := do
    let n ← readVarint
    takeBytes n
  reads text rest := by
    rw [List.append_assoc]
    refine (reads_varint text.length (text ++ rest)).bind ?_
    show (if text.length ≤ (text ++ rest).length then _ else _) = _
    rw [if_pos (by simp), List.take_left, List.drop_left]

def string : Coder String where
  write s := bytes.write s.toByteArray.data.toList
  read := do
    let text ← bytes.read
    match String.fromUTF8? ⟨text.toArray⟩ with
    | some s => pure s
    | none => failure
  reads s rest := by
    have hstring : String.fromUTF8? ⟨s.toByteArray.data.toList.toArray⟩ = some s := by
      rw [Array.toArray_toList]
      exact dif_pos s.isValidUTF8
    refine (bytes.reads s.toByteArray.data.toList rest).bind ?_
    rw [hstring]
    exact Reads.pure s rest

/-! ## Fields -/

/-- The types of texts. -/
inductive WireType where
  | varint
  | lengthDelimited

def WireType.toNat : WireType → Nat
  | .varint => 0
  | .lengthDelimited => 2

def tag (field : Nat) (wire : WireType) : List UInt8 := varint (8 * field + wire.toNat)

/-- A field that is there. -/
def required {α : Type} (field : Nat) (wire : WireType) (coder : Coder α) : Coder α where
  write v := tag field wire ++ coder.write v
  read := do
    let _ ← literal (tag field wire)
    coder.read
  reads v rest := by
    rw [List.append_assoc]
    exact (Reads.literal (tag field wire) _).bind (coder.reads v rest)

def writeOptional {α : Type} (field : Nat) (wire : WireType) (coder : Coder α) :
    Option α → List UInt8
  | some v => (required field wire coder).write v
  | none => []

def readOptional {α : Type} (field : Nat) (wire : WireType) (coder : Coder α) :
    Parser UInt8 (Option α) :=
  (do let v ← (required field wire coder).read; pure (some v)) <|> pure none

/-- A field that may be missing is read, in front of anything but its tag. -/
theorem reads_optional {α : Type} (field : Nat) (wire : WireType) (coder : Coder α) (v : Option α)
    {rest : List UInt8} (hrest : ¬ tag field wire <+: rest) :
    Reads (readOptional field wire coder) (writeOptional field wire coder v ++ rest) v rest := by
  cases v with
  | some v =>
    exact Reads.orElse_left (((required field wire coder).reads v rest).bind (Reads.pure _ _))
  | none =>
    have hfails : Fails (required field wire coder).read rest := (Fails.literal hrest).bind
    exact Reads.orElse_right hfails.bind (Reads.pure none rest)

end Protobuf
