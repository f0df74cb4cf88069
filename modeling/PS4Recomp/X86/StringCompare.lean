import PS4Recomp.Library.BitCount

/-!
# String comparisons

The x86 meaning of `PCMPISTRI` and `PCMPESTRI`.  Operand 1 holds the set, the ranges or the string
that is searched for, operand 2 the string that is searched.

* `pcmpWord`, `pcmpSigned`, `pcmpAggregation`, `pcmpPolarity`, `pcmpMost` — the fields of the
  immediate;
* `element`, `elementValue` — the elements of an operand;
* `boolRes` — the comparison of an element of operand 1 with one of operand 2, with the results forced
  where one of them is not part of its string;
* `intRes1`, `intRes2` — the aggregated result for an element of operand 2, and with its polarity;
* `pcmpResult` — the index and the flags;
* `implicitLength`, `explicitLength`, `pcmpistri`, `pcmpestri` — the lengths, and the instructions.
-/

namespace PS4Recomp.X86

/-- The elements are words. -/
def pcmpWord (imm8 : BitVec 8) : Bool := imm8.getLsbD 0

/-- They are signed. -/
def pcmpSigned (imm8 : BitVec 8) : Bool := imm8.getLsbD 1

/-- 0: equal any, 1: ranges, 2: equal each, 3: equal ordered. -/
def pcmpAggregation (imm8 : BitVec 8) : ℕ := (imm8.extractLsb' 2 2).toNat

/-- 0 and 2: positive, 1: negative, 3: negative for the elements of the string. -/
def pcmpPolarity (imm8 : BitVec 8) : ℕ := (imm8.extractLsb' 4 2).toNat

/-- The most significant index is wanted. -/
def pcmpMost (imm8 : BitVec 8) : Bool := imm8.getLsbD 6

/-- The number of elements of an operand. -/
def pcmpElements (imm8 : BitVec 8) : ℕ := if pcmpWord imm8 then 8 else 16

/-- An element; a byte is zero-extended. -/
def element (imm8 : BitVec 8) (op : BitVec 128) (i : ℕ) : BitVec 16 :=
  if pcmpWord imm8 then op.extractLsb' (16 * i) 16 else (op.extractLsb' (8 * i) 8).zeroExtend 16

/-- The number an element stands for. -/
def elementValue (imm8 : BitVec 8) (op : BitVec 128) (i : ℕ) : ℤ :=
  if pcmpSigned imm8 then
    if pcmpWord imm8 then (op.extractLsb' (16 * i) 16).toInt else (op.extractLsb' (8 * i) 8).toInt
  else (element imm8 op i).toNat

section

variable (imm8 : BitVec 8) (op1 op2 : BitVec 128) (len1 len2 : ℕ)

/-- `BoolRes`: element `i` of operand 1 against element `j` of operand 2. -/
def boolRes (i j : ℕ) : Bool :=
  let valid1 := decide (i < len1)
  let valid2 := decide (j < len2)
  let equal := element imm8 op1 i == element imm8 op2 j
  match pcmpAggregation imm8 with
  | 0 => valid1 && valid2 && equal
  | 1 => valid1 && valid2 &&
      if i % 2 = 0 then decide (elementValue imm8 op1 i ≤ elementValue imm8 op2 j)
      else decide (elementValue imm8 op2 j ≤ elementValue imm8 op1 i)
  | 2 => if valid1 && valid2 then equal else !valid1 && !valid2
  | _ => !valid1 || valid2 && equal

/-- `IntRes1` for element `j` of operand 2. -/
def intRes1 (j : ℕ) : Bool :=
  let res := boolRes imm8 op1 op2 len1 len2
  match pcmpAggregation imm8 with
  | 0 => (List.range (pcmpElements imm8)).any fun i => res i j
  | 1 => (List.range (pcmpElements imm8 / 2)).any fun k => res (2 * k) j && res (2 * k + 1) j
  | 2 => res j j
  | _ => (List.range (pcmpElements imm8 - j)).all fun i => res i (j + i)

/-- `IntRes2` for element `j` of operand 2. -/
def intRes2 (j : ℕ) : Bool :=
  let res := intRes1 imm8 op1 op2 len1 len2 j
  match pcmpPolarity imm8 with
  | 1 => !res
  | 3 => if j < len2 then !res else res
  | _ => res

/-- What a comparison leaves: the index and the flags. -/
structure PcmpResult where
  index : ℕ
  cf : Bool
  zf : Bool
  sf : Bool
  of : Bool
  deriving DecidableEq, Repr

/-- The index and the flags. -/
def pcmpResult : PcmpResult :=
  let elements := List.range (pcmpElements imm8)
  let res := intRes2 imm8 op1 op2 len1 len2
  { index := ((if pcmpMost imm8 then elements.reverse else elements).find? res).getD (pcmpElements imm8)
    cf := elements.any res
    zf := decide (len2 < pcmpElements imm8)
    sf := decide (len1 < pcmpElements imm8)
    of := res 0 }

/-- The elements before the first that is 0. -/
def implicitLength (op : BitVec 128) : ℕ :=
  ((List.range (pcmpElements imm8)).takeWhile fun i => element imm8 op i != 0).length

/-- The absolute value of a length, saturated. -/
def explicitLength (len : BitVec 32) : ℕ := min (pcmpElements imm8) len.toInt.natAbs

/-- `PCMPISTRI`. -/
def pcmpistri : PcmpResult :=
  pcmpResult imm8 op1 op2 (implicitLength imm8 op1) (implicitLength imm8 op2)

/-- `PCMPESTRI`: the lengths are in `EAX` and `EDX`. -/
def pcmpestri (eax edx : BitVec 32) : PcmpResult :=
  pcmpResult imm8 op1 op2 (explicitLength imm8 eax) (explicitLength imm8 edx)

end

end PS4Recomp.X86
