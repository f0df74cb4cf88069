import PS4Recomp.Library.BinaryFloat

/-!
# Arithmetic of binary floating point

The operations on patterns of a format, with a direction of rounding and flush-to-zero.

* `neg`, `abs`, `nans` — the sign, and the NaN that is passed on;
* `result` — an exact value with a sign as a pattern; a value below the normal ones is flushed;
* `add`, `sub`, `mul` — the operations, `compare` — the order of two patterns.
-/

namespace PS4Recomp.Library.Format

variable (F : Format) (r : RoundMode) (fz : Bool)

/-- An infinity. -/
def IsInf (x : ℕ) : Prop := F.mag x = F.infMag

instance (x : ℕ) : Decidable (F.IsInf x) := inferInstanceAs (Decidable (_ = _))

/-- The sign changed. -/
def neg (x : ℕ) : ℕ := F.ofMag (!F.sign x) (F.mag x)

/-- The sign cleared. -/
def abs (x : ℕ) : ℕ := F.mag x

/-- A signaling NaN. -/
def IsSnan (x : ℕ) : Prop := F.IsNan x ∧ x.testBit (F.fw - 1) = false

instance (x : ℕ) : Decidable (F.IsSnan x) := inferInstanceAs (Decidable (_ ∧ _))

/-- The NaN of an operation one of whose operands is one: the first signaling one, or the first one. -/
def nans (x y : ℕ) : ℕ :=
  if F.IsSnan x then F.quiet x else if F.IsSnan y then F.quiet y else if F.IsNan x then x else y

/-- The NaN of an invalid operation. -/
def defaultNan : ℕ := F.infMag + 2 ^ (F.fw - 1)

/-- An exact magnitude with a sign, rounded. -/
def result (s : Bool) (q : ℚ) : ℕ :=
  F.ofMag s (if fz ∧ q < 2 ^ F.emin then 0 else F.roundMag r s q)

/-- The product. -/
def mul (x y : ℕ) : ℕ :=
  if F.IsNan x ∨ F.IsNan y then F.nans x y
  else
    let x' := F.flush fz x
    let y' := F.flush fz y
    let s := F.sign x != F.sign y
    if F.IsInf x ∧ F.mag y' = 0 ∨ F.mag x' = 0 ∧ F.IsInf y then F.defaultNan
    else if F.IsInf x ∨ F.IsInf y then F.ofMag s F.infMag
    else F.result r fz s (F.magValue (F.mag x') * F.magValue (F.mag y'))

/-- The sum of two patterns that are no NaNs. -/
def addNumbers (x y : ℕ) : ℕ :=
  let x' := F.flush fz x
  let y' := F.flush fz y
  if F.IsInf x ∧ F.IsInf y ∧ F.sign x ≠ F.sign y then F.defaultNan
  else if F.IsInf x then x
  else if F.IsInf y then y
  else
    let q := F.value x' + F.value y'
    if q = 0 then
      F.ofMag (if F.mag x' = 0 ∧ F.sign x = F.sign y then F.sign x else decide (r = .down)) 0
    else F.result r fz (decide (q < 0)) |q|

/-- The sum. -/
def add (x y : ℕ) : ℕ := if F.IsNan x ∨ F.IsNan y then F.nans x y else F.addNumbers r fz x y

/-- The difference. -/
def sub (x y : ℕ) : ℕ := if F.IsNan x ∨ F.IsNan y then F.nans x y else F.addNumbers r fz x (F.neg y)

/-- The place of a pattern in the order of the values. -/
def key (x : ℕ) : ℤ := if F.sign x then -F.mag x else F.mag x

/-- The order of two patterns, none with a NaN. -/
def compare (x y : ℕ) : Option Ordering :=
  if F.IsNan x ∨ F.IsNan y then none
  else some (Ord.compare (F.key (F.flush fz x)) (F.key (F.flush fz y)))

variable {F} {r} {fz} {x y b : ℕ} {s : Bool}

end PS4Recomp.Library.Format
