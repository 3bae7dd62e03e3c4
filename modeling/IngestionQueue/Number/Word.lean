/-!
# Integers of 64 bits

Times and delays are signed 64-bit integers. `saturate` keeps an exact result in their range, `wrap` reads an
unsigned 64-bit number as a signed one. The sum and the difference of two times are exact or an overflow. Counts of
attempts are signed integers of 32 bits.
-/

namespace IngestionQueue.Word

def least : Int := -0x8000000000000000

def greatest : Int := 0x7FFFFFFFFFFFFFFF

def greatestUnsigned : Int := 0xFFFFFFFFFFFFFFFF

def least32 : Int := -0x80000000

def greatest32 : Int := 0x7FFFFFFF

/-- The integer in range that is nearest to `n`. -/
def saturate (n : Int) : Int :=
  max least (min greatest n)

/-- The signed integer with the same 64 bits. -/
def wrap (n : Nat) : Int :=
  if n < 0x8000000000000000 then n else (n : Int) - 0x10000000000000000

def mulSaturating (a b : Int) : Int :=
  saturate (a * b)

/-- A number of 64 bits. -/
def Fits64 (n : Int) : Prop := least ≤ n ∧ n ≤ greatest

instance (n : Int) : Decidable (Fits64 n) :=
  inferInstanceAs (Decidable (_ ∧ _))

/-- An operation whose exact result is not in range. -/
inductive Overflow
  | add
  | sub
  deriving DecidableEq, Repr

def Overflow.message : Overflow → String
  | add => "attempt to add with overflow"
  | sub => "attempt to subtract with overflow"

def addChecked (a b : Int) : Except Overflow Int :=
  if Fits64 (a + b) then .ok (a + b) else .error .add

def subChecked (a b : Int) : Except Overflow Int :=
  if Fits64 (a - b) then .ok (a - b) else .error .sub

section

variable {a b : Int}

theorem addChecked_eq_ok (h : Fits64 (a + b)) : addChecked a b = .ok (a + b) := if_pos h

theorem addChecked_eq_error (h : ¬Fits64 (a + b)) : addChecked a b = .error .add := if_neg h

theorem subChecked_eq_ok (h : Fits64 (a - b)) : subChecked a b = .ok (a - b) := if_pos h

theorem subChecked_eq_error (h : ¬Fits64 (a - b)) : subChecked a b = .error .sub := if_neg h

end

end IngestionQueue.Word
