import IngestionQueue.Number.Word

/-!
# Retrying

The delay before another attempt doubles with each attempt, from the base delay up to the greatest delay. The
power and the product are kept in the range of 64-bit integers. An attempt that was the last one allowed is
not repeated.
-/

namespace IngestionQueue

structure RetryPolicy where
  baseDelay : Int
  maxDelay : Int
  deriving DecidableEq, Repr

/-- What follows a failed attempt. -/
inductive RetryDecision
  | retry (delay : Int)
  | deadLetter
  deriving DecidableEq, Repr

namespace RetryPolicy

def default : RetryPolicy := ⟨15000, 1800000⟩

/-- Delays given in seconds, as unsigned 64-bit numbers whose bits are read as signed ones. -/
def ofSeconds (base max : Nat) : RetryPolicy :=
  ⟨Word.mulSaturating (Word.wrap base) 1000, Word.mulSaturating (Word.wrap max) 1000⟩

/-- `2 ^ e`, or the greatest integer where that is out of range. -/
def factor (e : Nat) : Int :=
  if e < 63 then Int.pow 2 e else Word.greatest

/-- The delay after the given attempt; the first attempt is number one. -/
def delay (p : RetryPolicy) (attempt : Int) : Int :=
  min (Word.mulSaturating p.baseDelay (factor (max attempt 1 - 1).toNat)) p.maxDelay

def decide (p : RetryPolicy) (attempt maxAttempts : Int) : RetryDecision :=
  if maxAttempts ≤ attempt then .deadLetter else .retry (p.delay attempt)

end RetryPolicy

/-- The number of characters that is kept of an error. -/
def maxErrorLength : Nat := 2000

def truncateError (message : String) : String :=
  String.ofList (message.toList.take maxErrorLength)

end IngestionQueue
