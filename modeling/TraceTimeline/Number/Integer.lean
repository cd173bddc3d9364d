/-!
# Whole numbers in a trace

Counts, offsets and ranks are written in decimal with ASCII digits and an optional plus sign; a
number read with a sign may also carry a minus. A number outside the range of its field is no number.
-/

namespace TraceTimeline.Number

def digit? (c : Char) : Option Nat :=
  if '0' ≤ c ∧ c ≤ '9' then some (c.toNat - '0'.toNat) else none

def digits? (s : List Char) : Option Nat :=
  if s.isEmpty then none
  else s.foldlM (fun value c => (digit? c).map fun d => value * 10 + d) 0

/-- A natural number below `limit`, with an optional plus sign. -/
def natural? (limit : Nat) (s : List Char) : Option Nat :=
  let value? := match s with
    | '+' :: r => digits? r
    | r => digits? r
  value?.filter (· < limit)

/-- An integer between `least` and `greatest`, with an optional sign. -/
def integer? (least greatest : Int) (s : List Char) : Option Int :=
  let value? : Option Int := match s with
    | '+' :: r => (digits? r).map Int.ofNat
    | '-' :: r => (digits? r).map fun n => -Int.ofNat n
    | r => (digits? r).map Int.ofNat
  value?.filter fun n => least ≤ n && n ≤ greatest

def uint8? (s : String) : Option UInt8 :=
  (natural? UInt8.size s.toList).map UInt8.ofNat

def uint32? (s : String) : Option UInt32 :=
  (natural? UInt32.size s.toList).map UInt32.ofNat

def uint64? (s : String) : Option UInt64 :=
  (natural? UInt64.size s.toList).map UInt64.ofNat

def int64? (s : String) : Option Int64 :=
  (integer? Int64.minValue.toInt Int64.maxValue.toInt s.toList).map Int64.ofInt

end TraceTimeline.Number
