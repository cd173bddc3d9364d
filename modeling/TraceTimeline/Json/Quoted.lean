import TraceTimeline.Json.Reader

/-!
# Reading JSON texts

A text stands in quotation marks. What stands between them has to be UTF-8 without control
characters, and after a backslash comes one of the known escapes; an escape with four hexadecimal
digits gives a unit of UTF-16, and a pair of surrogates gives one character. A text that is only
skipped is held to less: its bytes and its surrogates are not looked at.
-/

namespace TraceTimeline.Json

open Reader

def hexValue? (b : UInt8) : Option Nat :=
  if isDigit b then some (b.toNat - 0x30)
  else if 0x61 ≤ b && b ≤ 0x66 then some (b.toNat - 0x61 + 10)
  else if 0x41 ≤ b && b ≤ 0x46 then some (b.toNat - 0x41 + 10)
  else none

/-- Four hexadecimal digits. All four bytes are taken before any is judged. -/
def hexUnit : Reader Nat := do
  let a ← next
  let b ← next
  let c ← next
  let d ← next
  match [a, b, c, d].mapM hexValue? with
  | some found => return found.foldl (fun value digit => value * 16 + digit) 0
  | none => fail .malformed

/-- Units of UTF-16 that come first in a pair. -/
def isHighSurrogate (unit : Nat) : Bool :=
  0xD800 ≤ unit && unit ≤ 0xDBFF

def isLowSurrogate (unit : Nat) : Bool :=
  0xDC00 ≤ unit && unit ≤ 0xDFFF

def codePoint (n : Nat) : Bytes :=
  String.utf8EncodeChar (Char.ofNat n)

/-- The second half of a pair of surrogates, which needs an escape of its own. -/
def lowSurrogate : Reader Nat := do
  literal [ascii '\\']
  literal [ascii 'u']
  let unit ← hexUnit
  if isLowSurrogate unit then return unit else fail .malformed

def unicodeEscape : Reader Bytes := do
  let unit ← hexUnit
  if isLowSurrogate unit then fail .malformed
  else if isHighSurrogate unit then
    let low ← lowSurrogate
    return codePoint ((unit - 0xD800) * 0x400 + (low - 0xDC00) + 0x10000)
  else return codePoint unit

def shortEscape? (b : UInt8) : Option UInt8 :=
  if b = ascii '"' ∨ b = ascii '\\' ∨ b = ascii '/' then some b
  else if b = ascii 'b' then some 0x08
  else if b = ascii 'f' then some 0x0C
  else if b = ascii 'n' then some 0x0A
  else if b = ascii 'r' then some 0x0D
  else if b = ascii 't' then some 0x09
  else none

/-- What an escape stands for, from behind the backslash. Hexadecimal escapes are left to
`unicode`. -/
def escapedBy (unicode : Reader Bytes) : Reader Bytes := do
  let b ← next
  if b = ascii 'u' then unicode
  else
    match shortEscape? b with
    | some c => return [c]
    | none => fail .malformed

/-- The bytes up to the closing quotation mark, behind those `taken` already, of which the latest
comes first. -/
def quotedFrom (unicode : Reader Bytes) (taken : Bytes) (s : Bytes) : Except Fault (Bytes × Bytes) :=
  match s with
  | [] => .error .truncated
  | b :: r =>
    if b = ascii '"' then .ok (taken.reverse, r)
    else if b = ascii '\\' then
      match _h : (escapedBy unicode).run r with
      | .error fault => .error fault
      | .ok (bytes, r') => quotedFrom unicode (bytes.reverseAux taken) r'
    else if b < 0x20 then .error .malformed
    else quotedFrom unicode (b :: taken) r
termination_by s.length
decreasing_by
  · have := (escapedBy unicode).rest_le _h
    simp only [List.length_cons]
    omega
  · simp

theorem quotedFrom_rest_le (unicode : Reader Bytes) {taken bytes s r : Bytes}
    (h : quotedFrom unicode taken s = .ok (bytes, r)) : r.length ≤ s.length := by
  fun_induction quotedFrom unicode taken s with
  | case1 => cases h
  | case2 => cases h; simp
  | case3 => cases h
  | case4 taken t bytes u hu _ ih =>
    have h1 := ih h
    have h2 := (escapedBy unicode).rest_le hu
    simp only [List.length_cons]
    omega
  | case5 => cases h
  | case6 taken b t _ _ _ ih =>
    have := ih h
    simp only [List.length_cons]
    omega

/-- What stands between two quotation marks, from behind the first. -/
def quotedBy (unicode : Reader Bytes) : Reader Bytes where
  run := quotedFrom unicode []
  rest_le := quotedFrom_rest_le unicode

def textAfterQuote : Reader String := do
  let bytes ← quotedBy unicodeEscape
  match bytes.toText? with
  | some s => return s
  | none => fail .malformed

/-- Skips a text, from behind the first quotation mark. -/
def skipAfterQuote : Reader Unit := do
  let _ ← quotedBy (do let _ ← hexUnit; return [])

end TraceTimeline.Json
