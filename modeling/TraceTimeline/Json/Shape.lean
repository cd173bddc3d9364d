import TraceTimeline.Json.Value

/-!
# Reading JSON objects

An object is read member by member into a draft, which is turned into the value when the object is
closed. Members may come in any order; unknown ones are skipped, a repeated one is a fault, and so is
a required one that is missing. In place of the object there may be an array of the values of its
fields, in the order in which they are declared.
-/

namespace TraceTimeline.Json

open Reader

/-- A field of an object, and how it is kept in a draft `σ`. -/
structure Field (σ : Type) where
  name : String
  isSet : σ → Bool
  read : σ → Reader σ
  required : Bool

def Field.of {σ β : Type} (name : String) (get : σ → Option β) (set : σ → β → σ) (value : Reader β)
    (required : Bool) : Field σ where
  name
  isSet draft := (get draft).isSome
  read draft := do
    let b ← value
    return set draft b
  required

/-- How the fields of an object make up an `α`. -/
structure Shape (σ α : Type) where
  fields : List (Field σ)
  start : σ
  finish : σ → Option α

namespace Shape

variable {σ α : Type}

def field? (shape : Shape σ α) (name : String) : Option (Field σ) :=
  shape.fields.find? (·.name == name)

/-- A member of the object. That a field is repeated is seen at its name. -/
def member (shape : Shape σ α) (draft : σ) : Reader σ := do
  let b ← ahead
  if b = ascii '"' then
    drop
    let name ← textAfterQuote
    match shape.field? name with
    | some field =>
      if field.isSet draft then fail .unfit
      else
        mark ':'
        field.read draft
    | none =>
      -- A member that is no field can have any value, but it has to have one.
      mark ':'
      skipValue
      return draft
  else fail .malformed

/-- The values of the fields that are still to come, without their names, and the closing bracket.
`isFirst` tells that no value stands in front of them. -/
def valuesFrom (isFirst : Bool) : List (Field σ) → σ → Reader σ
  | [], draft => do
    mark ']'
    return draft
  | field :: fields, draft => do
    let b ← ahead
    if b = ascii ']' then
      if (field :: fields).any (·.required) then fail .unfit
      else
        drop
        return draft
    else if isFirst then
      let draft ← field.read draft
      valuesFrom false fields draft
    else if b = ascii ',' then
      drop
      let draft ← field.read draft
      valuesFrom false fields draft
    else fail .malformed

def close (shape : Shape σ α) (draft : σ) : Reader α :=
  match shape.finish draft with
  | some a => return a
  | none => fail .unfit

/-- An object, or an array in its place. -/
def read (shape : Shape σ α) : Reader α := do
  let b ← ahead
  if b = ascii '{' then
    drop
    let draft ← items '}' shape.member shape.start
    shape.close draft
  else if b = ascii '[' then
    drop
    let draft ← valuesFrom true shape.fields shape.start
    shape.close draft
  else otherKind

end Shape
end TraceTimeline.Json
