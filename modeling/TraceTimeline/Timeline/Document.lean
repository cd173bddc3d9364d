import TraceTimeline.Json.Shape
import TraceTimeline.Json.Token
import TraceTimeline.Timeline.Event

/-!
# Timelines as JSON documents

A timeline is written as an object with the list of its events, in the trace-event format. An event
has seven members; of its arguments only those that are known are written. `Timeline.toJson` writes
the document and `Timeline.ofJson` reads it.
-/

namespace TraceTimeline

open Json

def Phase.letter : Phase → String
  | opens => "B"
  | closes => "E"

def Phase.ofLetter? (letter : String) : Option Phase :=
  if letter = Phase.opens.letter then some .opens
  else if letter = Phase.closes.letter then some .closes
  else none

namespace Json

def memberTokens (name : String) (value : List Token) : List Token :=
  .text name :: .colon :: value

def separated (items : List (List Token)) : List Token :=
  (items.intersperse [.comma]).flatten

def objectTokens (members : List (List Token)) : List Token :=
  .openObject :: (separated members ++ [.closeObject])

def arrayTokens (items : List (List Token)) : List Token :=
  .openArray :: (separated items ++ [.closeArray])

/-- The members whose values are known, in their order. -/
def present (members : List (String × Option Token)) : List (List Token) :=
  members.filterMap fun (name, value) => value.map fun token => memberTokens name [token]

end Json

def Args.members (args : Args) : List (String × Option Token) :=
  [("operation", args.operation.map .text),
    ("segment", args.segment.map fun n => .natural n.toNat),
    ("offset", args.offset.map fun n => .natural n.toNat),
    ("length", args.length.map fun n => .natural n.toNat)]

def Args.tokens (args : Args) : List Token :=
  objectTokens (present args.members)

def Event.members (event : Event) : List (List Token) :=
  [memberTokens "name" [.text event.name],
    memberTokens "cat" [.text event.category],
    memberTokens "ts" [.float event.timestamp],
    memberTokens "pid" [.natural event.rank.toNat],
    memberTokens "tid" [.natural event.track.toNat],
    memberTokens "ph" [.text event.phase.letter],
    memberTokens "args" event.args.tokens]

def Event.tokens (event : Event) : List Token :=
  objectTokens event.members

def eventsName : String := "traceEvents"

namespace Timeline

def tokens (timeline : Timeline) : List Token :=
  objectTokens [memberTokens eventsName (arrayTokens (timeline.events.map Event.tokens))]

def toJson (style : Style) (timeline : Timeline) : String :=
  render style timeline.tokens

end Timeline

/-- A phase: its letter, or an object with the letter as its only name and `null` as its value. -/
def Phase.reader : Reader Phase := do
  let letter : Reader Phase := do
    let s ← Reader.text
    match ofLetter? s with
    | some phase => return phase
    | none => Reader.fail .unfit
  let b ← Reader.ahead
  if b = ascii '"' then letter
  else if b = ascii '{' then
    Reader.drop
    let phase ← letter
    Reader.mark ':'
    Reader.null
    Reader.mark '}'
    return phase
  else Reader.fail .malformed

/-- The arguments read so far. A field that was `null` has been read too. -/
structure Args.Draft where
  operation : Option (Option String) := none
  segment : Option (Option UInt64) := none
  offset : Option (Option UInt64) := none
  length : Option (Option UInt64) := none

/-- Arguments as an object. None of them is required. -/
def Args.shape : Shape Args.Draft Args where
  fields :=
    [.of "operation" (·.operation) (fun draft s => { draft with operation := some s })
        (.optional .text) false,
      .of "segment" (·.segment) (fun draft n => { draft with segment := some n })
        (.optional .uint64) false,
      .of "offset" (·.offset) (fun draft n => { draft with offset := some n })
        (.optional .uint64) false,
      .of "length" (·.length) (fun draft n => { draft with length := some n })
        (.optional .uint64) false]
  start := {}
  finish draft := some
    { operation := draft.operation.join
      segment := draft.segment.join
      offset := draft.offset.join
      length := draft.length.join }

structure Event.Draft where
  name : Option String := none
  category : Option String := none
  timestamp : Option Float := none
  rank : Option UInt32 := none
  track : Option UInt32 := none
  phase : Option Phase := none
  args : Option Args := none

/-- An event as an object. All of its members are required. -/
def Event.shape : Shape Event.Draft Event where
  fields :=
    [.of "name" (·.name) (fun draft s => { draft with name := some s }) .text true,
      .of "cat" (·.category) (fun draft s => { draft with category := some s }) .text true,
      .of "ts" (·.timestamp) (fun draft x => { draft with timestamp := some x }) .float true,
      .of "pid" (·.rank) (fun draft n => { draft with rank := some n }) .uint32 true,
      .of "tid" (·.track) (fun draft n => { draft with track := some n }) .uint32 true,
      .of "ph" (·.phase) (fun draft p => { draft with phase := some p }) Phase.reader true,
      .of "args" (·.args) (fun draft a => { draft with args := some a }) Args.shape.read true]
  start := {}
  finish draft := do
    return {
      name := ← draft.name
      category := ← draft.category
      timestamp := ← draft.timestamp
      rank := ← draft.rank
      track := ← draft.track
      phase := ← draft.phase
      args := ← draft.args }

namespace Timeline

/-- A timeline as an object with one field. -/
def shape : Shape (Option (List Event)) Timeline where
  fields := [.of eventsName id (fun _ events => some events) (.list Event.shape.read) true]
  start := none
  finish draft := draft.map Timeline.mk

def ofJson (bytes : Bytes) : Except Fault Timeline :=
  Reader.readAll shape.read bytes

end Timeline
end TraceTimeline
