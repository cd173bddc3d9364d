import TraceTimeline.Number.Positional

/-!
# JSON tokens and their layout

A JSON document is written as a row of tokens. How the tokens are spelled is fixed; the white space
between them is a matter of style: either none at all, or one item per line, indented by four columns
for every bracket that is open, with empty brackets kept together.
-/

namespace TraceTimeline.Json

inductive Token where
  | openObject
  | closeObject
  | openArray
  | closeArray
  | comma
  | colon
  | null
  | text (s : String)
  | natural (n : Nat)
  | float (x : Float)
  deriving Repr

def hexDigit (n : Nat) : Char :=
  (Nat.digitChar n)

/-- A character inside quotation marks. Quotation marks, backslashes and control characters are
escaped, all else stands for itself. -/
def escape (c : Char) : List Char :=
  if c = '"' then ['\\', '"']
  else if c = '\\' then ['\\', '\\']
  else if c = '\x08' then ['\\', 'b']
  else if c = '\t' then ['\\', 't']
  else if c = '\n' then ['\\', 'n']
  else if c = '\x0C' then ['\\', 'f']
  else if c = '\r' then ['\\', 'r']
  else if c < ' ' then ['\\', 'u', '0', '0', hexDigit (c.toNat / 16), hexDigit (c.toNat % 16)]
  else [c]

def quoted (s : String) : List Char :=
  '"' :: (s.toList.flatMap escape ++ ['"'])

/-- The magnitudes of the numbers that are written in full: from `0.00001` to sixteen digits in front
of the point. -/
def writtenInFull (magnitude : Int) : Bool :=
  -5 < magnitude && magnitude ≤ 16

/-- A float: the fewest digits that read back, a tie to the even last digit. It always shows that it
is no integer, by a point or by a power of ten. Infinities and "not a number" are `null`. -/
def floatText (x : Float) : List Char :=
  match Number.Binary.ofFloat x with
  | .notANumber => "null".toList
  | .infinite _ => "null".toList
  | .finite negative significand exponent =>
    Number.signed negative <|
      if significand = 0 then "0.0".toList
      else
        let decimal := Number.Decimal.shortest .toEven significand exponent
        if writtenInFull decimal.magnitude then decimal.positional ".0".toList
        else decimal.scientific

namespace Token

def spelling : Token → List Char
  | openObject => ['{']
  | closeObject => ['}']
  | openArray => ['[']
  | closeArray => [']']
  | comma => [',']
  | colon => [':']
  | null => "null".toList
  | text s => quoted s
  | natural n => Number.naturalText n
  | float x => floatText x

def isOpening : Token → Bool
  | openObject | openArray => true
  | _ => false

def isClosing : Token → Bool
  | closeObject | closeArray => true
  | _ => false

end Token

inductive Style where
  | pretty
  | compact
  deriving DecidableEq, Repr

def indentWidth : Nat := 4

/-- A new line, indented for the brackets that are open. -/
def newLine (depth : Nat) : List Char :=
  '\n' :: List.replicate (indentWidth * depth) ' '

/-- The white space between two tokens, of which `depth` brackets are open after the first. -/
def gap (style : Style) (depth : Nat) (left right : Token) : List Char :=
  match style with
  | .compact => []
  | .pretty =>
    if right.isClosing then
      if left.isOpening then [] else newLine (depth - 1)
    else if left.isOpening then newLine depth
    else
      match left with
      | .comma => newLine depth
      | .colon => [' ']
      | _ => []

/-- What has been written so far, the number of open brackets, and the last token. -/
structure Page where
  text : String := ""
  depth : Nat := 0
  last : Option Token := none

namespace Page

def put (style : Style) (page : Page) (token : Token) : Page :=
  let space := match page.last with
    | some left => gap style page.depth left token
    | none => []
  { text := page.text ++ String.ofList (space ++ token.spelling)
    depth :=
      if token.isOpening then page.depth + 1
      else if token.isClosing then page.depth - 1
      else page.depth
    last := some token }

end Page

def render (style : Style) (tokens : List Token) : String :=
  (tokens.foldl (Page.put style) {}).text

end TraceTimeline.Json
