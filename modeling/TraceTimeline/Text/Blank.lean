/-!
# White space

Traces are written by people and tools of many locales, so a blank is any character with Unicode's
`White_Space` property. Two operations depend on it: `trim`, which drops blanks at both ends, and
`words`, which cuts a text into its maximal runs of characters that are no blanks.
-/

namespace TraceTimeline.Text

/-- Characters with Unicode's `White_Space` property. -/
def isBlank (c : Char) : Bool :=
  let n := c.toNat
  (0x09 ≤ n && n ≤ 0x0D) || n == 0x20 || n == 0x85 || n == 0xA0 || n == 0x1680 ||
    (0x2000 ≤ n && n ≤ 0x200A) || n == 0x2028 || n == 0x2029 || n == 0x202F || n == 0x205F ||
    n == 0x3000

def trim (s : List Char) : List Char :=
  ((s.dropWhile isBlank).reverse.dropWhile isBlank).reverse

/-- The maximal runs of characters that are no blanks, from left to right. -/
def words (s : List Char) : List (List Char) :=
  (s.splitOnP isBlank).filter (fun w => !w.isEmpty)

/-- A line of blanks alone, the empty one included. -/
def isBlankLine (s : List Char) : Bool :=
  s.all isBlank

@[simp] theorem words_nil : words [] = [] := rfl

/-- Where two texts are joined by a blank, so are their words. -/
theorem words_append_cons {b : Char} (hb : isBlank b = true) (s t : List Char) :
    words (s ++ b :: t) = words s ++ words t := by
  simp [words, List.splitOnP_append_cons _ _ hb]

end TraceTimeline.Text
