/-!
# Quoted text

How names and sequences are written inside messages: a name stands between quotation marks with its
control characters escaped, a list between square brackets, a tuple between parentheses.

* `quoted` uses single marks, and double ones only for a text that holds a single mark and no double
  one, so the mark around a text is escaped inside it only where both kinds occur.
* `tuple` keeps the trailing comma of a one-element tuple, which tells it from a parenthesised text.
-/

namespace MessagePassing.Text

/-- The mark put around a text. -/
def mark (s : List Char) : Char :=
  if '\x27' ∈ s ∧ '\x22' ∉ s then '\x22' else '\x27'

/-- The written form of one character between two marks `m`: the mark and the backslash take a
backslash, line breaks and tabs their letter, other controls two hexadecimal digits. -/
def escape (m c : Char) : List Char :=
  if c = m ∨ c = '\\' then ['\\', c]
  else if c = '\n' then ['\\', 'n']
  else if c = '\t' then ['\\', 't']
  else if c = '\r' then ['\\', 'r']
  else if c.toNat < 32 ∨ c.toNat = 127 then
    ['\\', 'x', Nat.digitChar (c.toNat / 16), Nat.digitChar (c.toNat % 16)]
  else [c]

/-- A text between quotation marks. -/
def quoted (s : String) : String :=
  let m := mark s.toList
  String.ofList (m :: s.toList.flatMap (escape m) ++ [m])

/-- Items between square brackets. -/
def list (items : List String) : String :=
  "[" ++ ", ".intercalate items ++ "]"

/-- Items between parentheses. -/
def tuple : List String → String
  | [] => "()"
  | [a] => "(" ++ a ++ ",)"
  | items => "(" ++ ", ".intercalate items ++ ")"

/-- A value that may be missing, written `None` when it is. -/
def optional (o : Option String) : String :=
  o.getD "None"

end MessagePassing.Text
