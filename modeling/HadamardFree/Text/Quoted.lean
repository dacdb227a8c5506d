import HadamardFree.Text.Combining
import HadamardFree.Text.Unassigned
import HadamardFree.Text.Unprintable

/-!
# Quoted text

How a character or a string is shown inside a message: between quotes, with
everything that would not be visible on the page written as an escape.
-/

namespace HadamardFree.Text

/-- Lowercase hexadecimal without leading zeros. -/
def hex (n : Nat) : String :=
  String.ofList (Nat.toDigits 16 n)

/-- Characters that would not be seen, or not as characters of their own. -/
def isHidden (c : Char) : Bool :=
  isUnprintable c || isCombining c || isUnassigned c

/-- One character between quotes `quote`; only that quote is escaped, so the
other kind may stand as it is. -/
def escape (quote c : Char) : String :=
  if c = '\x00' then "\\0"
  else if c = '\t' then "\\t"
  else if c = '\r' then "\\r"
  else if c = '\n' then "\\n"
  else if c = '\\' then "\\\\"
  else if c = quote then String.ofList ['\\', c]
  else if isHidden c then "\\u\x7b" ++ hex c.toNat ++ "\x7d"
  else c.toString

def quoteChar (c : Char) : String :=
  "'" ++ escape '\'' c ++ "'"

def quoteString (s : String) : String :=
  "\"" ++ String.join (s.toList.map (escape '"')) ++ "\""

end HadamardFree.Text
