import JvmClass.Text.Unprintable

/-!
# Quoted strings in messages

A string in a message stands between double quotes.  Quotes and backslashes get a backslash, the
usual control characters their letter, and every other character without a visible form of its own
its code point in hexadecimal.
-/

namespace JvmClass.Text

/-- A number in lower-case hexadecimal, without leading zeros. -/
def hex (n : Nat) : String := String.ofList (Nat.toDigits 16 n)

/-- A character inside a quoted string. -/
def quoteChar (c : Char) : List Char :=
  if c = '"' || c = '\\' then
    ['\\', c]
  else if c = '\n' then
    ['\\', 'n']
  else if c = '\r' then
    ['\\', 'r']
  else if c = '\t' then
    ['\\', 't']
  else if c = '\x00' then
    ['\\', '0']
  else if isUnprintable c then
    ['\\', 'u', '\x7b'] ++ Nat.toDigits 16 c.toNat ++ ['\x7d']
  else
    [c]

/-- A string between double quotes. -/
def quote (text : String) : String :=
  String.ofList (['"'] ++ text.toList.flatMap quoteChar ++ ['"'])

end JvmClass.Text
