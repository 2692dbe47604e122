/-
JavaMinus/Text/Quoted.lean

Texts in quotation marks, as messages show names whose ends should be seen.

A quotation mark and a backslash are written behind a backslash, line feeds
and their like by a letter behind one, and every other character that cannot
be seen by its number.
-/
import JavaMinus.Text.Visible

namespace JavaMinus.Text

/-- The digits of a number to the base sixteen, in small letters. -/
def hexadecimal (n : Nat) : List Char := Nat.toDigits 16 n

/-- How a character is written between quotation marks. -/
def quotedChar (c : Char) : List Char :=
  if c = '"' then ['\\', '"']
  else if c = '\\' then ['\\', '\\']
  else if c = '\n' then ['\\', 'n']
  else if c = '\r' then ['\\', 'r']
  else if c = '\t' then ['\\', 't']
  else if c = '\x00' then ['\\', '0']
  else if isVisible c then [c]
  else ['\\', 'u', '\x7b'] ++ hexadecimal c.toNat ++ ['\x7d']

/-- A text between quotation marks. -/
def quoted (s : String) : String :=
  String.ofList (['"'] ++ s.toList.flatMap quotedChar ++ ['"'])

end JavaMinus.Text
