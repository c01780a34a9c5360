import Ensemble.Text.GraphemeExtend
import Ensemble.Text.Unprintable
import Ensemble.Text.Numeral

/-!
# Quoted text

Text in double quotes for messages, with everything that would not be seen spelled out.
-/

namespace Ensemble.Text

/-- What stands for a character inside quotes: a two-character escape for the quote, the backslash
and the common controls, the code point for what has no place of its own, else the character. -/
def quoteChar (c : Char) : List Char :=
  if c = '"' then ['\\', '"']
  else if c = '\\' then ['\\', '\\']
  else if c = '\t' then ['\\', 't']
  else if c = '\n' then ['\\', 'n']
  else if c = '\r' then ['\\', 'r']
  else if c.toNat = 0 then ['\\', '0']
  else if ' ' ≤ c ∧ c ≤ '~' then [c]
  else if extendsGrapheme c || isUnprintable c then
    ['\\', 'u', '\x7b'] ++ (hex c.toNat).toList ++ ['\x7d']
  else [c]

/-- The text in double quotes. -/
def quote (text : String) : String :=
  String.ofList ('"' :: text.toList.flatMap quoteChar ++ ['"'])

end Ensemble.Text
