import LiveMarkup.Text.Visible
/-!
# Quoted strings

A string in double quotes, as descriptions show it. Quotes, backslashes and line ends are escaped,
and what cannot be seen by itself is written by its number.
-/

namespace LiveMarkup.Text

/-- A character written by its number in base sixteen. -/
def numberedChar (c : Char) : List Char :=
  ['\\', 'u', '\x7b'] ++ Nat.toDigits 16 c.toNat ++ ['\x7d']

/-- One character between quotes. -/
def quoteChar (c : Char) : List Char :=
  if c = '"' then ['\\', '"']
  else if c = '\\' then ['\\', '\\']
  else if c = '\t' then ['\\', 't']
  else if c = '\n' then ['\\', 'n']
  else if c = '\r' then ['\\', 'r']
  else if c.toNat = 0 then ['\\', '0']
  else if isVisible c then [c]
  else numberedChar c

/-- A string between quotes. -/
def quoted (s : String) : String :=
  String.ofList (['"'] ++ s.toList.flatMap quoteChar ++ ['"'])

end LiveMarkup.Text
