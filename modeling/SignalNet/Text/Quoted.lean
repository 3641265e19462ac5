import SignalNet.Text.Invisible

/-!
# Texts in double quotes

Summaries show texts in double quotes.  Quotes and backslashes inside, and the
tabulator and the ends of lines, stand behind a backslash, and an invisible
character is shown by its number, so that texts which look alike can be told
apart.
-/

namespace SignalNet.Text

/-- The number of a character in hexadecimal digits, in braces. -/
def byNumber (c : Char) : List Char :=
  '\\' :: 'u' :: '\x7b' :: (Nat.toDigits 16 c.toNat ++ ['\x7d'])

/-- A character inside a quoted text. -/
def showChar (c : Char) : List Char :=
  if c.toNat = 0 then ['\\', '0']
  else if c = '\t' then ['\\', 't']
  else if c = '\r' then ['\\', 'r']
  else if c = '\n' then ['\\', 'n']
  else if c = '"' then ['\\', '"']
  else if c = '\\' then ['\\', '\\']
  else if isInvisible c then byNumber c
  else [c]

/-- A text in double quotes. -/
def quoted (s : String) : String :=
  "\"" ++ String.ofList (s.toList.flatMap showChar) ++ "\""

end SignalNet.Text
