import TickHost.Text.Visible

/-!
Text in double quotes, for messages that show a name exactly. The quote and the backslash are
escaped, the common control characters have their letters, and a character that cannot be shown on
its own is written by its number.
-/

namespace TickHost.Text

/-- `\u` and the code point in braces. -/
def codeEscape (c : Char) : String :=
  "\\u\x7b" ++ String.ofList (Nat.toDigits 16 c.toNat) ++ "\x7d"

def quotedChar (c : Char) : String :=
  if c = '\x00' then "\\0"
  else if c = '\t' then "\\t"
  else if c = '\r' then "\\r"
  else if c = '\n' then "\\n"
  else if c = '"' then "\\\""
  else if c = '\\' then "\\\\"
  else if isAttached c || isInvisible c then codeEscape c
  else c.toString

def quoted (text : String) : String :=
  "\"" ++ String.join (text.toList.map quotedChar) ++ "\""

end TickHost.Text
