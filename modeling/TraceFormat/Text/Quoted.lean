import TraceFormat.Text.Numeral
import TraceFormat.Text.Printable

/-! # Quoted text

A text between double quotes in which a quote, a backslash and every character that cannot be shown
are escaped. -/

namespace TraceFormat.Text

/-- A character as it stands inside a quoted text. -/
def escapeChar (c : Char) : String :=
  if c = '\x00' then "\\0"
  else if c = '\t' then "\\t"
  else if c = '\r' then "\\r"
  else if c = '\n' then "\\n"
  else if c = '"' then "\\\""
  else if c = '\\' then "\\\\"
  else if isPrintable c then String.singleton c
  else "\\u\x7b" ++ Numeral.natText 16 c.toNat ++ "\x7d"

/-- A text between quotes, escaped. -/
def quote (text : String) : String := "\"" ++ String.join (text.toList.map escapeChar) ++ "\""

end TraceFormat.Text
