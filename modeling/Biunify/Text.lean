/-! Pieces of text that the printers share: separated lists, brackets, and quoted strings. -/

namespace Biunify

def sepBy (sep : String) : List String → String
  | [] => ""
  | [s] => s
  | s :: rest => s ++ sep ++ sepBy sep rest

def commaSep (items : List String) : String := sepBy ", " items

def parens (s : String) : String := "(" ++ s ++ ")"

def braces (s : String) : String := "\x7b" ++ s ++ "\x7d"

def brackets (s : String) : String := "[" ++ s ++ "]"

def parensIf (needed : Bool) (s : String) : String := if needed then parens s else s

def labelled (name value : String) : String := name ++ ": " ++ value

def renderBool (b : Bool) : String := if b then "true" else "false"

namespace Quoted

def codePoint (c : Char) : String := "\\u" ++ braces (String.ofList (Nat.toDigits 16 c.toNat))

def escape (bare : Char → Bool) (c : Char) : String :=
  if c = '"' then "\\\""
  else if c = '\\' then "\\\\"
  else if c = '\n' then "\\n"
  else if c = '\r' then "\\r"
  else if c = '\t' then "\\t"
  else if c.toNat = 0 then "\\0"
  else if bare c then c.toString
  else codePoint c

end Quoted

/-- The string between double quotes. Quotes and backslashes are escaped, and so is every character
that is not to be written bare. -/
def quoted (bare : Char → Bool) (s : String) : String :=
  "\"" ++ String.join (s.toList.map (Quoted.escape bare)) ++ "\""

end Biunify
