import Toolflow.Table

/-! Tables of tables of texts as indented JSON. -/
namespace Toolflow.Json

def hexDigit (n : Nat) : Char := (Nat.toDigits 16 n).headD '0'

/-- A character inside a JSON string. -/
def escapeChar (c : Char) : List Char :=
  match c with
  | '"' => ['\\', '"']
  | '\\' => ['\\', '\\']
  | '\n' => ['\\', 'n']
  | '\r' => ['\\', 'r']
  | '\t' => ['\\', 't']
  | '\x08' => ['\\', 'b']
  | '\x0c' => ['\\', 'f']
  | c =>
    if c.toNat < 0x20 then ['\\', 'u', '0', '0', hexDigit (c.toNat / 16), hexDigit (c.toNat % 16)]
    else [c]

def quoteChars (cs : List Char) : List Char := '"' :: cs.flatMap escapeChar ++ ['"']

/-- A text as a JSON string. -/
def quote (s : String) : String := String.ofList (quoteChars s.toList)

/-- An object with one field per line, `indent` being the blanks in front of its closing brace. -/
def object (indent : String) (fields : List (String × String)) : String :=
  if fields.isEmpty then "\x7b\x7d"
  else
    let lines := fields.map fun (name, text) => indent ++ "  " ++ quote name ++ ": " ++ text
    "\x7b\n" ++ ",\n".intercalate lines ++ "\n" ++ indent ++ "\x7d"

/-- A table of tables as an object of objects. -/
def render (t : Table (Table String)) : String :=
  object "" ((t.map fun inner => object "  " (inner.map quote).entries).entries)

end Toolflow.Json
