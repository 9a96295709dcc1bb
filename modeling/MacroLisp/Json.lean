/-!
# JSON documents

`Json` is a document whose numbers are given by their digits. `pretty` writes it over several lines,
indented by two spaces a level; an empty array or object stays on one line.
-/

namespace MacroLisp

inductive Json where
  | null
  | bool (value : Bool)
  | number (digits : List Char)
  | string (value : String)
  | array (items : List Json)
  | object (fields : List (String × Json))

namespace Json

def hexDigit (n : Nat) : Char := Nat.digitChar n

/-- The characters with a short escape, and the other control characters, are escaped. -/
def escape (c : Char) : List Char :=
  if c = '"' then "\\\"".toList
  else if c = '\\' then "\\\\".toList
  else if c.toNat = 0x08 then "\\b".toList
  else if c.toNat = 0x0C then "\\f".toList
  else if c = '\n' then "\\n".toList
  else if c = '\r' then "\\r".toList
  else if c = '\t' then "\\t".toList
  else if c.toNat < 0x20 then "\\u00".toList ++ [hexDigit (c.toNat / 16), hexDigit (c.toNat % 16)]
  else [c]

def quoted (s : String) : List Char := '"' :: s.toList.flatMap escape ++ ['"']

def newline (depth : Nat) : List Char := '\n' :: List.replicate (2 * depth) ' '

mutual

def write (depth : Nat) : Json → List Char
  | null => "null".toList
  | bool true => "true".toList
  | bool false => "false".toList
  | number digits => digits
  | string value => quoted value
  | array [] => "[]".toList
  | array (item :: items) =>
    '[' :: newline (depth + 1) ++ write (depth + 1) item ++ writeItems (depth + 1) items ++
      newline depth ++ [']']
  | object [] => "\x7b\x7d".toList
  | object ((key, value) :: fields) =>
    '\x7b' :: newline (depth + 1) ++ quoted key ++ ": ".toList ++ write (depth + 1) value ++
      writeFields (depth + 1) fields ++ newline depth ++ ['\x7d']

def writeItems (depth : Nat) : List Json → List Char
  | [] => []
  | item :: items => ',' :: newline depth ++ write depth item ++ writeItems depth items

def writeFields (depth : Nat) : List (String × Json) → List Char
  | [] => []
  | (key, value) :: fields =>
    ',' :: newline depth ++ quoted key ++ ": ".toList ++ write depth value ++
      writeFields depth fields

end

def pretty (json : Json) : String := String.ofList (json.write 0)

end Json

end MacroLisp
