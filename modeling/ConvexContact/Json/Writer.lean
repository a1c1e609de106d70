import ConvexContact.Json.Value

/-!
# Writing JSON

`Json.text` writes a value on one line, with a blank after each comma and colon. `Json.pretty`
writes it over several lines, each level indented by two blanks. How a machine number is written is
up to the caller.
-/

namespace ConvexContact.Json

/-- A hexadecimal digit. -/
def hexDigit (n : Nat) : Char := (Nat.digitChar n)

/-- Four hexadecimal digits. -/
def hex4 (n : Nat) : List Char :=
  [hexDigit (n / 4096 % 16), hexDigit (n / 256 % 16), hexDigit (n / 16 % 16), hexDigit (n % 16)]

/-- A character inside a string: quotes, backslashes and control characters are escaped. -/
def escape (c : Char) : List Char :=
  match c with
  | '"' => ['\\', '"']
  | '\\' => ['\\', '\\']
  | '\n' => ['\\', 'n']
  | '\r' => ['\\', 'r']
  | '\t' => ['\\', 't']
  | c =>
    if c.toNat = 8 then ['\\', 'b']
    else if c.toNat = 12 then ['\\', 'f']
    else if c.toNat < 32 then '\\' :: 'u' :: hex4 c.toNat
    else [c]

/-- A string in quotes. -/
def quoted (s : String) : String := "\"" ++ String.ofList (s.toList.flatMap escape) ++ "\""

mutual

/-- A value on one line. -/
def text (number : Float → String) : Json → String
  | null => "null"
  | bool b => if b then "true" else "false"
  | int n => toString n
  | float x => number x
  | string s => quoted s
  | array items => "[" ++ ", ".intercalate (itemTexts number items) ++ "]"
  | object members => "\x7b" ++ ", ".intercalate (memberTexts number members) ++ "\x7d"

/-- The items of an array, each on one line. -/
def itemTexts (number : Float → String) : List Json → List String
  | [] => []
  | v :: rest => text number v :: itemTexts number rest

/-- The members of an object, each on one line. -/
def memberTexts (number : Float → String) : List (String × Json) → List String
  | [] => []
  | (name, v) :: rest => (quoted name ++ ": " ++ text number v) :: memberTexts number rest

end

/-- Parts in brackets, each on a line of its own. -/
def spread (opening closing : String) (indent : String) (parts : List String) : String :=
  if parts.isEmpty then opening ++ closing
  else
    opening ++ "\n" ++ (",\n").intercalate (parts.map ((indent ++ "  ") ++ ·)) ++ "\n" ++ indent ++
      closing

mutual

/-- A value over several lines. -/
def pretty (number : Float → String) (indent : String) : Json → String
  | array items => spread "[" "]" indent (prettyItems number (indent ++ "  ") items)
  | object members =>
    spread "\x7b" "\x7d" indent (prettyMembers number (indent ++ "  ") members)
  | null => "null"
  | bool b => if b then "true" else "false"
  | int n => toString n
  | float x => number x
  | string s => quoted s

/-- The items of an array. -/
def prettyItems (number : Float → String) (indent : String) : List Json → List String
  | [] => []
  | v :: rest => pretty number indent v :: prettyItems number indent rest

/-- The members of an object. -/
def prettyMembers (number : Float → String) (indent : String) :
    List (String × Json) → List String
  | [] => []
  | (name, v) :: rest =>
    (quoted name ++ ": " ++ pretty number indent v) :: prettyMembers number indent rest

end

end ConvexContact.Json
