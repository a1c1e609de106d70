import ConvexContact.Decimal.Layout
import ConvexContact.Json.Writer
import ConvexContact.Text.Hidden

/-!
# Values as literals

`Json.literal` shows a value inside a message: words with a capital, machine numbers with their
shortest digits, and strings in single quotes, or in double quotes when they hold single ones only.
-/

namespace ConvexContact.Json

/-- A character by its number, with two, four or eight hexadecimal digits. -/
def hidden (c : Char) : List Char :=
  let n := c.toNat
  if n < 256 then '\\' :: 'x' :: (hex4 n).drop 2
  else if n < 65536 then '\\' :: 'u' :: hex4 n
  else '\\' :: 'U' :: (hex4 (n / 65536) ++ hex4 (n % 65536))

/-- A character inside a string in the given quotes. -/
def shown (quote c : Char) : List Char :=
  if c = quote ∨ c = '\\' then ['\\', c]
  else
    match c with
    | '\n' => ['\\', 'n']
    | '\r' => ['\\', 'r']
    | '\t' => ['\\', 't']
    | c => if Text.isHidden c then hidden c else [c]

/-- A string in quotes. -/
def stringLiteral (s : String) : String :=
  let cs := s.toList
  let quote := if cs.contains '\'' && !cs.contains '"' then '"' else '\''
  String.ofList (quote :: cs.flatMap (shown quote) ++ [quote])

mutual

/-- A value as it is shown in a message. -/
def literal : Json → String
  | null => "None"
  | bool b => if b then "True" else "False"
  | int n => toString n
  | float x => Layout.plain.text x
  | string s => stringLiteral s
  | array items => "[" ++ ", ".intercalate (itemLiterals items) ++ "]"
  | object members => "\x7b" ++ ", ".intercalate (memberLiterals members) ++ "\x7d"

/-- The items of an array as they are shown. -/
def itemLiterals : List Json → List String
  | [] => []
  | v :: rest => literal v :: itemLiterals rest

/-- The members of an object as they are shown. -/
def memberLiterals : List (String × Json) → List String
  | [] => []
  | (name, v) :: rest => (stringLiteral name ++ ": " ++ literal v) :: memberLiterals rest

end

end ConvexContact.Json
