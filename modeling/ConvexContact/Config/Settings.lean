import ConvexContact.Json.Reader

/-!
# Settings

Settings are lines `name: value`, those of a group indented below its name. A value on the line is a
word, a number, a quoted text, or a list in brackets; a group of lines that start with a dash is a
list too. What follows a `#` at the start of a word is a comment. `Settings.read?` also takes a text
that is one JSON value.

The format is a part of YAML, large enough for the settings of a line search. Only the command line
reads it; `Run.run` starts from settings that have been read. These are the limits of the part:

* every value stands on its line. Texts in several lines, block texts behind `|` or `>`, lists whose
  brackets close on a later line, and braces that do not hold JSON are refused (`none`);
* names are texts, whatever they look like, and the outermost value is a group or JSON. A list of
  lines with dashes holds values, so that a dash or a `name:` behind the dash belongs to a word;
* words are taken literally: no tags, anchors, aliases or merged groups, and nothing is a date;
* whole numbers are decimal. Other bases and those with colons are words, and a leading zero does
  not make a number octal. A fraction has a point; its exponent may come without a sign;
* a name that occurs twice keeps its last value, and `---` separates nothing.

The nesting is bounded by the number of lines and characters, which are supplied as fuel.
-/

namespace ConvexContact.Settings

/-! ## Values on a line -/

/-- Text outside quotes as a value: nothing, a truth value, a number, or a text. A fraction is
recognised by its point. -/
def plain (cs : List Char) : Json :=
  let cs := Text.trim cs
  let s := String.ofList cs
  if ["", "~", "null", "Null", "NULL"].contains s then .null
  else if ["true", "True", "TRUE", "yes", "Yes", "YES", "on", "On", "ON"].contains s then .bool true
  else if ["false", "False", "FALSE", "no", "No", "NO", "off", "Off", "OFF"].contains s then
    .bool false
  else if [".inf", "+.inf", ".Inf", ".INF"].contains s then .float (1.0 / 0.0)
  else if ["-.inf", "-.Inf", "-.INF"].contains s then .float (-1.0 / 0.0)
  else if [".nan", ".NaN", ".NAN"].contains s then .float (0.0 / 0.0)
  else
    match Numeral.read? cs with
    | some (n, []) =>
      if n.whole then .int n.toInt
      else if cs.contains '.' then .float n.toFloat
      else .string s
    | _ => .string s

/-- Text in single quotes, in which a quote is written twice. -/
def singleQuoted : List Char → List Char → Option (String × List Char)
  | done, '\'' :: '\'' :: rest => singleQuoted ('\'' :: done) rest
  | done, '\'' :: rest => some (String.ofList done.reverse, rest)
  | done, c :: rest => singleQuoted (c :: done) rest
  | _, [] => none

/-- Text in quotes of either kind. -/
def quoted? : List Char → Option (String × List Char)
  | '"' :: rest => Json.stringRest (rest.length + 1) [] rest
  | '\'' :: rest => singleQuoted [] rest
  | _ => none

/-- Whether a character ends a value inside brackets. -/
def endsItem (c : Char) : Bool := c == ',' || c == ']'

mutual

/-- A value inside brackets. -/
def item? : Nat → List Char → Option (Json × List Char)
  | 0, _ => none
  | fuel + 1, cs =>
    match Json.skip cs with
    | '[' :: rest =>
      match Json.skip rest with
      | ']' :: rest => some (.array [], rest)
      | rest => (items? fuel rest).map fun (vs, rest) => (.array vs, rest)
    | cs =>
      match quoted? cs with
      | some (s, rest) => some (.string s, rest)
      | none => some (plain (cs.takeWhile (!endsItem ·)), cs.dropWhile (!endsItem ·))

/-- The values of a list up to its closing bracket. -/
def items? : Nat → List Char → Option (List Json × List Char)
  | 0, _ => none
  | fuel + 1, cs =>
    match item? fuel cs with
    | none => none
    | some (v, rest) =>
      match Json.skip rest with
      | ',' :: rest => (items? fuel rest).map fun (vs, rest) => (v :: vs, rest)
      | ']' :: rest => some ([v], rest)
      | _ => none

end

/-- The value that stands on a line. -/
def value? (cs : List Char) : Option Json :=
  let cs := Text.trim cs
  match cs with
  | '[' :: _ | '"' :: _ | '\'' :: _ =>
    match item? (cs.length + 1) cs with
    | some (v, []) => some v
    | _ => none
  | '\x7b' :: _ => Json.parse? (String.ofList cs)
  | cs => some (plain cs)

/-! ## Lines -/

/-- A line that is neither blank nor comment. -/
structure Line where
  /-- how far it is indented -/
  indent : Nat
  text : List Char

/-- A line without its comment; `blank` tells whether a word may start here and `quote` which quotes
are open. -/
def uncomment (blank : Bool) (quote : Option Char) : List Char → List Char
  | [] => []
  | c :: rest =>
    match quote with
    | some q => c :: uncomment false (if c = q then none else quote) rest
    | none =>
      if c == '#' && blank then []
      else
        let opened := if (c == '"' || c == '\'') && blank then some c else none
        c :: uncomment (Text.isBlank c || c == '[' || c == ',') opened rest

/-- Reads a line, unless nothing is on it. -/
def line? (s : List Char) : Option Line :=
  let cs := uncomment true none s
  let text := Text.trim cs
  if text.isEmpty || text == ['-', '-', '-'] then none
  else some ⟨(cs.takeWhile Text.isBlank).length, text⟩

/-- Splits a line at the first colon that a blank or the end of the line follows. -/
def splitName : List Char → Option (List Char × List Char)
  | [] => none
  | [':'] => some ([], [])
  | ':' :: ' ' :: rest => some ([], rest)
  | c :: rest => (splitName rest).map fun (name, value) => (c :: name, value)

/-- The name before a colon, in quotes or plain. -/
def nameOf (cs : List Char) : String :=
  match quoted? cs with
  | some (s, _) => s
  | none => String.ofList (Text.trim cs)

/-- The values of lines that start with a dash, and the lines behind them. -/
def dashes (indent : Nat) : List Line → Option (List Json × List Line)
  | [] => some ([], [])
  | l :: rest =>
    match l.text with
    | '-' :: ' ' :: text =>
      if l.indent = indent then do
        let v ← value? text
        let (vs, rest) ← dashes indent rest
        return (v :: vs, rest)
      else some ([], l :: rest)
    | _ => some ([], l :: rest)

mutual

/-- The settings of one group, and the lines behind it. -/
def group? : Nat → Nat → List Line → Option (List (String × Json) × List Line)
  | 0, _, _ => none
  | _ + 1, _, [] => some ([], [])
  | fuel + 1, indent, l :: rest =>
    if l.indent < indent then some ([], l :: rest)
    else if indent < l.indent then none
    else
      match splitName l.text with
      | none => none
      | some (name, text) =>
        match below? fuel indent text rest with
        | none => none
        | some (v, rest) =>
          (group? fuel indent rest).map fun (ms, rest) => ((nameOf name, v) :: ms, rest)

/-- The value of a setting: what stands on its line, or the lines below it. -/
def below? : Nat → Nat → List Char → List Line → Option (Json × List Line)
  | 0, _, _, _ => none
  | fuel + 1, indent, text, lines =>
    if !text.isEmpty then (value? text).map fun v => (v, lines)
    else
      match lines with
      | [] => some (.null, [])
      | l :: rest =>
        if l.text.take 2 == ['-', ' '] && indent ≤ l.indent then
          (dashes l.indent (l :: rest)).map fun (vs, rest) => (.array vs, rest)
        else if indent < l.indent then
          (group? fuel l.indent (l :: rest)).map fun (ms, rest) =>
            (.object (Json.assignAll ms), rest)
        else some (.null, l :: rest)

end

/-- Cuts a text into lines. -/
def lines (cs : List Char) : List (List Char) :=
  cs.foldr (fun c ls =>
    if c = '\n' then [] :: ls
    else
      match ls with
      | [] => [[c]]
      | l :: ls => (c :: l) :: ls) [[]]

/-- The value that a text of settings stands for. -/
def read? (text : String) : Option Json :=
  match Json.parse? text with
  | some v => some v
  | none =>
    let ls := (lines text.toList).filterMap line?
    match ls with
    | [] => some .null
    | l :: _ =>
      match group? (2 * ls.length + 2) l.indent ls with
      | some (members, []) => some (.object (Json.assignAll members))
      | _ => none

end ConvexContact.Settings
