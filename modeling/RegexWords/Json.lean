/-!
# JSON

JSON values, and the text of a value laid out over several lines.

## Main definitions

* `Json`: a value. The fields of an object keep their order.
* `Json.pretty`: the text, indented by two spaces a level.
-/

namespace RegexWords

/-- A **JSON value**. -/
inductive Json
  | null
  | bool (value : Bool)
  /-- A number without fraction and exponent. -/
  | integer (value : Int)
  /-- Any other number, as it is written. -/
  | decimal (text : String)
  | string (value : String)
  | array (items : List Json)
  | object (fields : List (String × Json))
deriving Inhabited

namespace Json

/-- A natural number. -/
def nat (n : Nat) : Json :=
  integer n

/-- How a character is written inside quotes. Only quotes, backslashes and controls are
escaped. -/
def escape (c : Char) : String :=
  match c with
  | '"' => "\\\""
  | '\\' => "\\\\"
  | '\x08' => "\\b"
  | '\x0c' => "\\f"
  | '\n' => "\\n"
  | '\r' => "\\r"
  | '\t' => "\\t"
  | _ =>
    if c < ' ' then
      "\\u00" ++ (if c.toNat < 16 then "0" else "") ++ String.ofList (Nat.toDigits 16 c.toNat)
    else c.toString

/-- A text in quotes. -/
def quote (text : String) : String :=
  "\"" ++ String.join (text.toList.map escape) ++ "\""

/-- Lines between brackets, one entry a line, or just the brackets. -/
def enclose (opening closing indent : String) : List String → String
  | [] => opening ++ closing
  | entries =>
    opening ++ "\n" ++ String.intercalate ",\n" (entries.map (indent ++ "  " ++ ·)) ++ "\n" ++
      indent ++ closing

mutual

/-- The text of a value whose first line stands at the given indentation. -/
def prettyAt (indent : String) : Json → String
  | null => "null"
  | bool true => "true"
  | bool false => "false"
  | integer n => toString n
  | decimal text => text
  | string s => quote s
  | array items => enclose "[" "]" indent (prettyItems (indent ++ "  ") items)
  | object fields => enclose "\x7b" "\x7d" indent (prettyFields (indent ++ "  ") fields)

/-- The texts of several values. -/
def prettyItems (indent : String) : List Json → List String
  | [] => []
  | v :: vs => v.prettyAt indent :: prettyItems indent vs

/-- The texts of several fields, each after its name. -/
def prettyFields (indent : String) : List (String × Json) → List String
  | [] => []
  | (name, v) :: fields =>
    (quote name ++ ": " ++ v.prettyAt indent) :: prettyFields indent fields

end

/-- The text of a value. -/
def pretty (v : Json) : String :=
  v.prettyAt ""

end Json

end RegexWords
