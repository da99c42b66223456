import RegexWords.Text.Printable

/-!
# Quoted text

Text between double quotes, in which every character that would not show as itself is escaped.

## Main definitions

* `Text.escape`: how one character is written.
* `Text.quoted`: a text with its quotes.
-/

namespace RegexWords.Text

/-- The code point of a character in braces, in lower-case hexadecimal without leading zeros. -/
def escapeCode (c : Char) : String :=
  "\\u\x7b" ++ String.ofList (Nat.toDigits 16 c.toNat) ++ "\x7d"

/-- How a character is written between quotes: by a letter, after a backslash, by its code
point, or as it is. -/
def escape (c : Char) : String :=
  match c with
  | '\x00' => "\\0"
  | '\t' => "\\t"
  | '\n' => "\\n"
  | '\r' => "\\r"
  | '"' => "\\\""
  | '\\' => "\\\\"
  | _ =>
    if ' ' ≤ c && c ≤ '~' then c.toString
    else if isExtending c || !isPrintable c then escapeCode c
    else c.toString

/-- A text in double quotes. -/
def quoted (text : String) : String :=
  "\"" ++ String.join (text.toList.map escape) ++ "\""

end RegexWords.Text
