/-!
# Replacing text

Every occurrence of one text inside another is replaced, from left to right; occurrences do not
overlap, and what was put in is not looked at again.

## Main definitions

* `Text.replaceAll`: the replacement, on strings.
-/

namespace RegexWords.Text

/-- Replaces the occurrences of a text that is not empty, once `skip` more characters, the rest
of an occurrence, are passed over. -/
def replaceFrom (needle replacement : List Char) : Nat → List Char → List Char
  | _, [] => []
  | skip + 1, _ :: rest => replaceFrom needle replacement skip rest
  | 0, c :: rest =>
    if needle.isPrefixOf (c :: rest) then
      replacement ++ replaceFrom needle replacement (needle.length - 1) rest
    else c :: replaceFrom needle replacement 0 rest

/-- Replaces every occurrence of `needle`. The empty text occurs before every character and at
the end. -/
def replaceChars (needle replacement text : List Char) : List Char :=
  if needle.isEmpty then replacement ++ text.flatMap (· :: replacement)
  else replaceFrom needle replacement 0 text

/-- Replaces every occurrence of `needle` in `text`. -/
def replaceAll (needle replacement text : String) : String :=
  String.ofList (replaceChars needle.toList replacement.toList text.toList)

end RegexWords.Text
