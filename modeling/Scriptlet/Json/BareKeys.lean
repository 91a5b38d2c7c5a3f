namespace Scriptlet.Json

/-- Drops the quotes of everything that looks like a key; a text needs as many steps as it has
characters. -/
def bareKeysWithin : Nat → List Char → List Char
  | 0, cs => cs
  | _ + 1, [] => []
  | n + 1, c :: cs =>
    if c = '"' then
      match cs.takeWhile (· ≠ '"'), cs.dropWhile (· ≠ '"') with
      | k :: ks, '"' :: ':' :: rest => k :: ks ++ ':' :: bareKeysWithin n rest
      | _, _ => '"' :: bareKeysWithin n cs
    else c :: bareKeysWithin n cs

/-- A text with the quotes of its keys dropped. Wherever a quote, some characters that are not
quotes, a quote and a colon follow one another, the two quotes go. The search runs over the whole
text from left to right and knows nothing of strings, so a string that looks like a key loses its
quotes as well. -/
def bareKeys (cs : List Char) : List Char :=
  bareKeysWithin cs.length cs

end Scriptlet.Json
