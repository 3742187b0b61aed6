import Scale.Derive.Token.Letter

namespace Scale.Derive

/-- The word at the start of a text and what follows it. -/
def word? : List Char → Option (List Char × List Char)
  | [] => none
  | c :: cs =>
    if startsWord c then
      some (c :: cs.takeWhile continuesWord, cs.dropWhile continuesWord)
    else
      none

/-- What follows a word that may stand at the start of a text. -/
def afterSuffix (cs : List Char) : List Char :=
  match word? cs with
  | some (_, rest) => rest
  | none => cs

/-- Words that can not be marked as raw. -/
def neverRaw : List String :=
  ["_", "super", "self", "Self", "crate"]

/-- The identifier at the start of a text and what follows it. -/
def identifier? : List Char → Option (String × List Char)
  | 'r' :: '#' :: cs =>
    match word? cs with
    | some (word, rest) =>
      if neverRaw.contains (String.ofList word) then
        none
      else
        some (String.ofList ('r' :: '#' :: word), rest)
    | none => none
  | cs => (word? cs).map fun (word, rest) => (String.ofList word, rest)

end Scale.Derive
