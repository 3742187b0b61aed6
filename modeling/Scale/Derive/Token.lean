import Scale.Derive.Token.Blank
import Scale.Derive.Token.Quoted

namespace Scale.Derive

/-- The kinds of brackets. -/
inductive Bracket where
  | round
  | square
  | curly
  deriving DecidableEq, Repr, Inhabited

/-- A token. -/
inductive Token where
  /-- An identifier, with its mark if it is raw. -/
  | identifier (name : String)
  /-- A number or a quoted literal. -/
  | literal
  /-- A punctuation mark. -/
  | mark (c : Char)
  /-- A comment that is documentation. -/
  | documentation
  /-- An opening bracket. -/
  | opening (bracket : Bracket)
  /-- A closing bracket. -/
  | closing (bracket : Bracket)
  deriving DecidableEq, Repr, Inhabited

namespace Token

/-- The brackets. -/
def bracket? : Char → Option Token
  | '(' => some (opening .round)
  | ')' => some (closing .round)
  | '[' => some (opening .square)
  | ']' => some (closing .square)
  | '\x7b' => some (opening .curly)
  | '\x7d' => some (closing .curly)
  | _ => none

/-- The characters that are punctuation marks by themselves. -/
def marks : List Char :=
  ['~', '!', '@', '#', '$', '%', '^', '&', '*', '-', '=', '+', '|', ';', ':', ',', '<', '.', '>',
    '/', '?']

/-- The punctuation mark at the start of a text and what follows it. An apostrophe is a mark in
    front of an identifier that is followed neither by another apostrophe nor, unless it is raw, by
    a number sign. -/
def mark? : List Char → Option (Token × List Char)
  | '\x27' :: rest =>
    match identifier? rest with
    | some (_, '\x27' :: _) => none
    | some (_, '#' :: _) =>
      if rest.take 2 = ['r', '#'] then some (mark '\x27', rest) else none
    | some _ => some (mark '\x27', rest)
    | none => none
  | c :: rest => if marks.contains c then some (mark c, rest) else none
  | [] => none

/-- Beginnings of quoted literals. A text that begins like one has no identifier there, whether or
    not the literal is complete. -/
def quoteOpenings : List (List Char) :=
  [['r', '\x22'], ['r', '#', '\x22'], ['r', '#', '#'], ['b', '\x22'], ['b', '\x27'],
    ['b', 'r', '\x22'], ['b', 'r', '#'], ['c', '\x22'], ['c', 'r', '\x22'], ['c', 'r', '#']]

/-- The identifier at the start of a text, as a token, and what follows it. -/
def ofIdentifier? (cs : List Char) : Option (Token × List Char) :=
  if quoteOpenings.any fun opening => opening.isPrefixOf cs then
    none
  else
    (identifier? cs).map fun (name, rest) => (identifier name, rest)

/-- The literal at the start of a text and what follows it. -/
def literal? (cs : List Char) : Option (Token × List Char) :=
  ((afterQuoted? cs).or (afterNumber? cs)).map fun rest => (literal, rest)

/-- The comment after its first two characters, a token if it is documentation. Documentation must
    not hold a lone carriage return. -/
def comment? (kind : CommentKind) (cs : List Char) : Option (Option Token × List Char) :=
  match commentSpan? kind cs with
  | some (content, rest) =>
    if isDocumentation kind content then
      if hasLoneReturn content then none else some (some documentation, rest)
    else
      some (none, rest)
  | none => none

/-- What stands at the start of a text, a token or not, and what follows it. -/
def piece? : List Char → Option (Option Token × List Char)
  | [] => none
  | '/' :: '/' :: cs => comment? .line cs
  | '/' :: '*' :: cs => comment? .block cs
  | c :: cs =>
    if isBlank c then
      some (none, cs)
    else
      match bracket? c with
      | some token => some (some token, cs)
      | none =>
        ((literal? (c :: cs)).or ((mark? (c :: cs)).or (ofIdentifier? (c :: cs)))).map
          fun (token, rest) => (some token, rest)

/-- The tokens of a text that has at most `pieces` pieces. -/
def tokensWithin : Nat → List Char → Option (List Token)
  | _, [] => some []
  | 0, _ :: _ => none
  | pieces + 1, c :: cs =>
    match piece? (c :: cs) with
    | some (token, rest) => (tokensWithin pieces rest).map fun tokens => token.toList ++ tokens
    | none => none

/-- Whether brackets match, given those that are open already, the innermost first. -/
def balancedFrom : List Bracket → List Token → Bool
  | stack, [] => stack.isEmpty
  | stack, opening bracket :: tokens => balancedFrom (bracket :: stack) tokens
  | [], closing _ :: _ => false
  | inner :: stack, closing bracket :: tokens => inner == bracket && balancedFrom stack tokens
  | stack, _ :: tokens => balancedFrom stack tokens

/-- Drops the mark of the byte order at the start of a text. -/
def dropOrderMark : List Char → List Char
  | '\ufeff' :: cs => cs
  | cs => cs

/-- The tokens of a text, if all of it consists of blanks, comments and tokens and its brackets
    match. -/
def ofText? (text : String) : Option (List Token) :=
  let cs := dropOrderMark text.toList
  match tokensWithin cs.length cs with
  | some tokens => if balancedFrom [] tokens then some tokens else none
  | none => none

end Token

end Scale.Derive
