namespace Scale.Derive

/-- Whether a character is blank: a space, a control character that moves the cursor, a space of
    another width, or a mark of the direction of writing. -/
def isBlank (c : Char) : Bool :=
  let n := c.toNat
  n == 0x20 || (0x09 ≤ n && n ≤ 0x0d) || (0x2000 ≤ n && n ≤ 0x200a) ||
    [0x85, 0xa0, 0x1680, 0x200e, 0x200f, 0x2028, 0x2029, 0x202f, 0x205f, 0x3000].contains n

/-- A comment by its first two characters. -/
inductive CommentKind where
  /-- Up to the end of the line. -/
  | line
  /-- Up to the matching end mark. -/
  | block
  deriving DecidableEq, Repr, Inhabited

/-- The rest of a line, and the text from its line feed on. A carriage return in front of the line
    feed belongs to neither. -/
def lineSpan : List Char → List Char × List Char
  | [] => ([], [])
  | '\n' :: cs => ([], '\n' :: cs)
  | '\r' :: '\n' :: cs => ([], '\n' :: cs)
  | c :: cs =>
    let (content, rest) := lineSpan cs
    (c :: content, rest)

/-- What stands in a block comment, after `depth` more openings than ends, and the text after
    it. -/
def blockSpan? : Nat → List Char → Option (List Char × List Char)
  | _, [] => none
  | depth, '/' :: '*' :: cs =>
    (blockSpan? (depth + 1) cs).map fun (content, rest) => ('/' :: '*' :: content, rest)
  | 0, '*' :: '/' :: cs => some ([], cs)
  | depth + 1, '*' :: '/' :: cs =>
    (blockSpan? depth cs).map fun (content, rest) => ('*' :: '/' :: content, rest)
  | depth, c :: cs => (blockSpan? depth cs).map fun (content, rest) => (c :: content, rest)

/-- What stands in a comment after its first two characters, and the text after it. -/
def commentSpan? : CommentKind → List Char → Option (List Char × List Char)
  | .line, cs => some (lineSpan cs)
  | .block, cs => blockSpan? 0 cs

/-- Whether a comment is documentation. -/
def isDocumentation : CommentKind → List Char → Bool
  | _, '!' :: _ => true
  | .line, ['/'] => true
  | .line, '/' :: c :: _ => c != '/'
  | .block, '*' :: c :: _ => c != '*'
  | _, _ => false

/-- Whether a carriage return stands without a line feed after it. -/
def hasLoneReturn : List Char → Bool
  | [] => false
  | '\r' :: '\n' :: cs => hasLoneReturn cs
  | c :: cs => c == '\r' || hasLoneReturn cs

end Scale.Derive
