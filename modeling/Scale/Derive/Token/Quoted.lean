import Scale.Derive.Token.Number

namespace Scale.Derive

/-- What a quoted literal may hold. -/
inductive QuoteKind where
  /-- Any characters. -/
  | text
  /-- ASCII characters and escaped bytes. -/
  | bytes
  /-- Anything but the null character, which marks the end. -/
  | terminated
  deriving DecidableEq, Repr, Inhabited

/-- Whether a character may stand for itself. -/
def QuoteKind.admits : QuoteKind → Char → Bool
  | text, _ => true
  | bytes, c => c.toNat < 0x80
  | terminated, c => c.toNat != 0

/-- Where in a quoted literal a reader stands. -/
inductive QuoteState where
  /-- Between characters. -/
  | plain
  /-- After a carriage return, which needs a line feed. -/
  | lineEnd
  /-- After a backslash. -/
  | escape
  /-- Before the first of two hexadecimal digits. -/
  | highDigit
  /-- Before the second one. -/
  | lowDigit (high : Nat)
  /-- Before the brace that opens a code point. -/
  | codeOpen
  /-- Among the digits of a code point. -/
  | code (digits value : Nat)
  /-- Among the blanks that are left out after an escaped end of line. -/
  | joined
  /-- After a carriage return among those blanks. -/
  | joinedLineEnd
  deriving DecidableEq, Repr, Inhabited

/-- Whether a number is the code point of a character. -/
def isScalar (n : Nat) : Bool :=
  n < 0xd800 || (0xe000 ≤ n && n < 0x110000)

namespace QuoteKind

/-- Takes a character that is not part of an escape. -/
def takePlain (kind : QuoteKind) (c : Char) : Option QuoteState :=
  if c = '\\' then some .escape
  else if c = '\r' then some .lineEnd
  else if kind.admits c then some .plain
  else none

/-- Takes the character after a backslash. -/
def takeEscape (kind : QuoteKind) (c : Char) : Option QuoteState :=
  if c = 'x' then some .highDigit
  else if c = 'u' then if kind = bytes then none else some .codeOpen
  else if c = '0' then if kind = terminated then none else some .plain
  else if c = '\n' then some .joined
  else if c = '\r' then some .joinedLineEnd
  else if ['n', 'r', 't', '\\', '\x27', '\x22'].contains c then some .plain
  else none

/-- Takes the first of two hexadecimal digits; in texts the two stand for an ASCII character. -/
def takeHighDigit (kind : QuoteKind) (c : Char) : Option QuoteState :=
  match digitValue? c with
  | some d => if kind = text ∧ 8 ≤ d then none else some (.lowDigit d)
  | none => none

/-- Takes the second of two hexadecimal digits. -/
def takeLowDigit (kind : QuoteKind) (high : Nat) (c : Char) : Option QuoteState :=
  match digitValue? c with
  | some d => if kind = terminated ∧ high = 0 ∧ d = 0 then none else some .plain
  | none => none

/-- Takes a digit of a code point, which has one to six, or what follows the first: a low line or
    the closing brace. -/
def takeCode (kind : QuoteKind) (digits value : Nat) (c : Char) : Option QuoteState :=
  match digitValue? c with
  | some d => if digits = 6 then none else some (.code (digits + 1) (16 * value + d))
  | none =>
    if digits = 0 then none
    else if c = '_' then some (.code digits value)
    else if c = '\x7d' ∧ isScalar value ∧ !(kind = terminated ∧ value = 0) then some .plain
    else none

/-- Takes one character. -/
def step (kind : QuoteKind) : QuoteState → Char → Option QuoteState
  | .plain, c => kind.takePlain c
  | .lineEnd, c => if c = '\n' then some .plain else none
  | .escape, c => kind.takeEscape c
  | .highDigit, c => kind.takeHighDigit c
  | .lowDigit high, c => kind.takeLowDigit high c
  | .codeOpen, c => if c = '\x7b' then some (.code 0 0) else none
  | .code digits value, c => kind.takeCode digits value c
  | .joined, c =>
    if c = '\r' then some .joinedLineEnd
    else if c = ' ' ∨ c = '\t' ∨ c = '\n' then some .joined
    else kind.takePlain c
  | .joinedLineEnd, c => if c = '\n' then some .joined else none

end QuoteKind

/-- The rest of a string, from a state on, up to the quotation mark that ends it. -/
def afterString? (kind : QuoteKind) : QuoteState → List Char → Option (List Char)
  | _, [] => none
  | state, c :: cs =>
    if c = '\x22' ∧ (state = .plain ∨ state = .joined) then
      some cs
    else
      match kind.step state c with
      | some next => afterString? kind next cs
      | none => none

/-- The rest of an escape, from a state on. -/
def afterEscape? (kind : QuoteKind) : QuoteState → List Char → Option (List Char)
  | .plain, cs => some cs
  | _, [] => none
  | state, c :: cs =>
    match kind.step state c with
    | some next => afterEscape? kind next cs
    | none => none

/-- The rest of a single character: one character or one escape, and the apostrophe that ends it.
    An end of line can not be escaped here. -/
def afterCharacter? (kind : QuoteKind) : List Char → Option (List Char)
  | '\\' :: c :: cs =>
    if c = '\n' ∨ c = '\r' then
      none
    else
      match afterEscape? kind .escape (c :: cs) with
      | some ('\x27' :: rest) => some rest
      | _ => none
  | c :: '\x27' :: rest => if kind.admits c then some rest else none
  | _ => none

/-- The rest of a raw string, up to a quotation mark and as many number signs as in front. -/
def afterRaw? (kind : QuoteKind) (signs : Nat) : List Char → Option (List Char)
  | [] => none
  | '\r' :: '\n' :: cs => afterRaw? kind signs cs
  | c :: cs =>
    if c = '\x22' ∧ cs.take signs = List.replicate signs '#' then some (cs.drop signs)
    else if c ≠ '\r' ∧ kind.admits c then afterRaw? kind signs cs
    else none

/-- The most number signs around a raw string. -/
def maxSigns : Nat := 255

/-- A raw string from the number signs in front on. -/
def afterRawString? (kind : QuoteKind) (cs : List Char) : Option (List Char) :=
  let signs := (cs.takeWhile (· == '#')).length
  match cs.drop signs with
  | '\x22' :: rest => if signs ≤ maxSigns then afterRaw? kind signs rest else none
  | _ => none

/-- A quoted literal, which may have a suffix. -/
def afterQuoted? (cs : List Char) : Option (List Char) :=
  (unsuffixed cs).map afterSuffix
where
  /-- A quoted literal without its suffix. -/
  unsuffixed : List Char → Option (List Char)
    | '\x22' :: cs => afterString? .text .plain cs
    | '\x27' :: cs => afterCharacter? .text cs
    | 'r' :: cs => afterRawString? .text cs
    | 'b' :: '\x22' :: cs => afterString? .bytes .plain cs
    | 'b' :: '\x27' :: cs => afterCharacter? .bytes cs
    | 'b' :: 'r' :: cs => afterRawString? .bytes cs
    | 'c' :: '\x22' :: cs => afterString? .terminated .plain cs
    | 'c' :: 'r' :: cs => afterRawString? .terminated cs
    | _ => none

end Scale.Derive
