import Scale.Derive.Token.Word

namespace Scale.Derive

/-- The value of a digit in bases up to sixteen. -/
def digitValue? (c : Char) : Option Nat :=
  let n := c.toNat
  if 0x30 ≤ n ∧ n ≤ 0x39 then some (n - 0x30)
  else if 0x61 ≤ n ∧ n ≤ 0x66 then some (n - 0x61 + 10)
  else if 0x41 ≤ n ∧ n ≤ 0x46 then some (n - 0x41 + 10)
  else none

/-- Digits of a base, at least one. A letter that is no digit of the base begins the suffix,
    whereas a decimal digit beyond the base makes the number invalid. A low line may come first
    only after the mark of a base. -/
def afterDigits? (base : Nat) : Bool → List Char → Option (List Char)
  | empty, [] => if empty then none else some []
  | empty, c :: cs =>
    if c = '_' then
      if empty ∧ base = 10 then none else afterDigits? base empty cs
    else
      match digitValue? c with
      | some d =>
        if d < base then afterDigits? base false cs
        else if d < 10 ∨ empty then none
        else some (c :: cs)
      | none => if empty then none else some (c :: cs)

/-- The digits of an integer, with the mark of their base in front. -/
def afterInteger? : List Char → Option (List Char)
  | '0' :: 'x' :: cs => afterDigits? 16 true cs
  | '0' :: 'o' :: cs => afterDigits? 8 true cs
  | '0' :: 'b' :: cs => afterDigits? 2 true cs
  | cs => afterDigits? 10 true cs

/-- An exponent after its letter: at least one digit, and at most one sign in front of the
    first. -/
def afterExponent? : Bool → Bool → List Char → Option (List Char)
  | _, digits, [] => if digits then some [] else none
  | signed, digits, c :: cs =>
    if c = '_' then
      afterExponent? signed digits cs
    else if c.isDigit then
      afterExponent? signed true cs
    else if digits then
      some (c :: cs)
    else if (c = '+' ∨ c = '-') ∧ !signed then
      afterExponent? true digits cs
    else
      none

/-- Whether a character is the letter of an exponent. -/
def isExponentMark (c : Char) : Bool :=
  c == 'e' || c == 'E'

/-- Whether a character may stand among decimal digits. -/
def isDecimal (c : Char) : Bool :=
  c.isDigit || c == '_'

/-- Digits with a point or an exponent, the first of them not a low line. A point that a word or
    another point follows belongs to no number. After a point, a letter without an exponent begins
    the suffix. -/
def afterFraction? : List Char → Option (List Char)
  | [] => none
  | c :: cs =>
    if !c.isDigit then
      none
    else
      match cs.dropWhile isDecimal with
      | '.' :: rest =>
        if rest.head?.any fun next => next == '.' || startsWord next then
          none
        else
          match rest.dropWhile isDecimal with
          | mark :: after =>
            if isExponentMark mark then
              some ((afterExponent? false false after).getD (mark :: after))
            else
              some (mark :: after)
          | [] => some []
      | mark :: after => if isExponentMark mark then afterExponent? false false after else none
      | [] => none

/-- The end of a number: a suffix, if there is one, and no further character of a word. -/
def afterNumberEnd? (cs : List Char) : Option (List Char) :=
  let rest := afterSuffix cs
  if rest.head?.any continuesWord then none else some rest

/-- A number. -/
def afterNumber? (cs : List Char) : Option (List Char) :=
  ((afterFraction? cs).bind afterNumberEnd?).or ((afterInteger? cs).bind afterNumberEnd?)

end Scale.Derive
