import PagedQuery.Json.Value

/-!
# Reading JSON text

`Json.parse?` accepts one value in the strict grammar, with blanks around it and between its tokens.
Every reader takes the characters that are left and returns those behind what it read.
-/

namespace PagedQuery
namespace Json

def skipBlanks (cs : List Char) : List Char :=
  cs.dropWhile fun c => c == ' ' || c == '\n' || c == '\t' || c == '\r'

def expect? : List Char → List Char → Option (List Char)
  | [], cs => some cs
  | e :: es, c :: cs => if e = c then expect? es cs else none
  | _ :: _, [] => none

def hexValue? (c : Char) : Option Nat :=
  if '0' ≤ c ∧ c ≤ '9' then some (c.toNat - 48)
  else if 'a' ≤ c ∧ c ≤ 'f' then some (c.toNat - 87)
  else if 'A' ≤ c ∧ c ≤ 'F' then some (c.toNat - 55)
  else none

def codeUnit? (a b c d : Char) : Option Nat := do
  let a ← hexValue? a
  let b ← hexValue? b
  let c ← hexValue? c
  let d ← hexValue? d
  pure (((a * 16 + b) * 16 + c) * 16 + d)

def simpleEscape? : Char → Option Char
  | '"' => some '"'
  | '\\' => some '\\'
  | '/' => some '/'
  | 'b' => some '\x08'
  | 'f' => some '\x0c'
  | 'n' => some '\n'
  | 'r' => some '\r'
  | 't' => some '\t'
  | _ => none

/-- A piece of a string: a character, or the code unit of a `\u` escape. -/
inductive StringPiece where
  | char (c : Char)
  | unit (u : Nat)
  deriving DecidableEq, Repr

/-- Reads a string behind its opening quote. -/
def readString? : List Char → Option (List StringPiece × List Char)
  | [] => none
  | '"' :: cs => some ([], cs)
  | '\\' :: 'u' :: a :: b :: c :: d :: cs => do
    let u ← codeUnit? a b c d
    let (pieces, rest) ← readString? cs
    pure (.unit u :: pieces, rest)
  | '\\' :: c :: cs => do
    let e ← simpleEscape? c
    let (pieces, rest) ← readString? cs
    pure (.char e :: pieces, rest)
  | c :: cs =>
    if c = '\\' ∨ c.toNat < 32 then none
    else (readString? cs).map fun (pieces, rest) => (.char c :: pieces, rest)

/-- The text of a string. Two code units that make a surrogate pair are one character; any other
half of a pair has no text. -/
def assemble? : List StringPiece → Option (List Char)
  | [] => some []
  | .char c :: ps => (assemble? ps).map (c :: ·)
  | .unit u :: .unit v :: ps =>
    if 0xD800 ≤ u ∧ u < 0xDC00 then
      if 0xDC00 ≤ v ∧ v < 0xE000 then
        (assemble? ps).map (Char.ofNat (0x10000 + (u - 0xD800) * 0x400 + (v - 0xDC00)) :: ·)
      else none
    else if 0xDC00 ≤ u ∧ u < 0xE000 then none
    else (assemble? (.unit v :: ps)).map (Char.ofNat u :: ·)
  | .unit u :: ps =>
    if 0xD800 ≤ u ∧ u < 0xE000 then none else (assemble? ps).map (Char.ofNat u :: ·)

/-- Reads a string behind its opening quote, as text if it has one. -/
def string? (cs : List Char) : Option (Option String × List Char) :=
  (readString? cs).map fun (pieces, rest) => ((assemble? pieces).map String.ofList, rest)

def isDigit (c : Char) : Bool := decide ('0' ≤ c ∧ c ≤ '9')

def fraction? : List Char → Option (List Char × List Char)
  | '.' :: cs =>
    let digits := cs.takeWhile isDigit
    if digits.isEmpty then none else some (digits, cs.dropWhile isDigit)
  | cs => some ([], cs)

def exponentDigits? (negative : Bool) (cs : List Char) : Option (Option Int × List Char) :=
  let digits := cs.takeWhile isDigit
  if digits.isEmpty then none
  else
    let n : Int := Numeral.value digits
    some (some (if negative then -n else n), cs.dropWhile isDigit)

/-- Reads a power of ten, if one is written. -/
def exponent? : List Char → Option (Option Int × List Char)
  | c :: cs =>
    if c = 'e' ∨ c = 'E' then
      match cs with
      | '-' :: cs => exponentDigits? true cs
      | '+' :: cs => exponentDigits? false cs
      | cs => exponentDigits? false cs
    else some (none, c :: cs)
  | [] => some (none, [])

/-- Reads the digits before a point. Only zero itself begins with a zero. -/
def whole? : List Char → Option (List Char × List Char)
  | '0' :: cs => some (['0'], cs)
  | cs =>
    let digits := cs.takeWhile isDigit
    if digits.isEmpty then none else some (digits, cs.dropWhile isDigit)

def number? (negative : Bool) (cs : List Char) : Option (Json × List Char) := do
  let (whole, cs) ← whole? cs
  let (fraction, cs) ← fraction? cs
  let (exponent, cs) ← exponent? cs
  pure (.number ⟨negative, whole, fraction, exponent⟩, cs)

def scalar? : List Char → Option (Json × List Char)
  | 'n' :: cs => (expect? "ull".toList cs).map (.null, ·)
  | 't' :: cs => (expect? "rue".toList cs).map (.bool true, ·)
  | 'f' :: cs => (expect? "alse".toList cs).map (.bool false, ·)
  | '"' :: cs => (string? cs).map fun (s, rest) => (.string s, rest)
  | '-' :: cs => number? true cs
  | cs => number? false cs

mutual

/-- Reads a value. The first argument bounds the nesting and the number of items. -/
def value? : Nat → List Char → Option (Json × List Char)
  | 0, _ => none
  | fuel + 1, cs =>
    match skipBlanks cs with
    | '[' :: cs =>
      match skipBlanks cs with
      | ']' :: cs => some (.array [], cs)
      | cs => (items? fuel cs).map fun (items, rest) => (.array items, rest)
    | '{' :: cs =>
      match skipBlanks cs with
      | '}' :: cs => some (.object [], cs)
      | cs => (members? fuel cs).map fun (members, rest) => (.object members, rest)
    | cs => scalar? cs

def items? : Nat → List Char → Option (List Json × List Char)
  | 0, _ => none
  | fuel + 1, cs => do
    let (item, cs) ← value? fuel cs
    match skipBlanks cs with
    | ',' :: cs =>
      let (items, rest) ← items? fuel cs
      pure (item :: items, rest)
    | ']' :: cs => pure ([item], cs)
    | _ => none

def members? : Nat → List Char → Option (List (Option String × Json) × List Char)
  | 0, _ => none
  | fuel + 1, cs => do
    let cs ← expect? ['"'] (skipBlanks cs)
    let (key, cs) ← string? cs
    let cs ← expect? [':'] (skipBlanks cs)
    let (item, cs) ← value? fuel cs
    match skipBlanks cs with
    | ',' :: cs =>
      let (members, rest) ← members? fuel cs
      pure ((key, item) :: members, rest)
    | '}' :: cs => pure ([(key, item)], cs)
    | _ => none

end

/-- The value that a text denotes. Each character opens at most two levels of reading. -/
def parse? (text : String) : Option Json :=
  let cs := text.toList
  match value? (2 * cs.length + 2) cs with
  | some (j, rest) => if (skipBlanks rest).isEmpty then some j else none
  | none => none

end Json
end PagedQuery
