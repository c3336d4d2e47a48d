import PagedQuery.Number.Numeral

/-!
# JSON values and their text

A `Json` value keeps numbers as they are written. `Json.text` is the compact text of a value: no
blanks, and in strings an escape only for the quote, the backslash and the control characters.
-/

namespace PagedQuery

/-- A JSON value. A string is `none` if it escapes half of a surrogate pair: it is well formed, but
no text. -/
inductive Json where
  | null
  | bool (b : Bool)
  | number (n : Numeral)
  | string (s : Option String)
  | array (items : List Json)
  | object (members : List (Option String × Json))
  deriving Repr, Inhabited

namespace Json

def hexDigit (n : Nat) : Char := if n < 10 then Char.ofNat (48 + n) else Char.ofNat (87 + n)

/-- A character inside a string. -/
def escape (c : Char) : List Char :=
  match c with
  | '"' => ['\\', '"']
  | '\\' => ['\\', '\\']
  | '\x08' => ['\\', 'b']
  | '\x0c' => ['\\', 'f']
  | '\n' => ['\\', 'n']
  | '\r' => ['\\', 'r']
  | '\t' => ['\\', 't']
  | c =>
    if c.toNat < 32 then ['\\', 'u', '0', '0', hexDigit (c.toNat / 16), hexDigit (c.toNat % 16)]
    else [c]

def quoted (s : Option String) : List Char :=
  match s with
  | some s => '"' :: s.toList.flatMap escape ++ ['"']
  | none => '"' :: "\\ud800".toList ++ ['"']

mutual

/-- The compact text of a value. -/
def chars : Json → List Char
  | .null => "null".toList
  | .bool true => "true".toList
  | .bool false => "false".toList
  | .number n => n.chars
  | .string s => quoted s
  | .array [] => ['[', ']']
  | .array (item :: items) => '[' :: chars item ++ itemChars items
  | .object [] => ['{', '}']
  | .object (m :: members) => '{' :: quoted m.1 ++ ':' :: chars m.2 ++ memberChars members

/-- The items of an array behind the first one, and its end. -/
def itemChars : List Json → List Char
  | [] => [']']
  | item :: items => ',' :: chars item ++ itemChars items

/-- The members of an object behind the first one, and its end. -/
def memberChars : List (Option String × Json) → List Char
  | [] => ['}']
  | m :: members => ',' :: quoted m.1 ++ ':' :: chars m.2 ++ memberChars members

end

def text (j : Json) : String := String.ofList j.chars

end Json

end PagedQuery
