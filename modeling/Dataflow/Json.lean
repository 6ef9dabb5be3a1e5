import Dataflow.Hex

/-!
# JSON text

A reader for JSON documents and a writer for strings. The value of a number is not kept.
-/

namespace Dataflow

inductive Json where
  | null
  | bool (b : Bool)
  | number
  /-- `none` when an escape names half of a surrogate pair, so that the string is no text. -/
  | string (s : Option String)
  | array (items : List Json)
  | object (fields : List (Option String × Json))
  deriving Repr, Inhabited

namespace Json

def isBlank (c : Char) : Bool :=
  c = ' ' || c = '\t' || c = '\n' || c = '\r'

def skipBlanks (cs : List Char) : List Char :=
  cs.dropWhile isBlank

def hexDigit? (c : Char) : Option Nat :=
  if '0' ≤ c ∧ c ≤ '9' then some (c.toNat - '0'.toNat)
  else if 'a' ≤ c ∧ c ≤ 'f' then some (c.toNat - 'a'.toNat + 10)
  else if 'A' ≤ c ∧ c ≤ 'F' then some (c.toNat - 'A'.toNat + 10)
  else none

/-- The code of a one-letter escape. -/
def escape? : Char → Option Nat
  | '"' => some 0x22
  | '\\' => some 0x5c
  | '/' => some 0x2f
  | 'b' => some 0x08
  | 'f' => some 0x0c
  | 'n' => some 0x0a
  | 'r' => some 0x0d
  | 't' => some 0x09
  | _ => none

/-- The codes of a string, from behind its opening quote to behind its closing one. An escape of
four digits gives a 16-bit unit. -/
def codes : List Char → Option (List Nat × List Char)
  | [] => none
  | '"' :: cs => some ([], cs)
  | '\\' :: 'u' :: a :: b :: c :: d :: cs => do
    let unit := [← hexDigit? a, ← hexDigit? b, ← hexDigit? c, ← hexDigit? d].foldl (16 * · + ·) 0
    let (rest, cs) ← codes cs
    return (unit :: rest, cs)
  | '\\' :: e :: cs => do
    let code ← escape? e
    let (rest, cs) ← codes cs
    return (code :: rest, cs)
  | c :: cs => do
    if c.toNat < 0x20 || c = '\\' then none
    let (rest, cs) ← codes cs
    return (c.toNat :: rest, cs)

def isHighSurrogate (n : Nat) : Bool :=
  0xd800 ≤ n && n < 0xdc00

def isLowSurrogate (n : Nat) : Bool :=
  0xdc00 ≤ n && n < 0xe000

/-- The characters of a list of codes, two surrogates joined into one. -/
def chars? : List Nat → Option (List Char)
  | [] => some []
  | [c] => if isHighSurrogate c || isLowSurrogate c then none else some [Char.ofNat c]
  | c :: d :: rest =>
    if isHighSurrogate c && isLowSurrogate d then
      (chars? rest).map (Char.ofNat (0x10000 + (c - 0xd800) * 0x400 + (d - 0xdc00)) :: ·)
    else if isHighSurrogate c || isLowSurrogate c then none
    else (chars? (d :: rest)).map (Char.ofNat c :: ·)

/-- A string, from behind its opening quote. -/
def string? (cs : List Char) : Option (Option String × List Char) := do
  let (cs, rest) ← codes cs
  return ((chars? cs).map String.ofList, rest)

/-- Skips one digit or more. -/
def digits? : List Char → Option (List Char)
  | c :: cs => if c.isDigit then some (cs.dropWhile Char.isDigit) else none
  | [] => none

/-- Skips the digits of a whole number, which has no leading zero. -/
def whole? : List Char → Option (List Char)
  | '0' :: cs => if cs.head?.any Char.isDigit then none else some cs
  | cs => digits? cs

def fraction? : List Char → Option (List Char)
  | '.' :: cs => digits? cs
  | cs => some cs

def exponent? : List Char → Option (List Char)
  | c :: cs =>
    if c = 'e' || c = 'E' then
      match cs with
      | s :: ds => if s = '+' || s = '-' then digits? ds else digits? cs
      | [] => none
    else some (c :: cs)
  | [] => some []

/-- Skips a number, from behind its sign. -/
def number? (cs : List Char) : Option (List Char) := do
  exponent? (← fraction? (← whole? cs))

mutual

/-- A value, from its first character or blanks before it. -/
def value? : Nat → List Char → Option (Json × List Char)
  | 0, _ => none
  | fuel + 1, cs =>
    match skipBlanks cs with
    | 'n' :: 'u' :: 'l' :: 'l' :: cs => some (null, cs)
    | 't' :: 'r' :: 'u' :: 'e' :: cs => some (bool true, cs)
    | 'f' :: 'a' :: 'l' :: 's' :: 'e' :: cs => some (bool false, cs)
    | '"' :: cs => do
      let (s, cs) ← string? cs
      return (string s, cs)
    | '[' :: cs =>
      match skipBlanks cs with
      | ']' :: cs => some (array [], cs)
      | cs => do
        let (items, cs) ← items? fuel cs
        return (array items, cs)
    | '\x7b' :: cs =>
      match skipBlanks cs with
      | '\x7d' :: cs => some (object [], cs)
      | cs => do
        let (fields, cs) ← fields? fuel cs
        return (object fields, cs)
    | '-' :: cs => (number? cs).map (number, ·)
    | c :: cs => if c.isDigit then (number? (c :: cs)).map (number, ·) else none
    | [] => none

/-- One item or more, up to the end of their array. -/
def items? : Nat → List Char → Option (List Json × List Char)
  | 0, _ => none
  | fuel + 1, cs => do
    let (item, cs) ← value? fuel cs
    match skipBlanks cs with
    | ']' :: cs => return ([item], cs)
    | ',' :: cs => do
      let (items, cs) ← items? fuel cs
      return (item :: items, cs)
    | _ => none

/-- One field or more, up to the end of their object. -/
def fields? : Nat → List Char → Option (List (Option String × Json) × List Char)
  | 0, _ => none
  | fuel + 1, cs =>
    match skipBlanks cs with
    | '"' :: cs => do
      let (key, cs) ← string? cs
      match skipBlanks cs with
      | ':' :: cs => do
        let (item, cs) ← value? fuel cs
        match skipBlanks cs with
        | '\x7d' :: cs => return ([(key, item)], cs)
        | ',' :: cs => do
          let (fields, cs) ← fields? fuel cs
          return ((key, item) :: fields, cs)
        | _ => none
      | _ => none
    | _ => none

end

/-- The document of a text. Every character opens at most one list and one value in it, which
bounds the depth of the reader. -/
def parse? (s : String) : Option Json := do
  let cs := s.toList
  let (v, rest) ← value? (2 * cs.length + 2) cs
  if (skipBlanks rest).isEmpty then return v else none

/-- A character inside a written string. -/
def quoteChar (c : Char) : String :=
  match c with
  | '"' => "\\\""
  | '\\' => "\\\\"
  | '\n' => "\\n"
  | '\r' => "\\r"
  | '\t' => "\\t"
  | c =>
    if c.toNat = 0x08 then "\\b"
    else if c.toNat = 0x0c then "\\f"
    else if c.toNat < 0x10 then "\\u000" ++ Hex.digits c.toNat
    else if c.toNat < 0x20 then "\\u00" ++ Hex.digits c.toNat
    else c.toString

/-- A string in quotes. Only quotes, backslashes and control characters are escaped. -/
def quote (s : String) : String :=
  "\"" ++ String.join (s.toList.map quoteChar) ++ "\""

/-- The only value under a key. -/
def field? (fields : List (Option String × Json)) (key : String) : Option Json :=
  match fields.filter fun f => f.1 = some key with
  | [(_, v)] => some v
  | _ => none

end Json

end Dataflow
