import NestedMatch.Json
import NestedMatch.Utf8

/-! The reader of JSON texts, strict in everything RFC 8259 asks for. Every reader takes characters
and gives what it read with the characters that follow. -/

namespace NestedMatch.Json

def isBlank (c : Char) : Bool := c = ' ' || c = '\t' || c = '\n' || c = '\r'

def skipBlanks (cs : List Char) : List Char := cs.dropWhile isBlank

/-- The characters of `word` at the front are taken off. -/
def dropWord : List Char → List Char → Option (List Char)
  | [], cs => some cs
  | _ :: _, [] => none
  | w :: word, c :: cs => if w = c then dropWord word cs else none

def hexDigit (c : Char) : Option Nat :=
  if '0' ≤ c ∧ c ≤ '9' then some (c.toNat - 48)
  else if 'a' ≤ c ∧ c ≤ 'f' then some (c.toNat - 87)
  else if 'A' ≤ c ∧ c ≤ 'F' then some (c.toNat - 55)
  else none

/-- Four hexadecimal digits. -/
def codeUnit : List Char → Option (Nat × List Char)
  | a :: b :: c :: d :: rest => do
    let a ← hexDigit a
    let b ← hexDigit b
    let c ← hexDigit c
    let d ← hexDigit d
    return (((a * 16 + b) * 16 + c) * 16 + d, rest)
  | _ => none

/-- The code units 0xD800 to 0xDBFF begin a pair. -/
def isHighSurrogate (u : Nat) : Bool := 0xD800 ≤ u && u ≤ 0xDBFF

/-- The code units 0xDC00 to 0xDFFF end a pair. -/
def isLowSurrogate (u : Nat) : Bool := 0xDC00 ≤ u && u ≤ 0xDFFF

/-- The second half of a surrogate pair, written like the first. -/
def lowSurrogate : List Char → Option (Nat × List Char)
  | '\\' :: 'u' :: rest => (codeUnit rest).filter fun unit => isLowSurrogate unit.1
  | _ => none

/-- The character of an escape by number. A surrogate must be half of a pair. -/
def numberedEscape (cs : List Char) : Option (Char × List Char) :=
  match codeUnit cs with
  | none => none
  | some (u, rest) =>
    if isHighSurrogate u then
      (lowSurrogate rest).map fun (v, rest) =>
        (Char.ofNat (0x10000 + (u - 0xD800) * 0x400 + (v - 0xDC00)), rest)
    else if isLowSurrogate u then none
    else some (Char.ofNat u, rest)

/-- The character that a letter after a backslash stands for. -/
def shortEscape (c : Char) : Option Char :=
  if c = '"' ∨ c = '\\' ∨ c = '/' then some c
  else if c = 'b' then some '\x08'
  else if c = 'f' then some '\x0c'
  else if c = 'n' then some '\n'
  else if c = 'r' then some '\r'
  else if c = 't' then some '\t'
  else none

/-- One character of a string, as it is or escaped. Control characters must be escaped. -/
def character : List Char → Option (Char × List Char)
  | [] => none
  | '\\' :: 'u' :: rest => numberedEscape rest
  | '\\' :: c :: rest => (shortEscape c).map fun e => (e, rest)
  | c :: rest => if c = '\\' ∨ c = '"' ∨ c.toNat < 0x20 then none else some (c, rest)

/-- The characters up to the closing quote. -/
def characters : Nat → List Char → Option (List Char × List Char)
  | 0, _ => none
  | _ + 1, '"' :: rest => some ([], rest)
  | n + 1, cs =>
    match character cs with
    | none => none
    | some (c, rest) => (characters n rest).map fun (text, rest) => (c :: text, rest)

def isDigit (c : Char) : Bool := '0' ≤ c && c ≤ '9'

/-- At least one digit. -/
def digits (cs : List Char) : Option (List Char × List Char) :=
  if cs.takeWhile isDigit = [] then none else some (cs.takeWhile isDigit, cs.dropWhile isDigit)

/-- Digits without a leading zero, or a zero. -/
def whole (cs : List Char) : Option (List Char × List Char) :=
  match cs with
  | '0' :: rest => some (['0'], rest)
  | _ => digits cs

/-- A point and digits, if there is a point. -/
def fraction : List Char → Option (List Char × List Char)
  | '.' :: rest => (digits rest).map fun (ds, rest) => ('.' :: ds, rest)
  | cs => some ([], cs)

/-- The sign of a power of ten and its digits. -/
def power : List Char → Option (List Char × List Char)
  | '+' :: rest => (digits rest).map fun (ds, rest) => ('+' :: ds, rest)
  | '-' :: rest => (digits rest).map fun (ds, rest) => ('-' :: ds, rest)
  | cs => digits cs

/-- A power of ten, if there is one. -/
def exponent : List Char → Option (List Char × List Char)
  | 'e' :: rest => (power rest).map fun (ds, rest) => ('e' :: ds, rest)
  | 'E' :: rest => (power rest).map fun (ds, rest) => ('E' :: ds, rest)
  | cs => some ([], cs)

def unsigned (cs : List Char) : Option (List Char × List Char) := do
  let (ds, cs) ← whole cs
  let (fs, cs) ← fraction cs
  let (es, cs) ← exponent cs
  return (ds ++ fs ++ es, cs)

/-- A number, as it is written. -/
def numeral : List Char → Option (List Char × List Char)
  | '-' :: rest => (unsigned rest).map fun (ds, rest) => ('-' :: ds, rest)
  | cs => unsigned cs

/-- The words `null`, `true` and `false`. -/
def word (cs : List Char) : Option (Json × List Char) :=
  match dropWord "null".toList cs with
  | some rest => some (.null, rest)
  | none =>
    match dropWord "true".toList cs with
    | some rest => some (.boolean true, rest)
    | none => (dropWord "false".toList cs).map fun rest => (.boolean false, rest)

/-- A word or a number. -/
def plain (cs : List Char) : Option (Json × List Char) :=
  (word cs).or ((numeral cs).map fun (ds, rest) => (.number (Utf8.encode ds), rest))

mutual

/-- A value. The number bounds the readers that call each other; one per character is enough. -/
def value : Nat → List Char → Option (Json × List Char)
  | 0, _ => none
  | n + 1, '"' :: rest => (characters n rest).map fun (text, rest) =>
    (.string (Utf8.encode text), rest)
  | n + 1, '[' :: rest =>
    match skipBlanks rest with
    | ']' :: rest => some (.array [], rest)
    | rest => (elements n rest).map fun (vs, rest) => (.array vs, rest)
  | n + 1, '\x7b' :: rest =>
    match skipBlanks rest with
    | '\x7d' :: rest => some (.object [], rest)
    | rest => (members n [] rest).map fun (ms, rest) => (.object ms, rest)
  | _ + 1, cs => plain cs

/-- The elements of an array from the first one on, up to the closing bracket. -/
def elements : Nat → List Char → Option (List Json × List Char)
  | 0, _ => none
  | n + 1, cs =>
    match value n cs with
    | none => none
    | some (v, rest) =>
      match skipBlanks rest with
      | ']' :: rest => some ([v], rest)
      | ',' :: rest => (elements n (skipBlanks rest)).map fun (vs, rest) => (v :: vs, rest)
      | _ => none

/-- The members of an object, up to the closing brace, put in among those read before. Of two
members with one name the later one counts. -/
def members : Nat → List (Bytes × Json) → List Char →
    Option (List (Bytes × Json) × List Char)
  | n + 1, before, '"' :: rest =>
    match characters n rest with
    | none => none
    | some (name, rest) =>
      match skipBlanks rest with
      | ':' :: rest =>
        match value n (skipBlanks rest) with
        | none => none
        | some (v, rest) =>
          match skipBlanks rest with
          | '\x7d' :: rest => some (Dict.insert (Utf8.encode name) v before, rest)
          | ',' :: rest =>
            members n (Dict.insert (Utf8.encode name) v before) (skipBlanks rest)
          | _ => none
      | _ => none
  | _, _, _ => none

end

/-- The value that the text is, with blanks around it allowed. -/
def ofText? (text : Bytes) : Option Json := do
  let cs ← Utf8.decode? text
  let (v, rest) ← value (cs.length + 1) (skipBlanks cs)
  if skipBlanks rest = [] then some v else none

end NestedMatch.Json
