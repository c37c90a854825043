import HdWallet.Json.Value
import HdWallet.Text.Hex

/-!
# Reading JSON texts

A reader takes a value off the front of the characters and returns what follows.
Values nest, and each level of nesting takes one unit of fuel; a text cannot nest
deeper than it is long, so its length is enough. The grammar is the standard one:
four blank characters, no leading zeros or plus signs, no comma before a closing
bracket, no control character inside a string.
-/

namespace HdWallet.Json

/-- A reader of one kind of thing. -/
abbrev Reader (α : Type) := List Char → Option (α × List Char)

def isBlank (c : Char) : Bool := c == ' ' || c == '\t' || c == '\n' || c == '\r'

def skipBlanks (cs : List Char) : List Char := cs.dropWhile isBlank

def digits (cs : List Char) : List Char × List Char := cs.span Char.isDigit

/-- The digits at the front, of which there must be one. -/
def someDigits : Reader (List Char) := fun cs =>
  match digits cs with
  | ([], _) => none
  | (ds, rest) => some (ds, rest)

/-- An integer without leading zeros. -/
def integer : Reader Nat := fun cs => do
  let (ds, rest) ← someDigits cs
  if ds.head? = some '0' ∧ ds ≠ ['0'] then none
  else some (ds.foldl (fun n d => 10 * n + (d.toNat - 48)) 0, rest)

/-- A fraction, if there is one. The answer says whether there was. -/
def fraction : Reader Bool
  | '.' :: cs => (someDigits cs).map fun (_, rest) => (true, rest)
  | cs => some (false, cs)

/-- An exponent, if there is one. The answer says whether there was. -/
def exponent : Reader Bool
  | c :: cs =>
    if c = 'e' ∨ c = 'E' then
      let cs := match cs with
        | '+' :: rest | '-' :: rest => rest
        | _ => cs
      (someDigits cs).map fun (_, rest) => (true, rest)
    else some (false, c :: cs)
  | [] => some (false, [])

def unsigned : Reader (Option Nat) := fun cs => do
  let (n, cs) ← integer cs
  let (hasFraction, cs) ← fraction cs
  let (hasExponent, cs) ← exponent cs
  pure (if hasFraction || hasExponent then none else some n, cs)

def numeral : Reader (Option Nat)
  | '-' :: cs => (unsigned cs).map fun (_, rest) => (none, rest)
  | cs => unsigned cs

/-- The number that four hexadecimal digits write. -/
def fourDigits : Reader Nat
  | a :: b :: c :: d :: rest => do
    let ds ← [a, b, c, d].mapM Hex.digitValue?
    pure (ds.foldl (16 * · + ·) 0, rest)
  | _ => none

/-- What a backslash and a character stand for, unless that is `u`. -/
def simpleEscape? : Char → Option Char
  | '"' => some '"'
  | '\\' => some '\\'
  | '/' => some '/'
  | 'b' => some '\x08'
  | 'f' => some '\x0c'
  | 'n' => some '\n'
  | 'r' => some '\r'
  | 't' => some '\t'
  | _ => none

/-- The units of a string after its opening quote, each a code point or half of a
surrogate pair. At most `fuel` are read. -/
def units : (fuel : Nat) → Reader (List Nat)
  | 0, _ => none
  | _ + 1, [] => none
  | _ + 1, '"' :: cs => some ([], cs)
  | fuel + 1, '\\' :: 'u' :: cs => do
    let (unit, cs) ← fourDigits cs
    let (rest, cs) ← units fuel cs
    pure (unit :: rest, cs)
  | fuel + 1, '\\' :: c :: cs => do
    let c ← simpleEscape? c
    let (rest, cs) ← units fuel cs
    pure (c.toNat :: rest, cs)
  | fuel + 1, c :: cs =>
    if c.toNat < 32 ∨ c = '\\' then none
    else (units fuel cs).map fun (rest, cs) => (c.toNat :: rest, cs)

def isHighSurrogate (n : Nat) : Bool := 0xd800 ≤ n && n < 0xdc00

def isLowSurrogate (n : Nat) : Bool := 0xdc00 ≤ n && n < 0xe000

/-- The characters that units stand for, unless half of a pair stands alone. -/
def characters? : List Nat → Option (List Char)
  | [] => some []
  | high :: low :: rest =>
    if isHighSurrogate high then
      if isLowSurrogate low then
        let c := 0x10000 + (high - 0xd800) * 0x400 + (low - 0xdc00)
        (characters? rest).map (Char.ofNat c :: ·)
      else none
    else if isLowSurrogate high then none
    else (characters? (low :: rest)).map (Char.ofNat high :: ·)
  | [unit] => if isHighSurrogate unit || isLowSurrogate unit then none else some [Char.ofNat unit]

/-- A string after its opening quote, unless its escapes stand for none. -/
def quoted : Reader (Option String) := fun cs => do
  let (us, rest) ← units (cs.length + 1) cs
  pure ((characters? us).map String.ofList, rest)

/-- Things separated by commas, up to a closing character. At most `fuel` are read. -/
def separated {α : Type} (item : Reader α) (close : Char) : (fuel : Nat) → Reader (List α)
  | 0, _ => none
  | fuel + 1, cs => do
    let (a, cs) ← item cs
    match skipBlanks cs with
    | ',' :: cs => do
      let (rest, cs) ← separated item close fuel cs
      pure (a :: rest, cs)
    | c :: cs => if c = close then some ([a], cs) else none
    | [] => none

/-- Things separated by commas, or none at all, up to a closing character. -/
def sequence {α : Type} (item : Reader α) (close : Char) : Reader (List α) := fun cs =>
  match skipBlanks cs with
  | [] => none
  | c :: rest => if c = close then some ([], rest) else separated item close cs.length (c :: rest)

def member (value : Reader Json) : Reader (Option String × Json) := fun cs =>
  match skipBlanks cs with
  | '"' :: cs => do
    let (name, cs) ← quoted cs
    match skipBlanks cs with
    | ':' :: cs => do
      let (v, cs) ← value cs
      pure ((name, v), cs)
    | _ => none
  | _ => none

/-- A value, after any blanks. -/
def value : (fuel : Nat) → Reader Json
  | 0, _ => none
  | fuel + 1, cs =>
    match skipBlanks cs with
    | 'n' :: 'u' :: 'l' :: 'l' :: cs => some (null, cs)
    | 't' :: 'r' :: 'u' :: 'e' :: cs => some (bool true, cs)
    | 'f' :: 'a' :: 'l' :: 's' :: 'e' :: cs => some (bool false, cs)
    | '"' :: cs => (quoted cs).map fun (s, cs) => (text s, cs)
    | '[' :: cs => (sequence (value fuel) ']' cs).map fun (items, cs) => (list items, cs)
    | '\x7b' :: cs =>
      (sequence (member (value fuel)) '\x7d' cs).map fun (members, cs) => (object members, cs)
    | cs => (numeral cs).map fun (n, cs) => (number n, cs)

/-- The value that a text stands for, if it is well-formed. -/
def ofText? (text : String) : Option Json := do
  let cs := text.toList
  let (v, rest) ← value (cs.length + 1) cs
  if (skipBlanks rest).isEmpty then some v else none

end HdWallet.Json
