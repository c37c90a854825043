import HdWallet.Bytes

/-!
# Hexadecimal text

Bytes are written as two lower-case digits each. Reading takes either case and
refuses an odd number of digits, so `decode?` undoes `encode` but a byte string
has more than one text.
-/

namespace HdWallet.Hex

def digit (n : Nat) : Char :=
  if n < 10 then Char.ofNat (48 + n) else Char.ofNat (87 + n)

def digitValue? (c : Char) : Option Nat :=
  if '0' ≤ c ∧ c ≤ '9' then some (c.toNat - 48)
  else if 'a' ≤ c ∧ c ≤ 'f' then some (c.toNat - 87)
  else if 'A' ≤ c ∧ c ≤ 'F' then some (c.toNat - 55)
  else none

def digits (bytes : Bytes) : List Char :=
  bytes.flatMap fun b => [digit (b.toNat / 16), digit (b.toNat % 16)]

def encode (bytes : Bytes) : String := String.ofList (digits bytes)

/-- The bytes that pairs of digits stand for. -/
def ofDigits? : List Char → Option Bytes
  | [] => some []
  | [_] => none
  | high :: low :: rest => do
    let h ← digitValue? high
    let l ← digitValue? low
    let bytes ← ofDigits? rest
    pure (UInt8.ofNat (16 * h + l) :: bytes)

/-- The bytes that a text stands for, if it is hexadecimal. -/
def decode? (text : String) : Option Bytes := ofDigits? text.toList

end HdWallet.Hex
