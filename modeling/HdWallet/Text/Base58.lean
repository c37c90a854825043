import HdWallet.Digest

/-!
# Base-58 text

A byte string is written as a number in base 58, without the digits and letters
that look alike, behind one `1` for each leading zero byte. The guarded form ends
in a checksum of the payload, and is read back only if the checksum agrees.
-/

namespace HdWallet.Base58

def alphabet : List Char :=
  "123456789ABCDEFGHJKLMNPQRSTUVWXYZabcdefghijkmnopqrstuvwxyz".toList

def digitValue? (c : Char) : Option Nat := alphabet.idxOf? c

/-- Digits of a number in a base, least significant first. At most `fuel` are taken. -/
def digitsIn (base : Nat) : (fuel : Nat) → Nat → List Nat
  | 0, _ => []
  | fuel + 1, n => if n = 0 then [] else n % base :: digitsIn base fuel (n / base)

/-- The text of a byte string. A byte takes less than one and a half digits. -/
def encode (bytes : Bytes) : String :=
  let zeros := bytes.takeWhile (· = 0)
  let digits := digitsIn 58 (2 * bytes.length) (Bytes.toNatBE bytes)
  String.ofList (zeros.map (fun _ => '1') ++ digits.reverse.map (alphabet.getD · '1'))

def decode? (text : String) : Option Bytes := do
  let values ← text.toList.mapM digitValue?
  let zeros := values.takeWhile (· = 0)
  let n := values.foldl (fun acc v => 58 * acc + v) 0
  let bytes := (digitsIn 256 values.length n).reverse.map UInt8.ofNat
  pure (zeros.map (fun _ => 0) ++ bytes)

def encodeGuarded (payload : Bytes) : String := encode (payload ++ Digest.checksum payload)

/-- The payload of a guarded text, if its checksum agrees. -/
def decodeGuarded? (text : String) : Option Bytes := do
  let bytes ← decode? text
  let size := bytes.length - 4
  let payload := bytes.take size
  if 4 ≤ bytes.length ∧ bytes.drop size = Digest.checksum payload then some payload else none

end HdWallet.Base58
