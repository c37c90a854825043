import HdWallet.Bytes

/-!
# Integers of variable length

An integer below 251 is one byte. A larger one is a marker, which tells how many
bytes follow, and its bytes, least significant first. Writing takes the shortest
form. Reading also takes longer ones, up to the width of the integer that is
wanted.
-/

namespace HdWallet.Varint

/-- The bytes of an integer of at most eight bytes. -/
def write (n : Nat) : Bytes :=
  if n < 251 then [UInt8.ofNat n]
  else if n < UInt16.size then 251 :: Bytes.ofNatLE 2 n
  else if n < UInt32.size then 252 :: Bytes.ofNatLE 4 n
  else 253 :: Bytes.ofNatLE 8 n

/-- The integer in the next `width` bytes, and what follows them. -/
def fixed? (width : Nat) (bytes : Bytes) : Option (Nat × Bytes) :=
  let head := bytes.take width
  if head.length = width then some (Bytes.toNatLE head, bytes.drop width) else none

/-- The integer of at most `width` bytes at the front, and what follows it. -/
def read? (width : Nat) : Bytes → Option (Nat × Bytes)
  | [] => none
  | marker :: rest =>
    if marker < 251 then some (marker.toNat, rest)
    else if marker = 251 then fixed? 2 rest
    else if marker = 252 then fixed? 4 rest
    else if marker = 253 ∧ 8 ≤ width then fixed? 8 rest
    else none

theorem fixed?_append (width n : Nat) (rest : Bytes) (h : n < Bytes.count width) :
    fixed? width (Bytes.ofNatLE width n ++ rest) = some (n, rest) := by
  have hlen := Bytes.length_ofNatLE width n
  have htake : (Bytes.ofNatLE width n ++ rest).take width = Bytes.ofNatLE width n := by
    rw [List.take_append_of_le_length (Nat.le_of_eq hlen.symm), List.take_of_length_le]
    exact Nat.le_of_eq hlen
  have hdrop : (Bytes.ofNatLE width n ++ rest).drop width = rest := by
    rw [List.drop_append_of_le_length (Nat.le_of_eq hlen.symm), List.drop_of_length_le,
      List.nil_append]
    exact Nat.le_of_eq hlen
  simp [fixed?, htake, hdrop, Bytes.toNatLE_ofNatLE, Nat.mod_eq_of_lt h]

end HdWallet.Varint
