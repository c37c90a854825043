/-!
# Byte strings as numbers

A byte string is a list of bytes. Fixed-width numbers are written least
significant byte first (`ofNatLE`) or most significant byte first (`ofNatBE`),
and each reading undoes its writing.
-/

namespace HdWallet

abbrev Bytes := List UInt8

namespace Bytes

/-- The low `width` bytes of a number, least significant first. -/
def ofNatLE : Nat → Nat → Bytes
  | 0, _ => []
  | width + 1, n => UInt8.ofNat n :: ofNatLE width (n / 256)

/-- The number whose bytes these are, least significant first. -/
def toNatLE : Bytes → Nat
  | [] => 0
  | b :: rest => b.toNat + 256 * toNatLE rest

/-- The low `width` bytes of a number, most significant first. -/
def ofNatBE (width n : Nat) : Bytes := (ofNatLE width n).reverse

def toNatBE (bytes : Bytes) : Nat := toNatLE bytes.reverse

def count : Nat → Nat
  | 0 => 1
  | length + 1 => 256 * count length

@[simp] theorem length_ofNatLE (width n : Nat) : (ofNatLE width n).length = width := by
  induction width generalizing n with
  | zero => rfl
  | succ width ih => simp [ofNatLE, ih]

@[simp] theorem length_ofNatBE (width n : Nat) : (ofNatBE width n).length = width := by
  simp [ofNatBE]

theorem toNatLE_lt (bytes : Bytes) : toNatLE bytes < count bytes.length := by
  induction bytes with
  | nil => simp [toNatLE, count]
  | cons b rest ih =>
    have hb := b.toNat_lt
    simp only [toNatLE, List.length_cons, count]
    omega

theorem toNatLE_ofNatLE (width n : Nat) : toNatLE (ofNatLE width n) = n % count width := by
  induction width generalizing n with
  | zero => simp [ofNatLE, toNatLE, count, Nat.mod_one]
  | succ width ih =>
    have hn : (UInt8.ofNat n).toNat = n % 256 := by simp
    rw [ofNatLE, toNatLE, ih, hn, count, Nat.mod_mul]

theorem ofNatLE_toNatLE (bytes : Bytes) : ofNatLE bytes.length (toNatLE bytes) = bytes := by
  induction bytes with
  | nil => rfl
  | cons b rest ih =>
    have hb := b.toNat_lt
    have hdiv : (b.toNat + 256 * toNatLE rest) / 256 = toNatLE rest := by omega
    have hlow : UInt8.ofNat (b.toNat + 256 * toNatLE rest) = b := by
      apply UInt8.toNat_inj.mp
      simp only [UInt8.toNat_ofNat']
      omega
    simp [ofNatLE, toNatLE, hdiv, hlow, ih]

theorem toNatBE_ofNatBE (width n : Nat) : toNatBE (ofNatBE width n) = n % count width := by
  simp [toNatBE, ofNatBE, toNatLE_ofNatLE]

theorem ofNatBE_toNatBE (bytes : Bytes) : ofNatBE bytes.length (toNatBE bytes) = bytes := by
  have h := ofNatLE_toNatLE bytes.reverse
  simp only [List.length_reverse] at h
  simp [ofNatBE, toNatBE, h]

end Bytes

end HdWallet
