import HdWallet.Binary.Form

/-!
# Reading back what was written

An integer may be written in several forms, of which the writer takes the shortest. The
reader takes exactly these forms off the front of a byte string, as far as its width allows,
and leaves what follows alone. Values made of integers therefore read back whatever stands
behind them, and a list does so if its elements do and its length fits the 64 bits that are
written of it.
-/

namespace HdWallet

namespace Varint

/-- The byte strings that stand for an integer where one of at most `width` bytes is
wanted. -/
inductive Form (width : Nat) : Nat → Bytes → Prop where
  | byte {b : UInt8} (small : b < 251) : Form width b.toNat [b]
  | two {bytes : Bytes} (length : bytes.length = 2) :
    Form width (Bytes.toNatLE bytes) (251 :: bytes)
  | four {bytes : Bytes} (length : bytes.length = 4) :
    Form width (Bytes.toNatLE bytes) (252 :: bytes)
  | eight {bytes : Bytes} (length : bytes.length = 8) (wide : 8 ≤ width) :
    Form width (Bytes.toNatLE bytes) (253 :: bytes)

theorem fixed?_eq_some_iff {width n : Nat} {bytes rest : Bytes} :
    fixed? width bytes = some (n, rest) ↔
      ∃ head, head.length = width ∧ bytes = head ++ rest ∧ Bytes.toNatLE head = n := by
  constructor
  · intro h
    simp only [fixed?] at h
    split at h
    next length =>
        cases h
        exact ⟨_, length, (List.take_append_drop width bytes).symm, rfl⟩
    next => cases h
  · rintro ⟨head, rfl, rfl, rfl⟩
    have written := Bytes.ofNatLE_toNatLE head
    have read := fixed?_append head.length _ rest (Bytes.toNatLE_lt head)
    rwa [written] at read

/-- Reading takes a form off the front, and nothing that is not a form. -/
theorem read?_eq_some_iff {width n : Nat} {bytes rest : Bytes} :
    read? width bytes = some (n, rest) ↔ ∃ form, Form width n form ∧ bytes = form ++ rest := by
  constructor
  · intro h
    cases bytes with
    | nil => cases h
    | cons marker tail =>
        rw [read?] at h
        split at h
        next small =>
            cases h
            exact ⟨[marker], .byte small, rfl⟩
        next =>
            split at h
            next two =>
                obtain ⟨head, length, rfl, rfl⟩ := fixed?_eq_some_iff.mp h
                exact ⟨251 :: head, .two length, by rw [two]; rfl⟩
            next =>
                split at h
                next four =>
                    obtain ⟨head, length, rfl, rfl⟩ := fixed?_eq_some_iff.mp h
                    exact ⟨252 :: head, .four length, by rw [four]; rfl⟩
                next =>
                    split at h
                    next eight =>
                        obtain ⟨head, length, rfl, rfl⟩ := fixed?_eq_some_iff.mp h
                        exact ⟨253 :: head, .eight length eight.2, by rw [eight.1]; rfl⟩
                    next => cases h
  · rintro ⟨form, hform, rfl⟩
    have fixed {k : Nat} {head : Bytes} (length : head.length = k) :
        fixed? k (head ++ rest) = some (Bytes.toNatLE head, rest) :=
      fixed?_eq_some_iff.mpr ⟨head, length, rfl, rfl⟩
    cases hform with
    | byte small => rw [List.singleton_append, read?, if_pos small]
    | two length => exact fixed length
    | four length => exact fixed length
    | @eight bytes length wide =>
        have marked : read? width (253 :: bytes ++ rest) =
            if (253 : UInt8) = 253 ∧ 8 ≤ width then fixed? 8 (bytes ++ rest) else none := rfl
        rw [marked, if_pos ⟨rfl, wide⟩, fixed length]

/-- The writer's bytes are a form of the integer. -/
theorem form_write {width n : Nat} (fits : n < UInt32.size ∨ 8 ≤ width ∧ n < UInt64.size) :
    Form width n (write n) := by
  -- The bytes of a marked form stand for the integer as long as it is below their count.
  have exact {k size : Nat} (below : n < size) (count : size = Bytes.count k) :
      Bytes.toNatLE (Bytes.ofNatLE k n) = n := by
    rw [Bytes.toNatLE_ofNatLE, Nat.mod_eq_of_lt (count ▸ below)]
  rw [write]
  split
  next small =>
      have same : (UInt8.ofNat n).toNat = n := UInt8.toNat_ofNat_of_lt' (by
        have : 251 < UInt8.size := by decide
        omega)
      have form : Form width (UInt8.ofNat n).toNat [UInt8.ofNat n] :=
        .byte (UInt8.lt_iff_toNat_lt.mpr (by rw [same]; exact small))
      rwa [same] at form
  next =>
      split
      next two =>
          have form : Form width _ (251 :: Bytes.ofNatLE 2 n) := .two (Bytes.length_ofNatLE 2 n)
          rwa [exact two (by decide)] at form
      next =>
          split
          next four =>
              have form : Form width _ (252 :: Bytes.ofNatLE 4 n) :=
                .four (Bytes.length_ofNatLE 4 n)
              rwa [exact four (by decide)] at form
          next large =>
              obtain ⟨wide, eight⟩ := fits.resolve_left large
              have form : Form width _ (253 :: Bytes.ofNatLE 8 n) :=
                .eight (Bytes.length_ofNatLE 8 n) wide
              rwa [exact eight (by decide)] at form

theorem read?_write {width n : Nat} (fits : n < UInt32.size ∨ 8 ≤ width ∧ n < UInt64.size)
    (rest : Bytes) : read? width (write n ++ rest) = some (n, rest) :=
  read?_eq_some_iff.mpr ⟨_, form_write fits, rfl⟩

/-- A form for at most four bytes stands for a word of 32 bits. -/
theorem Form.lt_size {n : Nat} {form : Bytes} (h : Form 4 n form) : n < UInt32.size := by
  have bound {k : Nat} {bytes : Bytes} (length : bytes.length = k)
      (narrow : Bytes.count k ≤ UInt32.size) : Bytes.toNatLE bytes < UInt32.size :=
    Nat.lt_of_lt_of_le (length ▸ Bytes.toNatLE_lt bytes) narrow
  cases h with
  | @byte b _ =>
      have := b.toNat_lt
      have : 2 ^ 8 ≤ UInt32.size := by decide
      omega
  | two length => exact bound length (by decide)
  | four length => exact bound length (by decide)
  | eight _ wide => exact absurd wide (by decide)

end Varint

namespace BinaryForm

variable {α : Type} [BinaryForm α]

/-- What is written of the value reads back, whatever stands behind it. -/
def ReadsBack (a : α) : Prop := ∀ rest, read? (write a ++ rest) = some (a, rest)

/-- A reader that begins with the value goes on behind it. -/
theorem ReadsBack.bind {β : Type} {a : α} (h : ReadsBack a) (rest : Bytes)
    (next : α × Bytes → Option β) : (read? (write a ++ rest) >>= next) = next (a, rest) := by
  rw [h rest]
  rfl

theorem readsBack_byte (b : UInt8) : ReadsBack b := fun _ => rfl

theorem readsBack_word (n : UInt32) : ReadsBack n := by
  intro rest
  change (Varint.read? 4 (Varint.write n.toNat ++ rest)).map _ = _
  rw [Varint.read?_write (.inl n.toNat_lt)]
  simp only [Option.map_some, UInt32.ofNat_toNat]

/-- A word is read off any of its forms. -/
theorem read?_word_eq_some_iff {n : UInt32} {bytes rest : Bytes} :
    read? bytes = some (n, rest) ↔ ∃ form, Varint.Form 4 n.toNat form ∧ bytes = form ++ rest := by
  change (Varint.read? 4 bytes).map _ = _ ↔ _
  constructor
  · intro h
    obtain ⟨⟨m, after⟩, read, same⟩ := Option.map_eq_some_iff.mp h
    obtain ⟨form, hform, split⟩ := Varint.read?_eq_some_iff.mp read
    cases same
    refine ⟨form, ?_, split⟩
    rwa [UInt32.toNat_ofNat_of_lt' hform.lt_size]
  · rintro ⟨form, hform, split⟩
    rw [Varint.read?_eq_some_iff.mpr ⟨form, hform, split⟩]
    simp only [Option.map_some, UInt32.ofNat_toNat]

theorem readsBack_doubleWord (n : UInt64) : ReadsBack n := by
  intro rest
  change (Varint.read? 8 (Varint.write n.toNat ++ rest)).map _ = _
  rw [Varint.read?_write (.inr ⟨Nat.le_refl 8, n.toNat_lt⟩)]
  simp only [Option.map_some, UInt64.ofNat_toNat]

theorem readsBack_bool (b : Bool) : ReadsBack b := by
  intro rest
  cases b <;> rfl

theorem readMany?_write {values : List α} (each : ∀ a ∈ values, ReadsBack a) (rest : Bytes) :
    readMany? values.length (values.flatMap write ++ rest) = some (values, rest) := by
  induction values with
  | nil => rfl
  | cons a values ih =>
      rw [List.length_cons, readMany?, List.flatMap_cons, List.append_assoc,
        each a List.mem_cons_self]
      simp only [Option.bind_eq_bind, Option.bind_some]
      rw [ih fun b hb => each b (List.mem_cons_of_mem a hb)]
      rfl

/-- A list reads back if its elements do and its length can be written. -/
theorem readsBack_list {values : List α} (each : ∀ a ∈ values, ReadsBack a)
    (short : values.length < UInt64.size) : ReadsBack values := by
  intro rest
  change (Varint.read? 8 (Varint.write values.length ++ values.flatMap write ++ rest)).bind _ = _
  rw [List.append_assoc, Varint.read?_write (.inr ⟨Nat.le_refl 8, short⟩), Option.bind_some]
  exact readMany?_write each rest

end BinaryForm

end HdWallet
