import HdWallet.Proofs.Binary
import HdWallet.Snapshot.Binary

/-!
# Reading back a snapshot

What is written of a snapshot reads back as the snapshot, field by field and whatever stands
behind it. The version decides first: bytes that begin with a form of another version are
refused for it, whatever follows, and no other bytes are.
-/

namespace HdWallet

open BinaryForm

theorem Txid.readsBack (txid : Txid) : ReadsBack txid := by
  intro rest
  have length : txid.bytes.length = 32 := Bytes.length_ofNatBE 32 _
  change (if ((txid.bytes ++ rest).take 32).length = 32 then
    some (Txid.ofBytes ((txid.bytes ++ rest).take 32), (txid.bytes ++ rest).drop 32)
    else none) = some (txid, rest)
  rw [List.take_left' length, List.drop_left' length, if_pos length, Txid.ofBytes_bytes]

theorem OutPoint.readsBack (o : OutPoint) : ReadsBack o := by
  intro rest
  change (read? (write o.txid ++ write o.index ++ rest) >>= _) = _
  rw [List.append_assoc, (Txid.readsBack o.txid).bind]
  exact (readsBack_word o.index).bind rest _

theorem Script.readsBack {script : Script} (short : script.bytes.length < UInt64.size) :
    ReadsBack script := by
  intro rest
  change (read? (write script.bytes ++ rest)).map _ = _
  rw [readsBack_list (fun b _ => readsBack_byte b) short rest]
  rfl

theorem Output.readsBack {o : Output} (short : o.script.bytes.length < UInt64.size) :
    ReadsBack o := by
  intro rest
  change (read? (write o.value ++ write o.script ++ rest) >>= _) = _
  rw [List.append_assoc, (readsBack_doubleWord o.value).bind]
  exact (Script.readsBack short).bind rest _

/-- A coin reads back if the length of its script can be written. -/
theorem Coin.readsBack {c : Coin} (short : c.script.bytes.length < UInt64.size) : ReadsBack c := by
  intro rest
  change (read? (write c.outpoint ++ write c.output ++ rest) >>= _) = _
  rw [List.append_assoc, (OutPoint.readsBack c.outpoint).bind]
  exact (Output.readsBack short).bind rest _

/-- Each of the three cases of a reading is told by its number. -/
theorem Reading.readsBack (reading : Reading) : ReadsBack reading := by
  intro rest
  cases reading with
  | unknown => rfl
  | fresh balance updatedAt | stale balance updatedAt =>
      change (read? (write balance ++ write updatedAt ++ rest) >>= _) = _
      rw [List.append_assoc, (readsBack_doubleWord balance).bind]
      exact (readsBack_doubleWord updatedAt).bind rest _

theorem SavedSlot.readsBack (s : SavedSlot) : ReadsBack s := by
  intro rest
  change (read? (write s.index ++ write s.used ++ write s.reading ++ rest) >>= _) = _
  rw [List.append_assoc, List.append_assoc, (readsBack_word s.index).bind]
  exact ((readsBack_bool s.used).bind _ _).trans ((Reading.readsBack s.reading).bind rest _)

namespace Snapshot

/-- Every length in the snapshot can be written in 64 bits. Nothing longer fits into a
memory that such words address. -/
structure LengthsFit (s : Snapshot) : Prop where
  receiving : s.receiving.length < UInt64.size
  change : s.change.length < UInt64.size
  coins : s.coins.length < UInt64.size
  scripts : ∀ coin ∈ s.coins, coin.script.bytes.length < UInt64.size

theorem encode_eq (s : Snapshot) (rest : Bytes) :
    s.encode ++ rest =
      write s.version ++ (write s.receiving ++ (write s.change ++ (write s.coins ++ rest))) := by
  change write s.version ++ write s.receiving ++ write s.change ++ write s.coins ++ rest = _
  simp only [List.append_assoc]

theorem readsBack {s : Snapshot} (fits : s.LengthsFit) : ReadsBack s := by
  intro rest
  change (read? (s.encode ++ rest) >>= _) = _
  rw [encode_eq, (readsBack_word s.version).bind]
  have receiving := readsBack_list (fun slot _ => SavedSlot.readsBack slot) fits.receiving
  have change := readsBack_list (fun slot _ => SavedSlot.readsBack slot) fits.change
  have coins := readsBack_list (fun coin held => Coin.readsBack (fits.scripts coin held)) fits.coins
  exact ((receiving.bind _ _).trans (change.bind _ _)).trans (coins.bind rest _)

theorem decode_encode_append {s : Snapshot} (current : s.version = 1) (fits : s.LengthsFit)
    (rest : Bytes) : decode (s.encode ++ rest) = .ok s := by
  have version := readsBack_word s.version
    (write s.receiving ++ (write s.change ++ (write s.coins ++ rest)))
  rw [← encode_eq] at version
  have whole : (read? (s.encode ++ rest) : Option (Snapshot × Bytes)) = some (s, rest) :=
    readsBack fits rest
  rw [decode, version]
  simp only [current, snapshotVersion, ne_eq, not_true_eq_false, if_false, whole]

/-- Bytes are refused for a version exactly if they begin with a form of it. -/
theorem decode_eq_unsupported_iff {bytes : Bytes} {version : Nat} :
    decode bytes = .error (.unsupportedVersion version) ↔
      version ≠ 1 ∧ ∃ form rest, Varint.Form 4 version form ∧ bytes = form ++ rest := by
  constructor
  · intro h
    rw [decode] at h
    split at h
    next => cases h
    next found after read =>
        split at h
        next other =>
            cases h
            obtain ⟨form, hform, split⟩ := read?_word_eq_some_iff.mp read
            exact ⟨fun one => other (UInt32.toNat_inj.mp one), form, after, hform, split⟩
        next => split at h <;> cases h
  · rintro ⟨other, form, rest, hform, split⟩
    have same : (UInt32.ofNat version).toNat = version := UInt32.toNat_ofNat_of_lt' hform.lt_size
    have read : read? bytes = some (UInt32.ofNat version, rest) :=
      read?_word_eq_some_iff.mpr ⟨form, same.symm ▸ hform, split⟩
    have refused : UInt32.ofNat version ≠ snapshotVersion := by
      intro one
      exact other (same.symm.trans (congrArg UInt32.toNat one))
    rw [decode, read]
    simp only [ne_eq, refused, not_false_eq_true, if_true, same]

/-- A snapshot of the current version reads back with every field, one of another version is
refused for it, and so are exactly the bytes that begin with a form of that version. -/
theorem decode_spec :
    (∀ (s : Snapshot) (rest : Bytes), s.LengthsFit → s.version = 1 →
      decode (s.encode ++ rest) = .ok s) ∧
    (∀ (s : Snapshot) (rest : Bytes), s.version ≠ 1 →
      decode (s.encode ++ rest) = .error (.unsupportedVersion s.version.toNat)) ∧
    ∀ (bytes : Bytes) (version : Nat),
      decode bytes = .error (.unsupportedVersion version) ↔
        version ≠ 1 ∧ ∃ form rest, Varint.Form 4 version form ∧ bytes = form ++ rest := by
  refine ⟨fun s rest fits current => decode_encode_append current fits rest, ?_,
    fun bytes version => decode_eq_unsupported_iff⟩
  intro s rest other
  rw [decode_eq_unsupported_iff]
  refine ⟨fun one => other (UInt32.toNat_inj.mp one), Varint.write s.version.toNat, _, ?_,
    s.encode_eq rest⟩
  exact Varint.form_write (.inl s.version.toNat_lt)

/-- A snapshot whose integers and lengths lie on both sides of the limits between the forms,
with every kind of reading. -/
def atWidths : Snapshot where
  version := 1
  receiving := [⟨250, true, .unknown⟩, ⟨251, false, .fresh 65535 65536⟩,
    ⟨65535, true, .stale 4294967295 4294967296⟩]
  change := [⟨65536, false, .fresh 0 18446744073709551615⟩, ⟨4294967295, true, .stale 250 251⟩]
  coins := [⟨⟨⟨0⟩, 250⟩, ⟨251, ⟨List.replicate 250 0x51⟩⟩⟩,
    ⟨⟨⟨1⟩, 65536⟩, ⟨4294967296, ⟨List.replicate 65536 0x51⟩⟩⟩, ⟨⟨⟨2⟩, 0⟩, ⟨0, ⟨[]⟩⟩⟩]

theorem lengthsFit_atWidths : atWidths.LengthsFit where
  receiving := by decide
  change := by decide
  coins := by decide
  scripts := by
    simp only [atWidths, List.forall_mem_cons, Coin.script, List.length_replicate]
    decide

/-- The snapshot at the limits reads back, also with bytes behind it; with version 9 it is
refused, and so is version 5 written longer than necessary, with nothing readable behind. -/
theorem decode_spec_at_widths :
    decode (atWidths.encode ++ [7, 7, 7]) = .ok atWidths ∧
    decode (({ atWidths with version := 9 } : Snapshot).encode ++ []) =
      .error (.unsupportedVersion 9) ∧
    decode [251, 5, 0, 255] = .error (.unsupportedVersion 5) :=
  ⟨decode_spec.1 atWidths _ lengthsFit_atWidths rfl,
    decode_spec.2.1 { atWidths with version := 9 } _ (by decide),
    (decode_spec.2.2 _ _).mpr ⟨by decide, [251, 5, 0], [255],
      (.two rfl : Varint.Form 4 (Bytes.toNatLE [5, 0]) [251, 5, 0]), rfl⟩⟩

end Snapshot

end HdWallet
