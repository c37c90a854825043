import HdWallet.Proofs.ExtendedKey
import HdWallet.Proofs.Step

/-!
# Watching and spending the same addresses

An account's spending key and its public view yield the same addresses, although addresses are
derived from public keys and signing keys from private ones. What carries this over is that the
branch keys below the two mirror each other (`BranchKeys.Mirrors`): each branch key to watch is
the view of the one to spend from. The main statement `BranchKeys.watching_agrees` says it of
every library that can be relied on and of every path, and that each address pays to the public
key of its own signing key.
-/

namespace HdWallet

namespace BranchKeys

theorem eq_ok_of_orFail {α : Type} {result : Except String α} {a : α}
    (succeeds : orFail result = .ok a) : result = .ok a := by
  cases result with
  | error words => cases succeeds
  | ok b => exact congrArg _ (Except.ok.inj succeeds)

section Library

variable [KeyLibrary]

open KeyLibrary (Private)

/-- The keys to spend from are children of the account's key, and the keys to watch are their
views. -/
structure Mirrors (account : Private) (view keys : BranchKeys) : Prop where
  version : view.version = keys.version
  key (branch : Branch) : ∃ number key,
    KeyLibrary.child branch.number false = .ok number ∧
    KeyLibrary.derivePrivate account number = .ok key ∧
    keys.key branch = .spend key ∧ view.key branch = .watch (KeyLibrary.view key)

theorem libraryChild_normal (index : UInt32) :
    libraryChild (.normal index) =
      (KeyLibrary.child index false).mapError fun words =>
        .derivation ("child " ++ toString index.toNat ++ ": " ++ words) := rfl

theorem branchKey_eq (account : AccountKey) (branch : Branch) :
    branchKey account branch = (libraryChild (.normal branch.number)).bind fun number =>
      match account with
      | .watch key => (orFail (KeyLibrary.derivePublic key number)).map .watch
      | .spend key => (orFail (KeyLibrary.derivePrivate key number)).map .spend := by
  cases account <;> cases branch <;> rfl

theorem ofAccountKey_eq (key : AccountKey) (version : UInt8) :
    ofAccountKey key version = (branchKey key .receiving).bind fun receiving =>
      (branchKey key .change).map fun change => ⟨receiving, change, version⟩ := rfl

/-- Below a private key and its view, the key of a branch is missing alike, or the one is the
view of the other. -/
theorem branchKey_cases (lawful : KeyLibrary.Lawful) (account : Private) (branch : Branch) :
    (∃ e, branchKey (.spend account) branch = .error e ∧
      branchKey (.watch (KeyLibrary.view account)) branch = .error e) ∨
    ∃ number key, KeyLibrary.child branch.number false = .ok number ∧
      KeyLibrary.derivePrivate account number = .ok key ∧
      branchKey (.spend account) branch = .ok (.spend key) ∧
      branchKey (.watch (KeyLibrary.view account)) branch =
        .ok (.watch (KeyLibrary.view key)) := by
  rw [branchKey_eq, branchKey_eq, libraryChild_normal]
  cases numbered : KeyLibrary.child branch.number false with
  | error words => exact .inl ⟨_, rfl, rfl⟩
  | ok number =>
      simp only [Except.mapError, Except.bind]
      rw [lawful.derivePublic_view account numbered]
      cases derived : KeyLibrary.derivePrivate account number with
      | error words => exact .inl ⟨_, rfl, rfl⟩
      | ok key => exact .inr ⟨number, key, rfl, derived, rfl, rfl⟩

/-- Below a private key and its view there are branch keys that mirror each other, or they are
missing alike. -/
theorem ofAccountKey_mirrors (lawful : KeyLibrary.Lawful) (account : Private) (version : UInt8) :
    match ofAccountKey (.spend account) version with
    | .error e => ofAccountKey (.watch (KeyLibrary.view account)) version = .error e
    | .ok keys => ∃ view,
        ofAccountKey (.watch (KeyLibrary.view account)) version = .ok view ∧
        keys.version = version ∧ Mirrors account view keys := by
  rw [ofAccountKey_eq, ofAccountKey_eq]
  obtain ⟨e, lacking, shownLacking⟩ | ⟨number₀, key₀, child₀, below₀, spend₀, watch₀⟩ :=
    branchKey_cases lawful account .receiving
  · rw [lacking, shownLacking]
    rfl
  obtain ⟨e, lacking, shownLacking⟩ | ⟨number₁, key₁, child₁, below₁, spend₁, watch₁⟩ :=
    branchKey_cases lawful account .change
  · rw [spend₀, watch₀, lacking, shownLacking]
    rfl
  rw [spend₀, watch₀, spend₁, watch₁]
  refine ⟨_, rfl, rfl, rfl, fun branch => ?_⟩
  cases branch with
  | receiving => exact ⟨number₀, key₀, child₀, below₀, rfl, rfl⟩
  | change => exact ⟨number₁, key₁, child₁, below₁, rfl, rfl⟩

theorem derive_eq (keys : BranchKeys) (path : Path) :
    keys.derive path = (pathChild path).bind fun child =>
      (orFail (KeyLibrary.derivePublic (keys.key path.branch).view child)).map fun key =>
        payToKeyHash keys.version (KeyLibrary.publicBytes key) := rfl

theorem signingKey_eq {keys : BranchKeys} {path : Path} {key : Private}
    (spend : keys.key path.branch = .spend key) :
    keys.signingKey path = (pathChild path).bind fun child =>
      (orFail (KeyLibrary.derivePrivate key child)).bind fun below =>
        orFail (KeyLibrary.signingKey (KeyLibrary.privateBytes below)) := by
  rw [signingKey, spend]
  rfl

/-- An index with the hardened bit names no child. -/
theorem pathChild_of_hardened {path : Path} (marked : path.index &&& hardenedBit ≠ 0) :
    pathChild path = .error (.invalidChildNumber path.index.toNat) := by
  rw [pathChild, ChildNumber.normal?, if_neg marked]
  rfl

theorem child_of_pathChild {path : Path} {child : KeyLibrary.Child}
    (named : pathChild path = .ok child) : KeyLibrary.child path.index false = .ok child := by
  by_cases normal : path.index &&& hardenedBit = 0
  · have unmarked : pathChild path = libraryChild (.normal path.index) := by
      rw [pathChild, ChildNumber.normal?, if_pos normal]
      rfl
    rw [unmarked, libraryChild_normal] at named
    cases numbered : KeyLibrary.child path.index false with
    | error words =>
        rw [numbered] at named
        cases named
    | ok number =>
        rw [numbered] at named
        exact congrArg _ (Except.ok.inj named)
  · rw [pathChild_of_hardened normal] at named
    cases named

namespace Mirrors

variable {account : Private} {view keys : BranchKeys}

theorem derive (mirrors : Mirrors account view keys) (path : Path) :
    view.derive path = keys.derive path := by
  obtain ⟨_, key, _, _, spend, watch⟩ := mirrors.key path.branch
  have same : (view.key path.branch).view = (keys.key path.branch).view := by
    rw [spend, watch]
    rfl
  rw [derive_eq, derive_eq, same, mirrors.version]

theorem signingKey (mirrors : Mirrors account view keys) (path : Path) :
    view.signingKey path = .error .watchOnly := by
  obtain ⟨_, _, _, _, _, watch⟩ := mirrors.key path.branch
  rw [BranchKeys.signingKey, watch]

/-- At a path the account has no descendant, and then there is neither address nor signing key for
the same reason. Or it has one, to which the address pays and whose bytes are the signing key. -/
theorem descendant (mirrors : Mirrors account view keys) (lawful : KeyLibrary.Lawful)
    (path : Path) :
    (∃ e, keys.derive path = .error e ∧ keys.signingKey path = .error e) ∨
    ∃ number key child below, KeyLibrary.child path.branch.number false = .ok number ∧
      KeyLibrary.derivePrivate account number = .ok key ∧
      KeyLibrary.child path.index false = .ok child ∧
      KeyLibrary.derivePrivate key child = .ok below ∧
      keys.derive path = .ok (payToKeyHash keys.version
        (KeyLibrary.publicBytes (KeyLibrary.view below))) ∧
      keys.signingKey path = orFail (KeyLibrary.signingKey (KeyLibrary.privateBytes below)) := by
  obtain ⟨number, key, numbered, derived, spend, -⟩ := mirrors.key path.branch
  rw [signingKey_eq spend, derive_eq, spend, AccountKey.view]
  cases named : pathChild path with
  | error e => exact .inl ⟨e, rfl, rfl⟩
  | ok child =>
      have child_eq := child_of_pathChild named
      simp only [Except.bind]
      rw [lawful.derivePublic_view key child_eq]
      cases below : KeyLibrary.derivePrivate key child with
      | error words => exact .inl ⟨_, rfl, rfl⟩
      | ok descendant =>
          exact .inr ⟨number, key, child, descendant, numbered, derived, child_eq, below, rfl, rfl⟩

theorem hardened (mirrors : Mirrors account view keys) {path : Path}
    (marked : path.index &&& hardenedBit ≠ 0) :
    keys.derive path = .error (.invalidChildNumber path.index.toNat) ∧
      keys.signingKey path = .error (.invalidChildNumber path.index.toNat) := by
  obtain ⟨_, _, _, _, spend, _⟩ := mirrors.key path.branch
  rw [signingKey_eq spend, derive_eq, pathChild_of_hardened marked]
  exact ⟨rfl, rfl⟩

end Mirrors

/-- What the keys to watch an account and the keys to spend from it make of one path. -/
structure AgreesAt (account : Private) (view keys : BranchKeys) (version : UInt8)
    (path : Path) : Prop where
  /-- Both derive the same address, or fail alike. -/
  derive : view.derive path = keys.derive path
  /-- The address pays to the public key of the signing key. -/
  pays {signing : SigningKey} : keys.signingKey path = .ok signing →
    keys.derive path = .ok (payToKeyHash version (KeyLibrary.publicKeyOf signing))
  /-- The signing key has the bytes of the account's descendant. -/
  descends {signing : SigningKey} : keys.signingKey path = .ok signing →
    ∃ number key child below, KeyLibrary.child path.branch.number false = .ok number ∧
      KeyLibrary.derivePrivate account number = .ok key ∧
      KeyLibrary.child path.index false = .ok child ∧
      KeyLibrary.derivePrivate key child = .ok below ∧
      KeyLibrary.signingKey (KeyLibrary.privateBytes below) = .ok signing
  /-- Without an address there is no signing key, for the same reason. -/
  fails {e : Failure} : keys.derive path = .error e → keys.signingKey path = .error e
  /-- Where the library takes the bytes of every private key for a signing key, each address can
  be spent from. -/
  spends {derived : Derived} :
    (∀ key, ∃ signing, KeyLibrary.signingKey (KeyLibrary.privateBytes key) = .ok signing) →
    keys.derive path = .ok derived → ∃ signing, keys.signingKey path = .ok signing
  /-- An index with the hardened bit has neither. -/
  hardened : path.index &&& hardenedBit ≠ 0 →
    keys.derive path = .error (.invalidChildNumber path.index.toNat) ∧
      keys.signingKey path = .error (.invalidChildNumber path.index.toNat)
  /-- The keys to watch have no signing keys. -/
  watches : view.signingKey path = .error .watchOnly

theorem Mirrors.agreesAt {account : Private} {view keys : BranchKeys}
    (mirrors : Mirrors account view keys) (lawful : KeyLibrary.Lawful) (path : Path) :
    AgreesAt account view keys keys.version path := by
  obtain ⟨e, lacking, unsigned⟩ |
      ⟨number, key, child, below, numbered, derived, named, found, address, signs⟩ :=
    mirrors.descendant lawful path
  · exact {
      derive := mirrors.derive path
      pays := fun signed => by rw [unsigned] at signed; cases signed
      descends := fun signed => by rw [unsigned] at signed; cases signed
      fails := fun failed => by
        rw [lacking] at failed
        exact unsigned.trans (congrArg _ (Except.error.inj failed))
      spends := fun _ known => by rw [lacking] at known; cases known
      hardened := mirrors.hardened
      watches := mirrors.signingKey path }
  · exact {
      derive := mirrors.derive path
      pays := fun signed => by
        rw [signs] at signed
        rw [address, lawful.publicKeyOf_signingKey (eq_ok_of_orFail signed)]
      descends := fun signed => by
        rw [signs] at signed
        exact ⟨number, key, child, below, numbered, derived, named, found, eq_ok_of_orFail signed⟩
      fails := fun failed => by rw [address] at failed; cases failed
      spends := fun read _ => by
        obtain ⟨signing, read⟩ := read below
        exact ⟨signing, by rw [signs, read]; rfl⟩
      hardened := mirrors.hardened
      watches := mirrors.signingKey path }

/-- With a library that can be relied on, the branch keys below a private account key and below
its public view are missing alike, or agree at every path. -/
theorem watching_agrees (lawful : KeyLibrary.Lawful) (account : Private) (version : UInt8) :
    match ofAccountKey (.spend account) version with
    | .error e => ofAccountKey (.watch (AccountKey.spend account).view) version = .error e
    | .ok keys => ∃ view,
        ofAccountKey (.watch (AccountKey.spend account).view) version = .ok view ∧
        ∀ path, AgreesAt account view keys version path := by
  have mirrored := ofAccountKey_mirrors lawful account version
  cases spend : ofAccountKey (.spend account) version with
  | error e =>
      rw [spend] at mirrored
      exact mirrored
  | ok keys =>
      rw [spend] at mirrored
      obtain ⟨view, watch, rfl, mirrors⟩ := mirrored
      exact ⟨view, watch, fun path => mirrors.agreesAt lawful path⟩

end Library

/-- The account's key of scalar one on secp256k1, three levels below a master key: the address at
one path, the signing key that it can be spent with, and an index with the hardened bit. -/
theorem watching_unit_scalar :
    let origin : KeyOrigin := ⟨3, [0, 0, 0, 0], hardenedBit, List.replicate 32 0⟩
    let path : Path := ⟨44, 5, 0, .receiving, 4⟩
    let beyond : Path := { path with index := hardenedBit }
    let signing : SigningKey := ⟨[
      76, 164, 70, 158, 78, 106, 167, 52, 191, 176, 40, 146, 100, 35, 17, 114,
      1, 63, 33, 181, 211, 47, 132, 166, 77, 97, 123, 123, 96, 245, 207, 234]⟩
    let address : Derived := {
      address := ⟨"XqU423Dwga7LR2WQCYVur9mnkRv1winNpt"⟩
      script := .payToKeyHash [
        162, 30, 166, 205, 252, 205, 166, 76, 198, 171,
        64, 85, 76, 249, 45, 71, 192, 39, 111, 202] }
    KeyLibrary.Lawful ∧ ∃ account : ExtendedPrivateKey,
      ExtendedPrivateKey.ofScalar 1 origin = .ok account ∧
      ∃ keys view, ofAccountKey (.spend account) mainNetwork = .ok keys ∧
        ofAccountKey (.watch (AccountKey.spend account).view) mainNetwork = .ok view ∧
        (∀ path, AgreesAt account view keys mainNetwork path) ∧
        keys.signingKey path = .ok signing ∧ keys.derive path = .ok address ∧
        view.derive path = .ok address ∧
        keys.derive beyond = .error (.invalidChildNumber 0x80000000) := by
  intro origin path beyond signing address
  have made : (ExtendedPrivateKey.ofScalar 1 origin).toOption.any fun account =>
      (ofAccountKey (.spend account) mainNetwork).toOption.any fun keys =>
        keys.signingKey path = .ok signing := by
    decide +kernel
  have paid : payToKeyHash mainNetwork (KeyLibrary.publicKeyOf signing) = address := by
    decide +kernel
  obtain ⟨account, made, found⟩ := Step.exists_ok_of_any made
  obtain ⟨keys, spend, signs⟩ := Step.exists_ok_of_any found
  have agrees := watching_agrees KeyLibrary.secp256k1.lawful account mainNetwork
  rw [spend] at agrees
  obtain ⟨view, watch, agrees⟩ := agrees
  have signs := of_decide_eq_true signs
  have known := (agrees path).pays signs
  rw [paid] at known
  exact ⟨KeyLibrary.secp256k1.lawful, account, made, keys, view, spend, watch, agrees, signs, known,
    (agrees path).derive.trans known, ((agrees beyond).hardened (by decide)).1⟩

end BranchKeys

end HdWallet
