import HdWallet.Json.Reader
import HdWallet.Json.Records
import HdWallet.KeySource.Extended
import HdWallet.KeySource.Scripted
import HdWallet.Scripted.Session
import HdWallet.Snapshot.Binary
import HdWallet.Proofs.Account.Answers
import HdWallet.Proofs.Account.Balances
import HdWallet.Proofs.Account.Change
import HdWallet.Proofs.Account.Claims
import HdWallet.Proofs.Account.Coherence
import HdWallet.Proofs.Account.Completion
import HdWallet.Proofs.Account.Conservation
import HdWallet.Proofs.Account.CutShort
import HdWallet.Proofs.Account.GapLimits
import HdWallet.Proofs.Account.Marks
import HdWallet.Proofs.Account.OwnSnapshot
import HdWallet.Proofs.Account.Pass
import HdWallet.Proofs.Account.Planning
import HdWallet.Proofs.Account.Receiving
import HdWallet.Proofs.Account.Refresh
import HdWallet.Proofs.Account.Reload
import HdWallet.Proofs.Account.Requests
import HdWallet.Proofs.Account.Reserved
import HdWallet.Proofs.Account.Resync
import HdWallet.Proofs.Account.Scan
import HdWallet.Proofs.Account.Spent
import HdWallet.Proofs.Account.SpentBalances
import HdWallet.Proofs.Keychain.Dependable
import HdWallet.Proofs.Keychain.Marking
import HdWallet.Proofs.Keychain.Orderly
import HdWallet.Proofs.Keychain.Unused
import HdWallet.Proofs.Ledger.FiniteMap
import HdWallet.Proofs.Retry.Attempts
import HdWallet.Proofs.Selection.ChangeOutput
import HdWallet.Proofs.Selection.Comparison
import HdWallet.Proofs.Selection.Greedy
import HdWallet.Proofs.Selection.Loop
import HdWallet.Proofs.Selection.Order
import HdWallet.Proofs.Selection.Shortfall
import HdWallet.Proofs.Snapshot.Apply
import HdWallet.Proofs.Snapshot.Binary
import HdWallet.Proofs.Snapshot.Interrupted
import HdWallet.Proofs.Secp256k1.Digits
import HdWallet.Proofs.Secp256k1.Primality
import HdWallet.Proofs.Secp256k1.Field
import HdWallet.Proofs.Secp256k1.Group
import HdWallet.Proofs.ExtendedKey
import HdWallet.Proofs.KeySource
