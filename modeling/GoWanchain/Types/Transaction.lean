import GoWanchain.Lib.Rlp
import GoWanchain.State.Object

/-!
# Transactions

`core/types/transaction.go`. The numbers of a transaction that was decoded from a block are not negative. The
signer, which recovers the sender from the signature, is a parameter.
-/

namespace GoWanchain.Types

open State (Keccak keccak256)

def normalTx : UInt64 := 1

def privacyTx : UInt64 := 6

/-- `txdata`. -/
structure Transaction where
  txtype : UInt64
  accountNonce : UInt64
  price : ℕ
  gasLimit : ℕ
  recipient : Option Address
  amount : ℕ
  payload : Bytes
  v : ℕ
  r : ℕ
  s : ℕ
deriving DecidableEq

/-- `IsNormalTransaction`: whatever is not a privacy transaction. -/
def isNormalTransaction (txType : UInt64) : Bool := txType != privacyTx

def isValidTransactionType (txType : UInt64) : Bool := txType == normalTx || txType == privacyTx

namespace Transaction

def cost (tx : Transaction) : ℕ := tx.price * tx.gasLimit + tx.amount

/-- `EncodeRLP`. No recipient is the empty string. -/
def encodeRLP (tx : Transaction) : Bytes :=
  let number (n : ℕ) : Bytes := (Rlp.Value.string (beBytes n)).encode
  Rlp.Value.encode <| .list <| number tx.txtype.toNat ++ number tx.accountNonce.toNat ++ number tx.price ++
    number tx.gasLimit ++ (Rlp.Value.string (tx.recipient.elim [] addressBytes)).encode ++ number tx.amount ++
    (Rlp.Value.string tx.payload).encode ++ number tx.v ++ number tx.r ++ number tx.s

def hash [Keccak] (tx : Transaction) : Hash := keccak256 tx.encodeRLP

def size (tx : Transaction) : ℕ := tx.encodeRLP.length

end Transaction

/-- `Signer.Sender`: the sender of a transaction, if its signature is valid. -/
abbrev Signer := Transaction → Option Address

/-- `Message`; `sender` is its `from`, and `recipient` its `to`. -/
structure Message where
  sender : Address
  recipient : Option Address
  nonce : UInt64
  amount : ℕ
  gasLimit : ℕ
  price : ℕ
  data : Bytes
  checkNonce : Bool
  txType : UInt64
deriving DecidableEq

def Transaction.asMessage (signer : Signer) (tx : Transaction) : Option Message :=
  (signer tx).map fun sender =>
    { sender, recipient := tx.recipient, nonce := tx.accountNonce, amount := tx.amount, gasLimit := tx.gasLimit,
      price := tx.price, data := tx.payload, checkNonce := true, txType := tx.txtype }

end GoWanchain.Types
