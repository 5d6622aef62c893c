import KeryxNode.UtxoCommitment

/-!
# Transactions in Full

Transactions with all the fields the validator reads (`consensus/core/src/tx.rs`), and the
transaction kinds of the inference protocol, told apart by their subnetwork. The identifier of a
transaction is a digest of it and is supplied by the rules that use one.
-/

namespace KeryxNode

namespace Tx

/-- The subnetwork of a transaction. -/
inductive SubnetworkId where
  | native
  | coinbase
  | registry
  | aiRequest
  | aiResponse
  | aiChallenge
  | other (bytes : List UInt8)
  deriving DecidableEq

/-- A subnetwork of the inference protocol. -/
def SubnetworkId.isAi (s : SubnetworkId) : Bool :=
  decide (s = .aiRequest ∨ s = .aiResponse ∨ s = .aiChallenge)

/-- An input and the outpoint it spends. -/
structure TransactionInput where
  previousOutpoint : TransactionOutpoint
  signatureScript : List UInt8 := []
  sequence : ℕ := 0
  sigOpCount : ℕ := 0
  deriving DecidableEq

/-- A transaction; `mass` is the storage mass it commits to. -/
structure Transaction where
  version : ℕ := 0
  inputs : List TransactionInput := []
  outputs : List TransactionOutput := []
  lockTime : ℕ := 0
  subnetworkId : SubnetworkId := .native
  gas : ℕ := 0
  payload : List UInt8 := []
  mass : ℕ := 0
  deriving DecidableEq

namespace Transaction

variable (tx : Transaction)

def isCoinbase : Bool := decide (tx.subnetworkId = .coinbase)

def isAiRequest : Bool := decide (tx.subnetworkId = .aiRequest)

def isAiResponse : Bool := decide (tx.subnetworkId = .aiResponse)

def isAiChallenge : Bool := decide (tx.subnetworkId = .aiChallenge)

end Transaction

/-- Transaction version in force. -/
def txVersion : ℕ := 0

/-- The largest amount, 29 billion coins. -/
def maxSompi : ℕ := 29000000000 * 100000000

/-- The sum of the values of some outputs. -/
def totalValue (outputs : List TransactionOutput) : ℕ :=
  (outputs.map TransactionOutput.value).sum

end Tx

end KeryxNode
