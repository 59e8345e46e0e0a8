import Std.Data.ExtTreeSet.Lemmas
import AnvilReth.Maps.Basic
import AnvilReth.Words.Types

/-! # Impersonation

Impersonated accounts send transactions under a placeholder signature, so the
sender is not part of the transaction. The validator remembers it by
transaction hash, and the engine looks it up when it executes a payload.
-/

namespace AnvilReth

open Std

/-- The shared impersonation state. -/
structure ImpersonationState where
  accounts : ExtTreeSet Address := ∅
  autoImpersonate : Bool := false
  /-- The intended senders of impersonated transactions, by transaction hash. -/
  txSenders : ExtTreeMap B256 Address := ∅

namespace ImpersonationState

variable (st : ImpersonationState)

def impersonate (address : Address) : ImpersonationState :=
  { st with accounts := st.accounts.insert address }

def stopImpersonating (address : Address) : ImpersonationState :=
  { st with accounts := st.accounts.erase address }

def setAutoImpersonate (enabled : Bool) : ImpersonationState :=
  { st with autoImpersonate := enabled }

def isImpersonated (address : Address) : Bool :=
  st.autoImpersonate || st.accounts.contains address

def rememberTxSender (hash : B256) (sender : Address) : ImpersonationState :=
  { st with txSenders := st.txSenders.insert hash sender }

def forgetTxSender (hash : B256) : ImpersonationState :=
  { st with txSenders := st.txSenders.erase hash }

def forgetTxSenders (hashes : List B256) : ImpersonationState :=
  hashes.foldl forgetTxSender st

def txSender (hash : B256) : Option Address := st.txSenders[hash]?

variable {st} {hash h : B256} {sender : Address}

@[simp] theorem txSender_rememberTxSender :
    (st.rememberTxSender hash sender).txSender h =
      if h = hash then some sender else st.txSender h := Maps.getElem?_insert

@[simp] theorem txSender_impersonate (a : Address) :
    (st.impersonate a).txSender h = st.txSender h := rfl

@[simp] theorem txSender_stopImpersonating (a : Address) :
    (st.stopImpersonating a).txSender h = st.txSender h := rfl

@[simp] theorem txSender_setAutoImpersonate (enabled : Bool) :
    (st.setAutoImpersonate enabled).txSender h = st.txSender h := rfl

theorem txSender_forgetTxSender (hne : h ≠ hash) :
    (st.forgetTxSender hash).txSender h = st.txSender h := Maps.getElem?_erase_ne hne

/-- Forgetting other hashes keeps a sender. -/
theorem txSender_forgetTxSenders {hashes : List B256} (hn : h ∉ hashes) :
    (st.forgetTxSenders hashes).txSender h = st.txSender h := by
  induction hashes generalizing st with
  | nil => rfl
  | cons hash hashes ih =>
    rw [List.mem_cons, not_or] at hn
    exact (ih hn.2).trans (txSender_forgetTxSender hn.1)

theorem txSender_forgetTxSenders_of_mem {hashes : List B256} (hm : h ∈ hashes) :
    (st.forgetTxSenders hashes).txSender h = none := by
  induction hashes generalizing st with
  | nil => cases hm
  | cons hash hashes ih =>
    by_cases ht : h ∈ hashes
    · exact ih ht
    · obtain rfl := (List.mem_cons.mp hm).resolve_right ht
      exact (txSender_forgetTxSenders ht).trans ExtTreeMap.getElem?_erase_self

end ImpersonationState

structure Signature where
  r : U256
  s : U256
  yParity : Bool
  deriving DecidableEq

/-- The signature of every impersonated transaction. -/
def placeholderSignature : Signature where
  r := 0
  s := 0
  yParity := false

structure TransactionSigned (Fields : Type) where
  fields : Fields
  signature : Signature
  deriving DecidableEq

/-- The transaction library: hashing, the wire format and sender recovery. -/
structure TxFormat (Fields : Type) where
  nonce : Fields → U64
  /-- `recalculate_hash`. -/
  hash : TransactionSigned Fields → B256
  decode2718Exact : Bytes → Except String (TransactionSigned Fields)
  tryRecover : TransactionSigned Fields → Except String Address

/-- A transaction in the pool with the sender it came with. -/
structure PooledTransaction (Fields : Type) where
  tx : TransactionSigned Fields
  sender : Address
  deriving DecidableEq

inductive TransactionValidationOutcome (Fields : Type) where
  | valid (balance : U256) (stateNonce : U64) (bytecodeHash : Option B256)
      (transaction : PooledTransaction Fields) (propagate : Bool)
      (authorities : Option (List Address))
  | invalid (error : String)

variable {Fields : Type}

/-- `ImpersonatedSigner::sign_transaction`: the fields under the placeholder signature. -/
def signTransaction (fields : Fields) : TransactionSigned Fields where
  fields
  signature := placeholderSignature

/-- `AnvilValidator::validate_transaction`: a transaction of an impersonated
sender is valid as it is and its sender is remembered. -/
def validateTransaction (f : TxFormat Fields)
    (inner : PooledTransaction Fields → TransactionValidationOutcome Fields)
    (st : ImpersonationState) (transaction : PooledTransaction Fields) :
    TransactionValidationOutcome Fields × ImpersonationState :=
  if st.isImpersonated transaction.sender then
    (.valid (BitVec.allOnes 256) (f.nonce transaction.tx.fields) none transaction true none,
      st.rememberTxSender (f.hash transaction.tx) transaction.sender)
  else (inner transaction, st)

/-- The conversion of the engine's transactions: the remembered sender, else the
recovered one. -/
def convert (f : TxFormat Fields) (st : ImpersonationState) (raw : Bytes) :
    Except String (TransactionSigned Fields × Address) := do
  let tx ← f.decode2718Exact raw
  let signer ← match st.txSender (f.hash tx) with
    | some sender => .ok sender
    | none => f.tryRecover tx
  return (tx, signer)

theorem convert_of_txSender {f : TxFormat Fields} {st : ImpersonationState} {raw : Bytes}
    {tx : TransactionSigned Fields} {sender : Address} (hd : f.decode2718Exact raw = .ok tx)
    (hs : st.txSender (f.hash tx) = some sender) : convert f st raw = .ok (tx, sender) := by
  rw [convert, hd]
  simp only [bind, Except.bind, hs]
  rfl

end AnvilReth
