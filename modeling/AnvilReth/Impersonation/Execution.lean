import AnvilReth.Impersonation.Attribution

/-! # What is built is what is executed

A payload is built from pooled transactions with the senders they came with, and
the engine then converts its bytes with the senders that are remembered or can be
recovered. The two agree exactly as long as nothing forgets or replaces a sender
that a transaction on its way still needs.
-/

namespace AnvilReth

variable {Fields : Type} {f : TxFormat Fields}

/-- The sender of the transaction can be recovered from its signature. -/
def TxFormat.Recovers (f : TxFormat Fields) (t : PooledTransaction Fields) : Prop :=
  f.tryRecover t.tx = .ok t.sender

/-- The engine takes the transaction to come from its sender. -/
def ImpersonationState.Attributes (f : TxFormat Fields) (st : ImpersonationState)
    (t : PooledTransaction Fields) : Prop :=
  match st.txSender (f.hash t.tx) with
  | some sender => sender = t.sender
  | none => f.Recovers t

section Attributes

variable {st : ImpersonationState} {t : PooledTransaction Fields}

end Attributes

namespace Execution

/-- A transaction of a payload and the bytes it is written as. -/
structure PayloadTransaction (f : TxFormat Fields) where
  transaction : PooledTransaction Fields
  raw : Bytes
  decodes : f.decode2718Exact raw = .ok transaction.tx

/-- A transaction that was built into a payload, and what the engine made of it. -/
structure Executed (Fields : Type) where
  transaction : PooledTransaction Fields
  result : Except String (TransactionSigned Fields × Address)

/-- The pool and the impersonation state, the transactions that are signed and not
yet submitted, and the rest of the payload the engine is executing. -/
structure State (f : TxFormat Fields) where
  node : Attribution.Node f
  signed : ℕ → Option (PooledTransaction Fields)
  payload : List (PayloadTransaction f)
  executed : List (Executed Fields)

inductive Event (f : TxFormat Fields) where
  /-- A request, a new head or a discard, with submissions in one go. -/
  | node (e : Attribution.Event Fields)
  /-- A submission through the signer of the impersonated accounts, in two steps. -/
  | sign (r : ℕ) (sender : Address) (fields : Fields)
  | submit (r : ℕ) (admission : Attribution.Admission Fields)
  /-- The builder takes transactions of the pool. -/
  | build (txs : List (PayloadTransaction f))
  /-- The engine executes the next transaction of the payload. -/
  | execute

variable [DecidableEq Fields]

namespace State

def start (f : TxFormat Fields) : State f where
  node := .start f
  signed _ := none
  payload := []
  executed := []

variable (s : State f)

def sign (r : ℕ) (sender : Address) (fields : Fields) : State f :=
  if s.node.impersonation.isImpersonated sender then
    { s with signed := Function.update s.signed r (some ⟨signTransaction fields, sender⟩) }
  else s

def submit (r : ℕ) (admission : Attribution.Admission Fields) : State f :=
  match s.signed r with
  | some transaction =>
    { s with
      node := s.node.submit transaction admission
      signed := Function.update s.signed r none }
  | none => s

/-- One payload is under way at a time. -/
def build (txs : List (PayloadTransaction f)) : State f :=
  match s.payload with
  | [] =>
    { s with
      payload := txs.filter fun p =>
        p.transaction ∈ s.node.pool.entries.map PoolEntry.transaction }
  | _ :: _ => s

/-- A transaction that cannot be converted makes the whole payload invalid. -/
def execute : State f :=
  match s.payload with
  | [] => s
  | p :: payload =>
    let result := convert f s.node.impersonation p.raw
    { s with
      payload := match result with
        | .ok _ => payload
        | .error _ => []
      executed := ⟨p.transaction, result⟩ :: s.executed }

def step (s : State f) : Event f → State f
  | .node e => { s with node := s.node.step e }
  | .sign r sender fields => s.sign r sender fields
  | .submit r admission => s.submit r admission
  | .build txs => s.build txs
  | .execute => s.execute

/-- The transactions the engine has to convert now or may have to later. -/
def owed : List (PooledTransaction Fields) :=
  s.node.pool.entries.map PoolEntry.transaction ++ s.payload.map PayloadTransaction.transaction

end State

/-- A submission does not take a hash away from another sender, and does not bring
in a transaction whose sender is neither remembered nor recoverable. -/
structure SparesSubmission (s : State f) (t : PooledTransaction Fields)
    (admission : Attribution.Admission Fields) : Prop where
  impersonated : s.node.impersonation.isImpersonated t.sender = true →
    ∀ x ∈ s.owed, f.hash x.tx = f.hash t.tx → x.sender = t.sender
  validated : s.node.impersonation.isImpersonated t.sender = false →
    ∀ balance stateNonce bytecodeHash valid propagate authorities,
      admission.inner t = .valid balance stateNonce bytecodeHash valid propagate authorities →
      f.hash valid.tx ∉ s.node.pool.allTransactionHashes →
      ∀ hashes, admission.discards = some hashes → f.hash valid.tx ∉ hashes →
        s.node.impersonation.Attributes f valid

/-- The hashes whose senders a request or a new head forgets. -/
def forgotten (s : Attribution.Node f) : Attribution.Event Fields → List B256
  | .dropTransaction hash => if (s.pool.get hash).isSome then [hash] else []
  | .dropAllTransactions => s.pool.allTransactionHashes
  | .removePoolTransactions address =>
    (s.pool.entries.filter fun entry => entry.transaction.sender = address).map (PoolEntry.hash f)
  | .newHead _ tip => tip.map f.hash
  | _ => []

/-- The condition on the event to come. -/
def Event.Spares (s : State f) : Event f → Prop
  | .node (.sendTransaction sender fields admission) =>
    s.node.impersonation.isImpersonated sender = true →
      SparesSubmission s ⟨signTransaction fields, sender⟩ admission
  | .node (.sendRawTransaction tx admission) =>
    ∀ sender, f.tryRecover tx = .ok sender → SparesSubmission s ⟨tx, sender⟩ admission
  | .node e => ∀ p ∈ s.payload, f.hash p.transaction.tx ∈ forgotten s.node e →
      f.Recovers p.transaction
  | .submit r admission => ∀ t, s.signed r = some t → SparesSubmission s t admission
  | .sign _ _ _ | .build _ | .execute => True

section Steps

variable {s t : State f}

/-- The event submits nothing. -/
def Quiet : Attribution.Event Fields → Prop
  | .sendTransaction _ _ _ | .sendRawTransaction _ _ => False
  | _ => True

/-- The state after a submission, whatever becomes of the signed transactions. -/
def submitted (s : State f) (x : PooledTransaction Fields)
    (admission : Attribution.Admission Fields) (signed : ℕ → Option (PooledTransaction Fields)) :
    State f := { s with node := s.node.submit x admission, signed }

variable {x : PooledTransaction Fields} {admission : Attribution.Admission Fields}
  {signed : ℕ → Option (PooledTransaction Fields)}

end Steps

end Execution

end AnvilReth
