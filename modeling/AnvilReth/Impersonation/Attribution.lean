import AnvilReth.Transition.Runs
import AnvilReth.Impersonation.Pool

/-! # Attribution of impersonated transactions

Toggles, submissions, drops and new heads over the pool and the impersonation
state. The remembered senders are right exactly as long as nobody submits the
transaction of another impersonated sender again.
-/

namespace AnvilReth

namespace Attribution

variable {Fields : Type} {f : TxFormat Fields}

structure Node (f : TxFormat Fields) where
  pool : TxPool f
  impersonation : ImpersonationState

/-- What a submission meets: the inner validator, and what the pool then
refuses or discards. -/
structure Admission (Fields : Type) where
  inner : PooledTransaction Fields → TransactionValidationOutcome Fields
  discards : Option (List B256)

inductive Event (Fields : Type) where
  | impersonateAccount (address : Address)
  | stopImpersonatingAccount (address : Address)
  | autoImpersonateAccount (enabled : Bool)
  | sendTransaction (sender : Address) (fields : Fields) (admission : Admission Fields)
  | sendRawTransaction (tx : TransactionSigned Fields) (admission : Admission Fields)
  | dropTransaction (hash : B256)
  | dropAllTransactions
  | removePoolTransactions (address : Address)
  /-- The canonical chain moved over the older blocks to a new tip. -/
  | newHead (older tip : List (TransactionSigned Fields))
  /-- The pool drops transactions of its own accord. -/
  | discard (hashes : List B256)

namespace Node

def start (f : TxFormat Fields) : Node f where
  pool := .empty
  impersonation := {}

variable (s : Node f)

/-- The pool's path of a submission: validation, then the addition. -/
def submit (transaction : PooledTransaction Fields) (admission : Admission Fields) : Node f :=
  let impersonated := s.impersonation.isImpersonated transaction.sender
  match validateTransaction f admission.inner s.impersonation transaction with
  | (.valid _ _ _ transaction _ _, impersonation) =>
    ⟨s.pool.addTransaction ⟨transaction, impersonated⟩ admission.discards, impersonation⟩
  | (.invalid _, impersonation) => ⟨s.pool, impersonation⟩

def dropTransaction (hash : B256) : Node f :=
  match s.pool.get hash with
  | some _ => ⟨s.pool.removeTransactions [hash], s.impersonation.forgetTxSender hash⟩
  | none => s

def dropAllTransactions : Node f :=
  let hashes := s.pool.allTransactionHashes
  if hashes.isEmpty then s
  else ⟨s.pool.removeTransactions hashes, s.impersonation.forgetTxSenders hashes⟩

def removePoolTransactions (address : Address) : Node f :=
  let removed := s.pool.entries.filter fun entry => entry.transaction.sender = address
  ⟨s.pool.removeTransactionsBySender address,
    s.impersonation.forgetTxSenders (removed.map (PoolEntry.hash f))⟩

/-- The validator hears of the tip alone, while the pool drops what any of the
blocks mined. -/
def newHead (older tip : List (TransactionSigned Fields)) : Node f :=
  ⟨s.pool.removeTransactions ((older ++ tip).map f.hash),
    s.impersonation.forgetTxSenders (tip.map f.hash)⟩

def step (s : Node f) : Event Fields → Node f
  | .impersonateAccount address => { s with impersonation := s.impersonation.impersonate address }
  | .stopImpersonatingAccount address =>
    { s with impersonation := s.impersonation.stopImpersonating address }
  | .autoImpersonateAccount enabled =>
    { s with impersonation := s.impersonation.setAutoImpersonate enabled }
  | .sendTransaction sender fields admission =>
    -- The signer serves only the accounts that are impersonated right now.
    if s.impersonation.isImpersonated sender then
      s.submit ⟨signTransaction fields, sender⟩ admission
    else s
  | .sendRawTransaction tx admission =>
    match f.tryRecover tx with
    | .ok sender => s.submit ⟨tx, sender⟩ admission
    | .error _ => s
  | .dropTransaction hash => s.dropTransaction hash
  | .dropAllTransactions => s.dropAllTransactions
  | .removePoolTransactions address => s.removePoolTransactions address
  | .newHead older tip => s.newHead older tip
  | .discard hashes => { s with pool := s.pool.removeTransactions hashes }

end Node

/-- Every pooled transaction of the impersonation branch is looked up, and
converted from any bytes that decode to it, with the sender it came with. -/
def Attributed (s : Node f) : Prop :=
  ∀ entry ∈ s.pool.entries, entry.impersonated →
    s.impersonation.txSender (entry.hash f) = some entry.transaction.sender ∧
    ∀ raw, f.decode2718Exact raw = .ok entry.transaction.tx →
      convert f s.impersonation raw = .ok (entry.transaction.tx, entry.transaction.sender)

/-- An impersonated transaction already in the pool is not submitted by anyone else. -/
def SameSender (s : Node f) (transaction : PooledTransaction Fields) : Prop :=
  s.impersonation.isImpersonated transaction.sender →
    ∀ entry, s.pool.get (f.hash transaction.tx) = some entry → entry.impersonated →
      entry.transaction.sender = transaction.sender

/-- The condition on the event to come. -/
def Event.SameSender (s : Node f) : Event Fields → Prop
  | .sendTransaction sender fields _ => Attribution.SameSender s ⟨signTransaction fields, sender⟩
  | .sendRawTransaction tx _ =>
    ∀ sender, f.tryRecover tx = .ok sender → Attribution.SameSender s ⟨tx, sender⟩
  | _ => True

section Steps

variable {s t : Node f}

/-- The conversion follows from the lookup. -/
theorem attributed_iff :
    Attributed s ↔ ∀ entry ∈ s.pool.entries, entry.impersonated →
      s.impersonation.txSender (entry.hash f) = some entry.transaction.sender := by
  constructor
  · intro h entry hm hi
    exact (h entry hm hi).1
  · intro h entry hm hi
    exact ⟨h entry hm hi, fun raw hd => convert_of_txSender hd (h entry hm hi)⟩

theorem attributed_start : Attributed (Node.start f) := by
  intro entry hm
  cases hm

/-- A step that only takes transactions out, and forgets no sender of what
stays, keeps the attribution. -/
theorem Attributed.of_removal (h : Attributed s)
    (hr : ∀ entry ∈ t.pool.entries, entry ∈ s.pool.entries ∧
      t.impersonation.txSender (entry.hash f) = s.impersonation.txSender (entry.hash f)) :
    Attributed t := by
  rw [attributed_iff] at h ⊢
  intro entry hm hi
  obtain ⟨hs, he⟩ := hr entry hm
  rw [he, h entry hs hi]

theorem Attributed.dropTransaction (h : Attributed s) (hash : B256) :
    Attributed (s.dropTransaction hash) := by
  unfold Node.dropTransaction
  split
  · refine h.of_removal fun entry hm => ?_
    obtain ⟨hs, hn⟩ := TxPool.mem_removeTransactions.mp hm
    exact ⟨hs, ImpersonationState.txSender_forgetTxSender (List.ne_of_not_mem_cons hn)⟩
  · exact h

theorem Attributed.dropAllTransactions (h : Attributed s) : Attributed s.dropAllTransactions := by
  unfold Node.dropAllTransactions
  dsimp only
  split
  · exact h
  · refine h.of_removal fun entry hm => ?_
    obtain ⟨hs, hn⟩ := TxPool.mem_removeTransactions.mp hm
    exact ⟨hs, ImpersonationState.txSender_forgetTxSenders hn⟩

theorem Attributed.removePoolTransactions (h : Attributed s) (address : Address) :
    Attributed (s.removePoolTransactions address) := by
  refine h.of_removal fun entry hm => ?_
  obtain ⟨hs, hne⟩ := TxPool.mem_keep.mp hm
  refine ⟨hs, ImpersonationState.txSender_forgetTxSenders ?_⟩
  -- One transaction for each hash: a removed one cannot share it with one that stays.
  intro hmem
  obtain ⟨removed, hrem, hhash⟩ := List.mem_map.mp hmem
  obtain ⟨hrs, hsender⟩ := List.mem_filter.mp hrem
  rw [List.inj_on_of_nodup_map s.pool.nodup hrs hs hhash] at hsender
  exact of_decide_eq_true hne (of_decide_eq_true hsender)

theorem Attributed.newHead (h : Attributed s) (older tip : List (TransactionSigned Fields)) :
    Attributed (s.newHead older tip) := by
  refine h.of_removal fun entry hm => ?_
  obtain ⟨hs, hn⟩ := TxPool.mem_removeTransactions.mp hm
  rw [List.map_append, List.mem_append, not_or] at hn
  exact ⟨hs, ImpersonationState.txSender_forgetTxSenders hn.2⟩

theorem submit_of_impersonated {transaction : PooledTransaction Fields}
    (hi : s.impersonation.isImpersonated transaction.sender) (admission : Admission Fields) :
    s.submit transaction admission =
      ⟨s.pool.addTransaction ⟨transaction, true⟩ admission.discards,
        s.impersonation.rememberTxSender (f.hash transaction.tx) transaction.sender⟩ := by
  rw [Node.submit, validateTransaction, if_pos hi, hi]

/-- Without impersonation the submission remembers nobody, and what it brings
into the pool is not marked. -/
theorem Attributed.submit_of_not_impersonated {transaction : PooledTransaction Fields}
    (h : Attributed s) (hi : s.impersonation.isImpersonated transaction.sender = false)
    (admission : Admission Fields) : Attributed (s.submit transaction admission) := by
  rw [Node.submit, validateTransaction, hi, if_neg Bool.false_ne_true]
  rw [attributed_iff] at h
  split <;> rename_i hv <;> obtain ⟨-, rfl⟩ := Prod.mk.inj hv
  · rw [attributed_iff]
    intro entry hm himp
    rcases TxPool.mem_of_mem_addTransaction hm with rfl | hs
    · cases himp
    · exact h entry hs himp
  · rwa [attributed_iff]

/-- What one submission does: the attribution survives it exactly if no other
sender's impersonated transaction is in the pool under its hash. -/
theorem attributed_submit_iff (h : Attributed s) (transaction : PooledTransaction Fields)
    (admission : Admission Fields) :
    Attributed (s.submit transaction admission) ↔ SameSender s transaction := by
  cases hi : s.impersonation.isImpersonated transaction.sender with
  | false =>
    refine iff_of_true (h.submit_of_not_impersonated hi admission) fun himp => ?_
    rw [hi] at himp
    cases himp
  | true =>
    rw [submit_of_impersonated hi, attributed_iff]
    constructor
    · intro ha _ entry hg himp
      -- The pool refuses the known hash, the map already has the new sender.
      have hpool := TxPool.addTransaction_of_get ⟨transaction, true⟩ admission.discards hg
      obtain ⟨hm, hhash⟩ := TxPool.get_eq_some_iff.mp hg
      have hsender := ha entry (by rwa [hpool]) himp
      rw [ImpersonationState.txSender_rememberTxSender, if_pos hhash] at hsender
      exact (Option.some.inj hsender).symm
    · intro hc entry hm himp
      rw [ImpersonationState.txSender_rememberTxSender]
      rcases TxPool.mem_of_mem_addTransaction hm with rfl | hs
      · exact if_pos rfl
      · split
        · rename_i hhash
          rw [hc hi entry (TxPool.get_eq_some_iff.mpr ⟨hs, hhash⟩) himp]
        · exact attributed_iff.mp h entry hs himp

/-- Every event keeps the attribution exactly if it meets the condition. -/
theorem attributed_step_iff (h : Attributed s) (e : Event Fields) :
    Attributed (s.step e) ↔ e.SameSender s := by
  cases e with
  | impersonateAccount address =>
    refine iff_of_true (h.of_removal fun entry hm => ⟨hm, ?_⟩) trivial
    exact ImpersonationState.txSender_impersonate address
  | stopImpersonatingAccount address =>
    refine iff_of_true (h.of_removal fun entry hm => ⟨hm, ?_⟩) trivial
    exact ImpersonationState.txSender_stopImpersonating address
  | autoImpersonateAccount enabled =>
    refine iff_of_true (h.of_removal fun entry hm => ⟨hm, ?_⟩) trivial
    exact ImpersonationState.txSender_setAutoImpersonate enabled
  | sendTransaction sender fields admission =>
    rw [Node.step]
    split
    · exact attributed_submit_iff h _ admission
    · rename_i hi
      exact iff_of_true h fun himp => absurd himp hi
  | sendRawTransaction tx admission =>
    rw [Node.step, Event.SameSender]
    cases hr : f.tryRecover tx with
    | ok sender =>
      rw [attributed_submit_iff h]
      constructor
      · intro hc sender' hs
        rwa [← Except.ok.inj hs]
      · intro hc
        exact hc sender rfl
    | error e => exact iff_of_true h fun sender hs => nomatch hs
  | dropTransaction hash => exact iff_of_true (h.dropTransaction hash) trivial
  | dropAllTransactions => exact iff_of_true h.dropAllTransactions trivial
  | removePoolTransactions address => exact iff_of_true (h.removePoolTransactions address) trivial
  | newHead older tip => exact iff_of_true (h.newHead older tip) trivial
  | discard hashes =>
    refine iff_of_true (h.of_removal fun entry hm => ?_) trivial
    exact ⟨(TxPool.mem_removeTransactions.mp hm).1, rfl⟩

end Steps

/-- Along a run every impersonated transaction in the pool is attributed to its
sender exactly if no impersonated transaction is submitted again, while it is
pooled, by another impersonated sender. -/
theorem attributed_iff_sameSender (f : TxFormat Fields) (es : List (Event Fields)) :
    Transition.Always Node.step Attributed (Node.start f) es ↔
      Transition.Each Node.step (fun s e => e.SameSender s) (Node.start f) es :=
  Transition.always_iff_each (I := fun _ => True) trivial attributed_start (fun _ _ _ => trivial)
    fun _ e _ h => attributed_step_iff h e

section Transfer

/-- The transaction a submission carries. -/
def Event.transaction? : Event Fields → Option (TransactionSigned Fields)
  | .sendTransaction _ fields _ => some (signTransaction fields)
  | .sendRawTransaction tx _ => some tx
  | _ => none

/-- A transfer of one wei to account 3 on chain 1337, by its nonce. -/
abbrev Transfer := U64

/-- The transfer's encoding at nonce zero under the placeholder signature. -/
def transferBytes : Bytes :=
  [0x02, 0xe8, 0x82, 0x05, 0x39, 0x80, 0x01, 0x84, 0x3b, 0x9a, 0xca, 0x00, 0x82, 0x52, 0x08,
      0x94] ++
    List.replicate 19 0 ++ [0x03, 0x01, 0x80, 0xc0, 0x80, 0x80, 0x80]

/-- The library as it acts on that transfer. No sender can be recovered from
the placeholder. -/
def transferFormat : TxFormat Transfer where
  nonce nonce := nonce
  hash tx :=
    if tx = signTransaction 0 then
      0x057d5efb4ea48abb1b5d95205de96659239d2cd3a9d2f7716a1274419b7659bc
    else 0
  decode2718Exact raw :=
    if raw = transferBytes then .ok (signTransaction 0) else .error "unexpected tx type"
  tryRecover _ := .error "invalid signature"

def admitted : Admission Transfer where
  inner _ := .invalid "insufficient funds"
  discards := some []

/-- Two impersonated accounts at the same nonce send the same transfer. The pool
refuses the second one as already known, and the first is charged to its sender. -/
theorem duplicate_takes_attribution :
    ¬ ∀ (f : TxFormat Transfer) (es : List (Event Transfer)),
      Set.InjOn f.hash {tx | ∃ e ∈ es, e.transaction? = some tx} →
        Transition.Always Node.step Attributed (Node.start f) es := by
  intro h
  have ha := h transferFormat [.autoImpersonateAccount true, .sendTransaction 1 0 admitted,
    .sendTransaction 2 0 admitted]
  refine absurd (ha ?_).last ?_
  · rintro a ha b hb -
    have ha : a = signTransaction 0 := by simpa [Event.transaction?] using ha
    have hb : b = signTransaction 0 := by simpa [Event.transaction?] using hb
    rw [ha, hb]
  · intro hlast
    have hraw := (hlast ⟨⟨signTransaction 0, 1⟩, true⟩ (by decide +kernel) rfl).2 transferBytes
    exact absurd (hraw (by decide +kernel)) (by decide +kernel)

end Transfer

end Attribution

end AnvilReth
