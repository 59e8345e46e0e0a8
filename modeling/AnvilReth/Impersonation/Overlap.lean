import Mathlib.Data.Set.Function
import AnvilReth.Impersonation.Attribution

/-! # Overlapping pool requests

A submission is validated, and its sender remembered, before it enters the
pool. A drop takes transactions out of the pool before it forgets their
senders. Requests overlap between these steps, so a drop may forget the sender
of a transaction that was submitted again.
-/

namespace AnvilReth

namespace Overlap

variable {Fields : Type} {f : TxFormat Fields}

/-- How far a request has come. -/
inductive Request (Fields : Type) where
  | idle
  /-- The transaction is validated and not in the pool yet. -/
  | inserting (entry : PoolEntry Fields)
  /-- The pool has been read and not been changed yet. -/
  | removing (hashes : List B256)
  /-- The pool has been changed and the senders are still to be forgotten. -/
  | forgetting (hashes : List B256)

structure Node (f : TxFormat Fields) where
  pool : TxPool f
  impersonation : ImpersonationState
  /-- The hashes of the transactions in canonical blocks. -/
  canonical : List B256
  requests : ℕ → Request Fields

inductive Event (Fields : Type) where
  | impersonateAccount (address : Address)
  | stopImpersonatingAccount (address : Address)
  | autoImpersonateAccount (enabled : Bool)
  | validate (r : ℕ) (transaction : PooledTransaction Fields)
      (inner : PooledTransaction Fields → TransactionValidationOutcome Fields)
  /-- The pool refuses or takes the transaction, and then discards some. -/
  | insert (r : ℕ) (discards : Option (List B256))
  | dropTransaction (r : ℕ) (hash : B256)
  | dropAllTransactions (r : ℕ)
  | removePoolTransactions (r : ℕ) (address : Address)
  /-- The next step of a drop. -/
  | advance (r : ℕ)
  /-- The canonical chain moved over the older blocks to a new tip. -/
  | newHead (older tip : List (TransactionSigned Fields))
  /-- The pool drops transactions, mined ones among them. -/
  | discard (hashes : List B256)

namespace Node

def start (f : TxFormat Fields) : Node f where
  pool := .empty
  impersonation := {}
  canonical := []
  requests _ := .idle

variable (s : Node f)

def setRequest (r : ℕ) (request : Request Fields) : Node f :=
  { s with requests := Function.update s.requests r request }

def validate (r : ℕ) (transaction : PooledTransaction Fields)
    (inner : PooledTransaction Fields → TransactionValidationOutcome Fields) : Node f :=
  let impersonated := s.impersonation.isImpersonated transaction.sender
  match validateTransaction f inner s.impersonation transaction with
  | (.valid _ _ _ transaction _ _, impersonation) =>
    { s with impersonation }.setRequest r (.inserting ⟨transaction, impersonated⟩)
  | (.invalid _, impersonation) => { s with impersonation }

/-- The first step of `anvil_drop_transaction`. -/
def dropTransaction (r : ℕ) (hash : B256) : Node f :=
  match s.pool.get hash with
  | some _ => { s with pool := s.pool.removeTransactions [hash] }.setRequest r (.forgetting [hash])
  | none => s

/-- The first step of `anvil_drop_all_transactions`. -/
def dropAllTransactions (r : ℕ) : Node f :=
  let hashes := s.pool.allTransactionHashes
  if hashes.isEmpty then s else s.setRequest r (.removing hashes)

/-- The first step of `anvil_remove_pool_transactions`. -/
def removePoolTransactions (r : ℕ) (address : Address) : Node f :=
  let removed := s.pool.entries.filter fun entry => entry.transaction.sender = address
  { s with pool := s.pool.removeTransactionsBySender address }.setRequest r
    (.forgetting (removed.map (PoolEntry.hash f)))

def newHead (older tip : List (TransactionSigned Fields)) : Node f :=
  { s with
    impersonation := s.impersonation.forgetTxSenders (tip.map f.hash)
    canonical := (older ++ tip).map f.hash ++ s.canonical }

/-- A request starts when it is idle and goes on as far as it has come. -/
def step (s : Node f) : Event Fields → Node f
  | .impersonateAccount address => { s with impersonation := s.impersonation.impersonate address }
  | .stopImpersonatingAccount address =>
    { s with impersonation := s.impersonation.stopImpersonating address }
  | .autoImpersonateAccount enabled =>
    { s with impersonation := s.impersonation.setAutoImpersonate enabled }
  | .validate r transaction inner =>
    match s.requests r with
    | .idle => s.validate r transaction inner
    | _ => s
  | .insert r discards =>
    match s.requests r with
    | .inserting entry =>
      { s with pool := s.pool.addTransaction entry discards }.setRequest r .idle
    | _ => s
  | .dropTransaction r hash =>
    match s.requests r with
    | .idle => s.dropTransaction r hash
    | _ => s
  | .dropAllTransactions r =>
    match s.requests r with
    | .idle => s.dropAllTransactions r
    | _ => s
  | .removePoolTransactions r address =>
    match s.requests r with
    | .idle => s.removePoolTransactions r address
    | _ => s
  | .advance r =>
    match s.requests r with
    | .removing hashes =>
      { s with pool := s.pool.removeTransactions hashes }.setRequest r (.forgetting hashes)
    | .forgetting hashes =>
      { s with impersonation := s.impersonation.forgetTxSenders hashes }.setRequest r .idle
    | _ => s
  | .newHead older tip => s.newHead older tip
  | .discard hashes => { s with pool := s.pool.removeTransactions hashes }

/-- The transaction is in the pool or validated and on its way into it. -/
def Holds (entry : PoolEntry Fields) : Prop :=
  entry ∈ s.pool.entries ∨ ∃ r, s.requests r = .inserting entry

/-- A transaction whose sender the engine still needs. -/
def Needs (entry : PoolEntry Fields) : Prop :=
  s.Holds entry ∧ entry.impersonated ∧ entry.hash f ∉ s.canonical

end Node

/-- The sender of every impersonated transaction in the pool that is not mined
yet is remembered. -/
def Remembered (s : Node f) : Prop :=
  ∀ entry ∈ s.pool.entries, entry.impersonated → entry.hash f ∉ s.canonical →
    s.impersonation.txSender (entry.hash f) = some entry.transaction.sender

/-- A drop forgets no sender that is needed again. -/
def Event.Spares (s : Node f) : Event Fields → Prop
  | .advance r => ∀ hashes, s.requests r = .forgetting hashes →
      ∀ entry, s.Needs entry → entry.hash f ∉ hashes
  | _ => True

/-- The transaction a submission carries. -/
def Event.transaction? : Event Fields → Option (PooledTransaction Fields)
  | .validate _ transaction _ => some transaction
  | _ => none

/-- Every sender that is needed is remembered, and comes from a submission. -/
structure Kept (submitted : Set (PooledTransaction Fields)) (s : Node f) : Prop where
  remembered : ∀ entry, s.Needs entry →
    s.impersonation.txSender (entry.hash f) = some entry.transaction.sender
  submitted : ∀ entry, s.Needs entry → entry.transaction ∈ submitted

section Steps

variable {submitted : Set (PooledTransaction Fields)} {s t : Node f} {r : ℕ}

theorem Kept.start : Kept submitted (Node.start f) := by
  have hneeds : ∀ entry, ¬ (Node.start f).Needs entry := by
    rintro entry ⟨hm | ⟨r, hr⟩, -⟩
    · cases hm
    · cases hr
  exact ⟨fun entry h => absurd h (hneeds entry), fun entry h => absurd h (hneeds entry)⟩

/-- A step after which no more senders are needed, and those that are still
needed have not been forgotten. -/
theorem Kept.of_needs (h : Kept submitted s)
    (hn : ∀ entry, t.Needs entry → s.Needs entry ∧
      t.impersonation.txSender (entry.hash f) = s.impersonation.txSender (entry.hash f)) :
    Kept submitted t where
  remembered entry ht := (hn entry ht).2.trans (h.remembered entry (hn entry ht).1)
  submitted entry ht := h.submitted entry (hn entry ht).1

theorem Node.needs_of_setRequest {request : Request Fields} {entry : PoolEntry Fields}
    (h : (s.setRequest r request).Needs entry) (hr : ∀ entry, request ≠ .inserting entry) :
    s.Needs entry := by
  obtain ⟨hm | ⟨r', hr'⟩, hrest⟩ := h
  · exact ⟨Or.inl hm, hrest⟩
  · simp only [Node.setRequest, Function.update_apply] at hr'
    split at hr'
    · exact absurd hr' (hr entry)
    · exact ⟨Or.inr ⟨r', hr'⟩, hrest⟩

theorem Node.needs_of_keep {pool : TxPool f} {entry : PoolEntry Fields}
    (hp : ∀ entry ∈ pool.entries, entry ∈ s.pool.entries)
    (h : { s with pool := pool }.Needs entry) : s.Needs entry := by
  obtain ⟨hm | hr, hrest⟩ := h
  · exact ⟨Or.inl (hp entry hm), hrest⟩
  · exact ⟨Or.inr hr, hrest⟩

/-- The first or middle step of a drop only takes transactions out. -/
theorem Kept.removal (h : Kept submitted s) {pool : TxPool f} {request : Request Fields}
    (hr : ∀ entry, request ≠ .inserting entry)
    (hp : ∀ entry ∈ pool.entries, entry ∈ s.pool.entries) :
    Kept submitted ({ s with pool := pool }.setRequest r request) :=
  h.of_needs fun _ ht => ⟨Node.needs_of_keep hp (Node.needs_of_setRequest ht hr), rfl⟩

theorem Node.needs_of_inserting {new entry : PoolEntry Fields}
    (h : (s.setRequest r (.inserting new)).Needs entry) : entry = new ∨ s.Needs entry := by
  obtain ⟨hm | ⟨r', hr'⟩, hrest⟩ := h
  · exact Or.inr ⟨Or.inl hm, hrest⟩
  · simp only [Node.setRequest, Function.update_apply] at hr'
    split at hr'
    · exact Or.inl (Request.inserting.inj hr').symm
    · exact Or.inr ⟨Or.inr ⟨r', hr'⟩, hrest⟩

theorem Kept.validate (h : Kept submitted s) {transaction : PooledTransaction Fields}
    (hinj : Set.InjOn (fun t => f.hash t.tx) submitted) (ht : transaction ∈ submitted)
    (inner : PooledTransaction Fields → TransactionValidationOutcome Fields) :
    Kept submitted (s.validate r transaction inner) := by
  unfold Node.validate validateTransaction
  cases hi : s.impersonation.isImpersonated transaction.sender with
  | false =>
    rw [if_neg Bool.false_ne_true]
    dsimp only
    split <;> rename_i hv <;> obtain ⟨-, rfl⟩ := Prod.mk.inj hv
    · refine h.of_needs fun entry hn => ?_
      rcases Node.needs_of_inserting hn with rfl | hs
      · exact absurd hn.2.1 Bool.false_ne_true
      · exact ⟨hs, rfl⟩
    · exact h
  | true =>
    rw [if_pos rfl]
    constructor
    · intro entry hn
      change (s.impersonation.rememberTxSender _ _).txSender _ = _
      rw [ImpersonationState.txSender_rememberTxSender]
      rcases Node.needs_of_inserting hn with rfl | hs
      · exact if_pos rfl
      · split
        · rename_i hhash
          -- One hash, one submission: it is the very transaction submitted again.
          rw [hinj (h.submitted entry hs) ht hhash]
        · exact h.remembered entry hs
    · intro entry hn
      rcases Node.needs_of_inserting hn with rfl | hs
      · exact ht
      · exact h.submitted entry hs

theorem Kept.insert (h : Kept submitted s) {new : PoolEntry Fields}
    (hr : s.requests r = .inserting new) (discards : Option (List B256)) :
    Kept submitted ({ s with pool := s.pool.addTransaction new discards }.setRequest r .idle) := by
  refine h.of_needs fun entry hn => ⟨?_, rfl⟩
  obtain ⟨hm | hr', hrest⟩ := Node.needs_of_setRequest hn fun _ => nofun
  · rcases TxPool.mem_of_mem_addTransaction hm with rfl | hs
    · exact ⟨Or.inr ⟨r, hr⟩, hrest⟩
    · exact ⟨Or.inl hs, hrest⟩
  · exact ⟨Or.inr hr', hrest⟩

/-- The first step of a request of the pool. -/
theorem Kept.begin (h : Kept submitted s) {next : Node f}
    (hnext : s.requests r = .idle → Kept submitted next) :
    Kept submitted (match s.requests r with | .idle => next | _ => s) := by
  split
  · rename_i hr
    exact hnext hr
  · exact h

theorem Kept.dropTransaction (h : Kept submitted s) (hash : B256) :
    Kept submitted (s.dropTransaction r hash) := by
  unfold Node.dropTransaction
  split
  · exact h.removal (fun _ => nofun) fun _ hm => (TxPool.mem_removeTransactions.mp hm).1
  · exact h

theorem Kept.dropAllTransactions (h : Kept submitted s) :
    Kept submitted (s.dropAllTransactions r) := by
  unfold Node.dropAllTransactions
  dsimp only
  split
  · exact h
  · exact h.removal (fun _ => nofun) fun _ hm => hm

/-- Forgetting the senders a drop took out is harmless if it spares the needed ones. -/
theorem Kept.advance (h : Kept submitted s) (hc : (Event.advance r).Spares s) :
    Kept submitted (s.step (.advance r)) := by
  simp only [Node.step]
  split
  · exact h.removal (fun _ => nofun) fun _ hm => (TxPool.mem_removeTransactions.mp hm).1
  · rename_i hashes hr
    refine h.of_needs fun entry hn => ?_
    have hs : s.Needs entry := Node.needs_of_setRequest hn fun _ => nofun
    exact ⟨hs, ImpersonationState.txSender_forgetTxSenders (hc hashes hr entry hs)⟩
  · exact h

theorem Kept.newHead (h : Kept submitted s) (older tip : List (TransactionSigned Fields)) :
    Kept submitted (s.newHead older tip) := by
  refine h.of_needs fun entry hn => ?_
  obtain ⟨hheld, himp, hcanonical⟩ := hn
  simp only [Node.newHead, List.map_append, List.mem_append, not_or] at hcanonical
  obtain ⟨⟨-, htip⟩, hc⟩ := hcanonical
  exact ⟨⟨hheld, himp, hc⟩, ImpersonationState.txSender_forgetTxSenders htip⟩

theorem Kept.step (h : Kept submitted s) (e : Event Fields) (hc : e.Spares s)
    (hinj : Set.InjOn (fun t => f.hash t.tx) submitted)
    (hs : ∀ transaction, e.transaction? = some transaction → transaction ∈ submitted) :
    Kept submitted (s.step e) := by
  cases e with
  | impersonateAccount address =>
    exact h.of_needs fun _ hn => ⟨hn, ImpersonationState.txSender_impersonate address⟩
  | stopImpersonatingAccount address =>
    exact h.of_needs fun _ hn => ⟨hn, ImpersonationState.txSender_stopImpersonating address⟩
  | autoImpersonateAccount enabled =>
    exact h.of_needs fun _ hn => ⟨hn, ImpersonationState.txSender_setAutoImpersonate enabled⟩
  | validate r transaction inner => exact h.begin fun _ => h.validate hinj (hs _ rfl) inner
  | insert r discards =>
    simp only [Node.step]
    split
    · rename_i hr
      exact h.insert hr discards
    · exact h
  | dropTransaction r hash => exact h.begin fun _ => h.dropTransaction hash
  | dropAllTransactions r => exact h.begin fun _ => h.dropAllTransactions
  | removePoolTransactions r address =>
    refine h.begin fun _ => h.removal (fun _ => nofun) fun _ hm => ?_
    exact (TxPool.mem_keep.mp hm).1
  | advance r => exact h.advance hc
  | newHead older tip => exact h.newHead older tip
  | discard hashes =>
    refine h.of_needs fun entry hn => ⟨Node.needs_of_keep (fun _ hm => ?_) hn, rfl⟩
    exact (TxPool.mem_removeTransactions.mp hm).1

end Steps

/-- If distinct submissions have distinct hashes, the sender of an impersonated
transaction stays known in every run whose drops forget no sender that is
needed again. -/
theorem remembered_of_spares (f : TxFormat Fields) (es : List (Event Fields))
    (hinj : Set.InjOn (fun t : PooledTransaction Fields => f.hash t.tx)
      {t | ∃ e ∈ es, e.transaction? = some t})
    (hc : Transition.Each Node.step (fun s e => e.Spares s) (Node.start f) es) :
    Transition.Always Node.step Remembered (Node.start f) es := by
  set submitted : Set (PooledTransaction Fields) := {t | ∃ e ∈ es, e.transaction? = some t}
  have hc' : Transition.Each Node.step
      (fun s e => e.Spares s ∧ ∀ t, e.transaction? = some t → t ∈ submitted) (Node.start f) es := by
    intro pre e hp
    have he : e ∈ es := hp.subset (List.mem_append_right _ (List.mem_singleton_self e))
    exact ⟨hc pre e hp, fun t ht => ⟨e, he, ht⟩⟩
  have hkept : Transition.Always Node.step (Kept submitted) (Node.start f) es :=
    Transition.always_of_each Kept.start (fun s e h he => h.step e he.1 hinj he.2) hc'
  exact hkept.imp fun s h entry hm himp hn => h.remembered entry ⟨Or.inl hm, himp, hn⟩

section Resubmission

open Attribution (Transfer transferFormat)

/-- Account 1 sends its transfer. -/
def submission (r : ℕ) : List (Event Transfer) :=
  [.validate r ⟨signTransaction 0, 1⟩ fun _ => .invalid "insufficient funds", .insert r (some [])]

/-- The transfer is sent under automatic impersonation and its drop begins. -/
def dropBegun : List (Event Transfer) :=
  .autoImpersonateAccount true :: submission 0 ++
    [.dropTransaction 1 (transferFormat.hash (signTransaction 0))]

theorem submission_injOn {es : List (Event Transfer)}
    (h : ∀ e ∈ es, ∀ t, e.transaction? = some t → t = ⟨signTransaction 0, 1⟩) :
    Set.InjOn (fun t : PooledTransaction Transfer => transferFormat.hash t.tx)
      {t | ∃ e ∈ es, e.transaction? = some t} := by
  rintro a ⟨e, he, ha⟩ b ⟨e', he', hb⟩ -
  rw [h e he a ha, h e' he' b hb]

/-- Sent again after the drop is over, the transfer keeps its sender. -/
theorem remembered_of_spares_submission :
    let es := dropBegun ++ .advance 1 :: submission 2
    Remembered (Transition.run Node.step (.start transferFormat) es) := by
  intro es
  refine (remembered_of_spares transferFormat es (submission_injOn ?_) ?_).last
  · simp [es, dropBegun, submission, Event.transaction?]
  · have hempty : ∀ entry, ¬ (Transition.run Node.step (.start transferFormat) dropBegun).Needs
        entry := by
      rintro entry ⟨hm | ⟨r, hr⟩, -⟩
      · have hpool : (Transition.run Node.step (.start transferFormat) dropBegun).pool.entries =
            [] := by
          decide +kernel
        rw [hpool] at hm
        cases hm
      · match r with
        | 0 | 1 | _ + 2 => cases hr
    simp only [es, dropBegun, submission, List.cons_append, List.nil_append, Transition.each_cons,
      Event.Spares, true_and, Transition.each_nil, and_true]
    exact fun hashes _ entry hn => absurd hn (hempty entry)

/-- Sent again before the drop is over, the transfer loses its sender. -/
theorem resubmitted_sender_forgotten :
    ¬ ∀ (f : TxFormat Transfer) (es : List (Event Transfer)),
      Set.InjOn (fun t : PooledTransaction Transfer => f.hash t.tx)
        {t | ∃ e ∈ es, e.transaction? = some t} →
      let s := Transition.run Node.step (.start f) es
      (∀ r, s.requests r = .idle) → Remembered s := by
  intro h
  have hlost := h transferFormat (dropBegun ++ submission 2 ++ [.advance 1])
    (submission_injOn (by simp [dropBegun, submission, Event.transaction?])) fun r =>
      match r with
      | 0 | 1 | 2 | _ + 3 => rfl
  exact absurd (hlost ⟨⟨signTransaction 0, 1⟩, true⟩ (by decide +kernel) rfl (by decide +kernel))
    (by decide +kernel)

end Resubmission

end Overlap

end AnvilReth
