import AnvilReth.Impersonation.Attribution

/-! # Entries of the sender map

The sender of an impersonated transaction is remembered before the pool decides
about it, and forgotten by the drop requests and by new heads. An entry stays
behind where the transaction is refused or leaves the pool in another way.
-/

namespace AnvilReth

namespace Attribution

variable {Fields : Type} {f : TxFormat Fields}

/-- Every remembered hash belongs to a pooled transaction. -/
def Live (s : Node f) : Prop :=
  ∀ hash sender, s.impersonation.txSender hash = some sender → hash ∈ s.pool.allTransactionHashes

/-- No sender is remembered for these transactions. -/
def Node.Unremembered (s : Node f) (hashes : List B256) : Prop :=
  ∀ hash ∈ hashes, s.impersonation.txSender hash = none

/-- An impersonated submission that is new to the pool enters it, and no submission
makes the pool discard a transaction whose sender is remembered. -/
structure CleanSubmission (s : Node f) (transaction : PooledTransaction Fields)
    (admission : Admission Fields) : Prop where
  impersonated : s.impersonation.isImpersonated transaction.sender = true →
    f.hash transaction.tx ∈ s.pool.allTransactionHashes ∨
      ∃ hashes, admission.discards = some hashes ∧ f.hash transaction.tx ∉ hashes ∧
        s.Unremembered hashes
  validated : s.impersonation.isImpersonated transaction.sender = false →
    ∀ balance stateNonce bytecodeHash valid propagate authorities,
      admission.inner transaction =
        .valid balance stateNonce bytecodeHash valid propagate authorities →
      f.hash valid.tx ∈ s.pool.allTransactionHashes ∨
        ∀ hashes, admission.discards = some hashes → s.Unremembered hashes

/-- What the pool drops on its own account, for older blocks of a new head or for
a submission, has no remembered sender. -/
def Event.Clean (s : Node f) : Event Fields → Prop
  | .sendTransaction sender fields admission =>
    s.impersonation.isImpersonated sender = true →
      CleanSubmission s ⟨signTransaction fields, sender⟩ admission
  | .sendRawTransaction tx admission =>
    ∀ sender, f.tryRecover tx = .ok sender → CleanSubmission s ⟨tx, sender⟩ admission
  | .newHead older tip =>
    s.Unremembered ((older.map f.hash).filter fun hash => hash ∉ tip.map f.hash)
  | .discard hashes => s.Unremembered hashes
  | .impersonateAccount _ | .stopImpersonatingAccount _ | .autoImpersonateAccount _
  | .dropTransaction _ | .dropAllTransactions | .removePoolTransactions _ => True

section Steps

variable {s : Node f} {transaction : PooledTransaction Fields} {admission : Admission Fields}

theorem live_start : Live (Node.start f) := by
  intro hash sender h
  change (∅ : Std.ExtTreeMap B256 Address)[hash]? = some sender at h
  simp at h

theorem Live.txSender_eq_none (h : Live s) {hash : B256}
    (hn : hash ∉ s.pool.allTransactionHashes) : s.impersonation.txSender hash = none := by
  cases hs : s.impersonation.txSender hash with
  | none => rfl
  | some sender => exact absurd (h hash sender hs) hn

theorem Live.txSenders_eq_empty (h : Live s) (hp : s.pool.entries = []) :
    s.impersonation.txSenders = ∅ := by
  refine Std.ExtTreeMap.ext_getElem? fun hash => ?_
  rw [Std.ExtTreeMap.getElem?_empty]
  refine h.txSender_eq_none ?_
  rw [TxPool.allTransactionHashes, hp]
  exact List.not_mem_nil

/-- Where transactions leave the pool and some senders are forgotten, no entry
stays behind exactly if no other of these transactions had one. -/
theorem live_remove_iff (h : Live s) (hashes forgotten : List B256) :
    Live ⟨s.pool.removeTransactions hashes, s.impersonation.forgetTxSenders forgotten⟩ ↔
      s.Unremembered (hashes.filter fun hash => hash ∉ forgotten) := by
  constructor
  · intro hlive hash hm
    obtain ⟨hm, hf⟩ := List.mem_filter.mp hm
    rw [decide_eq_true_iff] at hf
    rw [← ImpersonationState.txSender_forgetTxSenders hf]
    exact hlive.txSender_eq_none fun hp => (TxPool.mem_hashes_removeTransactions.mp hp).2 hm
  · intro hclean hash sender hs
    have hf : hash ∉ forgotten := by
      intro hm
      rw [ImpersonationState.txSender_forgetTxSenders_of_mem hm] at hs
      cases hs
    rw [ImpersonationState.txSender_forgetTxSenders hf] at hs
    refine TxPool.mem_hashes_removeTransactions.mpr ⟨h hash sender hs, fun hm => ?_⟩
    rw [hclean hash (List.mem_filter.mpr ⟨hm, decide_eq_true hf⟩)] at hs
    cases hs

/-- Nothing stays behind of transactions that are forgotten as they leave. -/
theorem Live.remove_forget (h : Live s) (hashes : List B256) :
    Live ⟨s.pool.removeTransactions hashes, s.impersonation.forgetTxSenders hashes⟩ := by
  refine (live_remove_iff h hashes hashes).mpr fun hash hm => ?_
  obtain ⟨hm, hf⟩ := List.mem_filter.mp hm
  exact absurd hm (of_decide_eq_true hf)

theorem Live.dropTransaction (h : Live s) (hash : B256) : Live (s.dropTransaction hash) := by
  unfold Node.dropTransaction
  split
  · exact h.remove_forget [hash]
  · exact h

theorem Live.dropAllTransactions (h : Live s) : Live s.dropAllTransactions := by
  unfold Node.dropAllTransactions
  dsimp only
  split
  · exact h
  · exact h.remove_forget _

theorem Live.removePoolTransactions (h : Live s) (address : Address) :
    Live (s.removePoolTransactions address) := by
  intro hash sender hs
  have hn : hash ∉ (s.pool.entries.filter fun entry =>
      entry.transaction.sender = address).map (PoolEntry.hash f) := by
    intro hm
    rw [Node.removePoolTransactions,
      ImpersonationState.txSender_forgetTxSenders_of_mem hm] at hs
    cases hs
  rw [Node.removePoolTransactions, ImpersonationState.txSender_forgetTxSenders hn] at hs
  obtain ⟨entry, hm, rfl⟩ := List.mem_map.mp (h hash sender hs)
  refine List.mem_map.mpr ⟨entry, TxPool.mem_keep.mpr ⟨hm, decide_eq_true fun ha => ?_⟩, rfl⟩
  exact hn (List.mem_map_of_mem (List.mem_filter.mpr ⟨hm, decide_eq_true ha⟩))

theorem live_newHead_iff (h : Live s) (older tip : List (TransactionSigned Fields)) :
    Live (s.newHead older tip) ↔
      s.Unremembered ((older.map f.hash).filter fun hash => hash ∉ tip.map f.hash) := by
  rw [Node.newHead, live_remove_iff h, List.map_append, List.filter_append]
  have htip : (tip.map f.hash).filter (fun hash => hash ∉ tip.map f.hash) = [] := by
    rw [List.filter_eq_nil_iff]
    intro hash hm hf
    exact of_decide_eq_true hf hm
  rw [htip, List.append_nil]

/-- The addition of a transaction to the pool, with the senders as they are. -/
theorem live_add_iff (h : Live s) (entry : PoolEntry Fields) (discards : Option (List B256)) :
    Live ⟨s.pool.addTransaction entry discards, s.impersonation⟩ ↔
      entry.hash f ∈ s.pool.allTransactionHashes ∨
        ∀ hashes, discards = some hashes → s.Unremembered hashes := by
  by_cases hknown : entry.hash f ∈ s.pool.allTransactionHashes
  · rw [TxPool.addTransaction, dif_pos hknown]
    exact iff_of_true h (Or.inl hknown)
  cases discards with
  | none =>
    rw [TxPool.addTransaction, dif_neg hknown]
    exact iff_of_true h (Or.inr fun hashes hd => by cases hd)
  | some hashes =>
    rw [or_iff_right hknown]
    constructor
    · rintro hlive _ ⟨⟩ hash hm
      exact hlive.txSender_eq_none fun hp =>
        ((TxPool.mem_hashes_addTransaction hknown).mp hp).2 hm
    · intro hclean hash sender hs
      refine (TxPool.mem_hashes_addTransaction hknown).mpr ⟨Or.inr (h hash sender hs), fun hm => ?_⟩
      rw [hclean hashes rfl hash hm] at hs
      cases hs

/-- The sender of an impersonated transaction is remembered whether or not the
pool lets it in. -/
theorem live_submit_iff_of_impersonated (h : Live s)
    (hi : s.impersonation.isImpersonated transaction.sender = true) :
    Live (s.submit transaction admission) ↔
      f.hash transaction.tx ∈ s.pool.allTransactionHashes ∨
        ∃ hashes, admission.discards = some hashes ∧ f.hash transaction.tx ∉ hashes ∧
          s.Unremembered hashes := by
  rw [submit_of_impersonated hi]
  set entry : PoolEntry Fields := ⟨transaction, true⟩
  have hself : (s.impersonation.rememberTxSender (f.hash transaction.tx)
      transaction.sender).txSender (f.hash transaction.tx) = some transaction.sender := by
    rw [ImpersonationState.txSender_rememberTxSender, if_pos rfl]
  have hother : ∀ {hash}, hash ≠ f.hash transaction.tx →
      (s.impersonation.rememberTxSender (f.hash transaction.tx)
        transaction.sender).txSender hash = s.impersonation.txSender hash := fun hne => by
    rw [ImpersonationState.txSender_rememberTxSender, if_neg hne]
  by_cases hknown : f.hash transaction.tx ∈ s.pool.allTransactionHashes
  · have hpool : entry.hash f ∈ s.pool.allTransactionHashes := hknown
    refine iff_of_true (fun hash sender hs => ?_) (Or.inl hknown)
    rw [TxPool.addTransaction, dif_pos hpool]
    by_cases hne : hash = f.hash transaction.tx
    · rwa [hne]
    · exact h hash sender ((hother hne).symm.trans hs)
  have hnew : entry.hash f ∉ s.pool.allTransactionHashes := hknown
  rw [or_iff_right hknown]
  constructor
  · intro hlive
    have hpool := hlive _ _ hself
    cases hd : admission.discards with
    | none =>
      rw [hd, TxPool.addTransaction, dif_neg hnew] at hpool
      exact absurd hpool hknown
    | some hashes =>
      rw [hd] at hlive hpool
      have hn := ((TxPool.mem_hashes_addTransaction hnew).mp hpool).2
      refine ⟨hashes, rfl, hn, fun hash hm => ?_⟩
      rw [← hother fun he => hn (he ▸ hm)]
      exact hlive.txSender_eq_none fun hp => ((TxPool.mem_hashes_addTransaction hnew).mp hp).2 hm
  · rintro ⟨hashes, hd, hn, hclean⟩ hash sender hs
    rw [hd]
    refine (TxPool.mem_hashes_addTransaction hnew).mpr ?_
    by_cases hne : hash = f.hash transaction.tx
    · subst hne
      exact ⟨Or.inl rfl, hn⟩
    · rw [hother hne] at hs
      refine ⟨Or.inr (h hash sender hs), fun hm => ?_⟩
      rw [hclean hash hm] at hs
      cases hs

/-- Without impersonation the senders stay as they are, and the pool decides
about what the inner validator passes on. -/
theorem live_submit_iff_of_not_impersonated (h : Live s)
    (hi : s.impersonation.isImpersonated transaction.sender = false) :
    Live (s.submit transaction admission) ↔
      ∀ balance stateNonce bytecodeHash valid propagate authorities,
        admission.inner transaction =
          .valid balance stateNonce bytecodeHash valid propagate authorities →
        f.hash valid.tx ∈ s.pool.allTransactionHashes ∨
          ∀ hashes, admission.discards = some hashes → s.Unremembered hashes := by
  rw [Node.submit, validateTransaction, hi, if_neg Bool.false_ne_true]
  cases hv : admission.inner transaction with
  | valid balance stateNonce bytecodeHash valid propagate authorities =>
    refine (live_add_iff h ⟨valid, false⟩ admission.discards).trans ⟨?_, fun hc => ?_⟩
    · rintro hc _ _ _ _ _ _ ⟨⟩
      exact hc
    · exact hc balance stateNonce bytecodeHash valid propagate authorities rfl
  | invalid error => exact iff_of_true h fun _ _ _ _ _ _ hvalid => by cases hvalid

theorem live_submit_iff (h : Live s) :
    Live (s.submit transaction admission) ↔ CleanSubmission s transaction admission := by
  cases hi : s.impersonation.isImpersonated transaction.sender with
  | true =>
    rw [live_submit_iff_of_impersonated h hi]
    refine ⟨fun hc => ⟨fun _ => hc, fun hn => ?_⟩, fun hc => hc.impersonated hi⟩
    rw [hi] at hn
    cases hn
  | false =>
    rw [live_submit_iff_of_not_impersonated h hi]
    refine ⟨fun hc => ⟨fun hn => ?_, fun _ => hc⟩, fun hc => hc.validated hi⟩
    rw [hi] at hn
    cases hn

/-- Every event leaves no entry behind exactly if it meets the condition. -/
theorem live_step_iff (h : Live s) (e : Event Fields) : Live (s.step e) ↔ e.Clean s := by
  cases e with
  | impersonateAccount address | stopImpersonatingAccount address
  | autoImpersonateAccount enabled => exact iff_of_true h trivial
  | sendTransaction sender fields admission =>
    rw [Node.step, Event.Clean]
    split
    · rename_i hi
      rw [live_submit_iff h]
      exact ⟨fun hc _ => hc, fun hc => hc hi⟩
    · rename_i hi
      exact iff_of_true h fun himp => absurd himp hi
  | sendRawTransaction tx admission =>
    rw [Node.step, Event.Clean]
    cases hr : f.tryRecover tx with
    | ok sender =>
      rw [live_submit_iff h]
      exact ⟨fun hc _ hs => Except.ok.inj hs ▸ hc, fun hc => hc sender rfl⟩
    | error e => exact iff_of_true h fun sender hs => by cases hs
  | dropTransaction hash => exact iff_of_true (h.dropTransaction hash) trivial
  | dropAllTransactions => exact iff_of_true h.dropAllTransactions trivial
  | removePoolTransactions address => exact iff_of_true (h.removePoolTransactions address) trivial
  | newHead older tip => exact live_newHead_iff h older tip
  | discard hashes =>
    refine (live_remove_iff h hashes []).trans ?_
    rw [List.filter_eq_self.mpr fun hash _ => decide_eq_true List.not_mem_nil]
    rfl

end Steps

/-- Along a run the sender map holds no stale entry, and none at all while the
pool is empty, exactly if every transaction whose sender is remembered enters the
pool and leaves it by a request or with the tip of the chain. -/
theorem always_live_iff (f : TxFormat Fields) (es : List (Event Fields)) :
    Transition.Always Node.step
        (fun s => Live s ∧ (s.pool.entries = [] → s.impersonation.txSenders = ∅))
        (Node.start f) es ↔
      Transition.Each Node.step (fun s e => e.Clean s) (Node.start f) es := by
  refine Transition.always_iff_each (I := fun _ => True) trivial
    ⟨live_start, fun _ => rfl⟩ (fun _ _ _ => trivial) fun s e _ h => ?_
  rw [← live_step_iff h.1]
  exact ⟨fun hn => hn.1, fun hn => ⟨hn, hn.txSenders_eq_empty⟩⟩

/-- The pool may refuse an impersonated transaction once it is validated. -/
def refused : Admission Transfer where
  inner _ := .invalid "insufficient funds"
  discards := none

/-- A refused transaction leaves its sender behind in the map. -/
theorem refused_sender_remembered :
    ¬ ∀ (f : TxFormat Transfer) (es : List (Event Transfer)),
      Transition.Always Node.step
        (fun s => Live s ∧ (s.pool.entries = [] → s.impersonation.txSenders = ∅))
        (Node.start f) es := by
  intro h
  obtain ⟨hlive, -⟩ := (h transferFormat
    [.autoImpersonateAccount true, .sendTransaction 1 0 refused]).last
  exact absurd (hlive (transferFormat.hash (signTransaction 0)) 1 (by decide +kernel))
    (by decide +kernel)

end Attribution

end AnvilReth
