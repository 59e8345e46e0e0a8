import AnvilReth.Rpc.Erc20Ledger
import AnvilReth.Transition.Simulation

/-! # Searches that overlap

The search is one call for the slots and one for each of them, and the chosen slot
is written after it. Blocks, overrides and other requests may come between any two
of these steps. Another slot passes its probe if the call returns the amount already
at that moment, which may be the work of a request that overlaps.
-/

namespace AnvilReth

open Transition Erc20Ledger

variable {Bytecode : Type} [Code Bytecode]

namespace Erc20Search

/-- How far a request is. -/
inductive Phase where
  | idle
  | list (q : Erc20Request)
  | probe (q : Erc20Request) (slots : List StorageKey)
  | write (q : Erc20Request) (slot : StorageKey)
  | returned (q : Erc20Request) (result : RpcResult Unit)

/-- The head and the overrides next to any number of requests. -/
structure Node (Bytecode : Type) where
  base : World
  anvilState : AnvilState Bytecode
  requests : ℕ → Phase := fun _ => .idle

inductive Event where
  | arrive (r : ℕ) (q : Erc20Request)
  /-- The next call of a request, or its write. -/
  | step (r : ℕ)
  | override (o : Override)
  /-- A block is mined. -/
  | block (base : World)

section Model

variable (eth : EthApi) (base : World) (anvilState : AnvilState Bytecode)

def Phase.next : Phase → Phase
  | idle => idle
  | list q =>
    match eth.createAccessList q.tokenAddress q.calldata (q.storage base anvilState) with
    | .error e => returned q (.error e)
    | .ok accessList => probe q (q.slots accessList)
  | probe q [] => returned q (.error (internalError "Unable to find storage slot"))
  | probe q (slot :: rest) =>
    if eth.probe q.tokenAddress q.calldata (q.storage base anvilState) q.amount slot then
      write q slot
    else
      probe q rest
  | write q _ => returned q (.ok ())
  | returned q result => returned q result

/-- The overrides after the step. -/
def Phase.apply : Phase → AnvilState Bytecode
  | write q slot =>
    anvilState.setStorageAt q.tokenAddress slot (B256.toU256 (U256.toBeBytes q.amount))
  | _ => anvilState

def Node.setRequest (s : Node Bytecode) (r : ℕ) (phase : Phase) : Node Bytecode :=
  { s with requests := Function.update s.requests r phase }

def Node.step (s : Node Bytecode) : Event → Node Bytecode
  | .arrive r q =>
    match s.requests r with
    | .idle => s.setRequest r (.list q)
    | _ => s
  | .step r =>
    { s with
      anvilState := (s.requests r).apply s.anvilState
      requests := Function.update s.requests r ((s.requests r).next eth s.base s.anvilState) }
  | .override o => { s with anvilState := (o.apply s.anvilState).getD s.anvilState }
  | .block base => { s with base }

end Model

/-- What a view call returns. -/
def Node.view (s : Node Bytecode) (eth : EthApi) (tokenAddress : Address) (holding : Holding) :
    RpcResult U256 :=
  (State.mk s.base s.anvilState).view eth tokenAddress holding

/-- The event of the ledger that a step stands for: a request counts when it writes. -/
def Event.ledger (s : Node Bytecode) : Event → List Erc20Ledger.Event
  | .step r =>
    match s.requests r with
    | .write q _ => [.erc20 q]
    | _ => []
  | .override o => [.override o]
  | .block base => [.block base]
  | .arrive _ _ => []

section Alone

variable {eth : EthApi} {base : World} {anvilState : AnvilState Bytecode} {q : Erc20Request}

/-- A step of a request on its own. -/
def alone (eth : EthApi) (base : World) (s : Phase × AnvilState Bytecode) :
    Phase × AnvilState Bytecode := (s.1.next eth base s.2, s.1.apply s.2)

/-- Nothing of a node but its head and the overrides takes part in the steps of a request. -/
theorem run_replicate (s : Node Bytecode) (r n : ℕ) :
    run (Node.step eth) s (List.replicate n (.step r)) =
      let after := (alone eth s.base)^[n] (s.requests r, s.anvilState)
      { s with anvilState := after.2, requests := Function.update s.requests r after.1 } := by
  induction n generalizing s with
  | zero => simp only [List.replicate_zero, run_nil, Function.iterate_zero, id_eq,
      Function.update_eq_self]
  | succ n ih =>
    rw [List.replicate_succ, run_cons, ih]
    simp only [Node.step, Function.iterate_succ_apply, Function.update_self, Function.update_idem]
    rfl

theorem findErc20StorageSlot_of_list {accessList : List AccessListItem}
    (h : eth.createAccessList q.tokenAddress q.calldata (q.storage base anvilState) =
      .ok accessList) :
    eth.findErc20StorageSlot q.tokenAddress q.calldata (q.storage base anvilState) q.amount =
      match (q.slots accessList).find?
        (eth.probe q.tokenAddress q.calldata (q.storage base anvilState) q.amount) with
      | some slot => .ok slot
      | none => .error (internalError "Unable to find storage slot") := by
  have hfind : (q.slots accessList).find?
      (eth.probe q.tokenAddress q.calldata (q.storage base anvilState) q.amount) =
      accessList.findSome? fun item =>
        if item.address ≠ q.tokenAddress then none
        else item.storageKeys.find?
          (eth.probe q.tokenAddress q.calldata (q.storage base anvilState) q.amount) := by
    rw [Erc20Request.slots, List.find?_flatMap]
    congr 1
    funext item
    by_cases hitem : item.address = q.tokenAddress
    · rw [if_pos hitem, if_neg (not_not.mpr hitem)]
    · rw [if_neg hitem, if_pos hitem, List.find?_nil]
  rw [EthApi.findErc20StorageSlot, h, hfind]
  rfl

/-- The probes of a request that nothing interrupts find the first slot that passes. -/
theorem exists_alone_probe (eth : EthApi) (base : World) (anvilState : AnvilState Bytecode)
    (q : Erc20Request) (slots : List StorageKey) :
    ∃ n, (alone eth base)^[n] (.probe q slots, anvilState) =
      match slots.find?
        (eth.probe q.tokenAddress q.calldata (q.storage base anvilState) q.amount) with
      | some slot => (.returned q (.ok ()), anvilState.setStorageAt q.tokenAddress slot
          (B256.toU256 (U256.toBeBytes q.amount)))
      | none => (.returned q (.error (internalError "Unable to find storage slot")),
          anvilState) := by
  induction slots with
  | nil => exact ⟨1, rfl⟩
  | cons slot rest ih =>
    cases hslot : eth.probe q.tokenAddress q.calldata (q.storage base anvilState) q.amount slot with
    | true =>
      refine ⟨2, ?_⟩
      rw [List.find?_cons_of_pos hslot]
      simp only [Function.iterate_succ_apply, Function.iterate_zero, id_eq, alone, Phase.next,
        Phase.apply, hslot, if_true]
    | false =>
      obtain ⟨n, hn⟩ := ih
      refine ⟨n + 1, ?_⟩
      rw [List.find?_cons_of_neg (by simp [hslot]), ← hn]
      simp only [Function.iterate_succ_apply, alone, Phase.next, Phase.apply, hslot,
        Bool.false_eq_true, if_false]

/-- A request that nothing interrupts is the handler. -/
theorem exists_run_alone (eth : EthApi) (s : Node Bytecode) {r : ℕ} (q : Erc20Request)
    (hidle : s.requests r = .idle) :
    ∃ n, run (Node.step eth) s (.arrive r q :: List.replicate n (.step r)) =
      { s with
        anvilState := (q.perform eth s.base s.anvilState).2
        requests := Function.update s.requests r
          (.returned q (q.perform eth s.base s.anvilState).1) } := by
  have halone : ∃ n, (alone eth s.base)^[n] (.list q, s.anvilState) =
      (.returned q (q.perform eth s.base s.anvilState).1,
        (q.perform eth s.base s.anvilState).2) := by
    cases hlist : eth.createAccessList q.tokenAddress q.calldata
        (q.storage s.base s.anvilState) with
    | error e =>
      have hfound : eth.findErc20StorageSlot q.tokenAddress q.calldata
          (q.storage s.base s.anvilState) q.amount = .error e := by
        rw [EthApi.findErc20StorageSlot, hlist]
        rfl
      refine ⟨1, ?_⟩
      simp only [Function.iterate_one, alone, Phase.next, Phase.apply, hlist]
      unfold Erc20Request.storage at hfound
      rw [Erc20Request.perform_eq, setErc20Value, hfound]
    | ok accessList =>
      obtain ⟨n, hn⟩ := exists_alone_probe eth s.base s.anvilState q (q.slots accessList)
      have hfound := findErc20StorageSlot_of_list hlist
      refine ⟨n + 1, ?_⟩
      simp only [Function.iterate_succ_apply, alone, Phase.next, Phase.apply, hlist]
      rw [hn]
      cases hfind : (q.slots accessList).find? (eth.probe q.tokenAddress q.calldata
          (q.storage s.base s.anvilState) q.amount) <;>
        rw [hfind] at hfound <;> unfold Erc20Request.storage at hfound <;>
        rw [Erc20Request.perform_eq, setErc20Value, hfound]
  obtain ⟨n, hn⟩ := halone
  refine ⟨n, ?_⟩
  rw [run_cons, run_replicate]
  simp only [Node.step, hidle, Node.setRequest, Function.update_self, Function.update_idem, hn]

end Alone

section Overlap

variable (layout : Address → Bytes → StorageKey) (used : Set (Address × Bytes))

/-- The slot of what the request sets. -/
def own (q : Erc20Request) : StorageKey := layout q.tokenAddress q.calldata

/-- Only calls in use are made, and no other override writes their slots. -/
def Event.Spares : Event → Prop
  | .arrive _ q => (q.tokenAddress, q.calldata) ∈ used
  | .override o => ∀ p ∈ used, o.assigns (.slot p.1 (layout p.1 p.2)) = none
  | .step _ | .block _ => True

/-- A request has its slot before it until it writes, and does not fail. -/
def Phase.OnWay : Phase → Prop
  | .idle => True
  | .list q | .write q _ => (q.tokenAddress, q.calldata) ∈ used
  | .probe q slots => (q.tokenAddress, q.calldata) ∈ used ∧ own layout q ∈ slots
  | .returned _ result => result = .ok ()

/-- What the request is about to write is its own slot. -/
def Phase.Right : Phase → Prop
  | .write q slot => slot = own layout q
  | _ => True

/-- The call does not return the amount already while another slot is probed. -/
def Phase.Careful (base : World) (anvilState : AnvilState Bytecode) : Phase → Prop
  | .probe q (slot :: _) =>
    slot = own layout q ∨ q.storage base anvilState (own layout q) ≠ q.amount
  | _ => True

def Node.OnWay (s : Node Bytecode) : Prop := ∀ r, (s.requests r).OnWay layout used

def Node.Right (s : Node Bytecode) : Prop := ∀ r, (s.requests r).Right layout

def Careful (s : Node Bytecode) : Event → Prop
  | .step r => (s.requests r).Careful layout s.base s.anvilState
  | _ => True

variable {layout used} {eth : EthApi} {base : World} {anvilState : AnvilState Bytecode}
  {q : Erc20Request} {phase : Phase} {s : Node Bytecode} {r : ℕ} {e : Event} {es : List Event}

/-- A slot passes if it is the one of the holding, or if the amount is there already. -/
theorem probe_iff_own (h : Keeps eth layout used) (hused : (q.tokenAddress, q.calldata) ∈ used)
    {slot : StorageKey} :
    eth.probe q.tokenAddress q.calldata (q.storage base anvilState) q.amount slot = true ↔
      slot = own layout q ∨ q.storage base anvilState (own layout q) = q.amount := by
  rw [Erc20Request.probe_iff, Erc20Request.Probed, h.call hused, Except.ok.injEq]
  change Function.update (q.storage base anvilState) slot q.amount (own layout q) = q.amount ↔ _
  by_cases hslot : own layout q = slot
  · rw [hslot, Function.update_self]
    exact iff_of_true rfl (Or.inl rfl)
  · rw [Function.update_of_ne hslot]
    exact ⟨Or.inr, fun h => h.resolve_left (Ne.symm hslot)⟩

theorem Phase.OnWay.next (h : Keeps eth layout used) (hp : phase.OnWay layout used) :
    (phase.next eth base anvilState).OnWay layout used := by
  cases phase with
  | idle => trivial
  | list q =>
    obtain ⟨accessList, hlist, hmem⟩ := h.touched hp (q.storage base anvilState)
    simp only [Phase.next, hlist]
    exact ⟨hp, hmem⟩
  | probe q slots =>
    obtain ⟨hused, hmem⟩ := hp
    cases slots with
    | nil => exact absurd hmem List.not_mem_nil
    | cons slot rest =>
      rw [Phase.next]
      split
      · exact hused
      · rename_i hfails
        refine ⟨hused, (List.mem_cons.mp hmem).resolve_left fun hslot => hfails ?_⟩
        exact (probe_iff_own h hused).mpr (Or.inl hslot.symm)
  | write q slot => rfl
  | returned q result => exact hp

/-- A request comes to another slot exactly by a probe that is not careful. -/
theorem Phase.OnWay.right_next_iff (h : Keeps eth layout used) (hp : phase.OnWay layout used) :
    (phase.next eth base anvilState).Right layout ↔ phase.Careful layout base anvilState := by
  cases phase with
  | idle => exact Iff.rfl
  | list q =>
    refine iff_of_true ?_ trivial
    rw [Phase.next]
    split <;> trivial
  | probe q slots =>
    cases slots with
    | nil => exact Iff.rfl
    | cons slot rest =>
      have hprobe : eth.probe q.tokenAddress q.calldata (q.storage base anvilState) q.amount slot =
          true ↔ _ := probe_iff_own h hp.1
      rw [Phase.next]
      split
      · rename_i hpasses
        exact ⟨Or.inl, fun hc => hc.elim id fun hne => (hprobe.mp hpasses).resolve_right hne⟩
      · rename_i hfails
        refine iff_of_true trivial (Or.inr fun hsame => hfails ?_)
        exact hprobe.mpr (Or.inr hsame)
  | write q slot => exact Iff.rfl
  | returned q result => exact Iff.rfl

theorem Node.OnWay.step (h : Keeps eth layout used) (hs : s.OnWay layout used)
    (he : e.Spares layout used) : (s.step eth e).OnWay layout used := by
  intro r'
  cases e with
  | arrive r q =>
    simp only [Node.step]
    split
    · simp only [Node.setRequest, Function.update_apply]
      split
      · exact he
      · exact hs r'
    · exact hs r'
  | step r =>
    simp only [Node.step, Function.update_apply]
    split
    · exact (hs r).next h
    · exact hs r'
  | override o => exact hs r'
  | block base => exact hs r'

/-- A step keeps all requests right exactly if it is careful. -/
theorem Node.Right.step_iff (h : Keeps eth layout used) (hs : s.OnWay layout used)
    (hr : s.Right layout) : (s.step eth e).Right layout ↔ Careful layout s e := by
  cases e with
  | arrive r q =>
    refine iff_of_true (fun r' => ?_) trivial
    simp only [Node.step]
    split
    · simp only [Node.setRequest, Function.update_apply]
      split
      · trivial
      · exact hr r'
    · exact hr r'
  | step r =>
    refine Iff.trans ⟨fun hstep => ?_, fun hnext r' => ?_⟩ ((hs r).right_next_iff h)
    · have hself := hstep r
      simpa only [Node.step, Function.update_self] using hself
    · simp only [Node.step, Function.update_apply]
      split
      · exact hnext
      · exact hr r'
  | override o => exact iff_of_true hr trivial
  | block base => exact iff_of_true hr trivial

/-- A step overrides the slot of a holding with what it writes for it, or leaves it. -/
theorem overridden_step (h : Keeps eth layout used) {tokenAddress : Address} {holding : Holding}
    (hused : (tokenAddress, holding.calldata) ∈ used) (hs : s.OnWay layout used)
    (hr : s.Right layout) (he : e.Spares layout used) :
    let slot := Field.slot tokenAddress (layout tokenAddress holding.calldata)
    (s.step eth e).anvilState.overridden slot =
      (last (Event.deals tokenAddress holding) (e.ledger s)).or (s.anvilState.overridden slot) := by
  intro slot
  cases e with
  | arrive r q =>
    simp only [Node.step, Event.ledger, last_nil, Option.none_or]
    split <;> rfl
  | step r =>
    have hway := hs r
    have hright := hr r
    simp only [Node.step, Event.ledger]
    cases hp : s.requests r with
    | write q key =>
      rw [hp] at hway hright
      obtain rfl : key = own layout q := hright
      have hwrite : (Override.setStorageAt q.tokenAddress (own layout q) q.amount).apply
          s.anvilState = some ((Phase.write q (own layout q)).apply s.anvilState) := rfl
      rw [AnvilState.overridden_apply hwrite, own, h.assigns_slot hused hway]
      simp only [last_cons, last_nil, Option.none_or]
    | _ => rfl
  | override o => exact Keeps.overridden_override hused he s.anvilState
  | block base => rfl

/-- However many requests overlap with one another, with other overrides and with
blocks, none fails. Each writes its own slot exactly if no other slot is probed
while the call returns the amount already. Every view call then returns what was
written last, or what it would have returned if nothing had been dealt. -/
theorem deals_overlap (h : Keeps eth layout used) (hidle : ∀ r, s.requests r = .idle)
    (hes : ∀ e ∈ es, e.Spares layout used) :
    let t := run (Node.step eth) s es
    (∀ r q error, t.requests r ≠ .returned q (.error error)) ∧
      (Always (Node.step eth) (Node.Right layout) s es ↔
        Each (Node.step eth) (Careful layout) s es) ∧
      (Each (Node.step eth) (Careful layout) s es →
        ∀ tokenAddress holding, (tokenAddress, holding.calldata) ∈ used →
          t.view eth tokenAddress holding =
            match last (Event.deals tokenAddress holding)
              (trace (Node.step eth) (fun s e => e.ledger s) s es) with
            | some amount => .ok amount
            | none => ({ t with anvilState := s.anvilState } : Node Bytecode).view eth tokenAddress
                holding) := by
  intro t
  have hway : s.OnWay layout used := fun r => by
    rw [hidle r]
    trivial
  have hright : s.Right layout := fun r => by
    rw [hidle r]
    trivial
  have hspares : Each (Node.step eth) (fun _ e => e.Spares layout used) s es :=
    fun pre e hp => hes e (hp.subset (by simp))
  have halways : Always (Node.step eth) (Node.OnWay layout used) s es :=
    always_of_each hway (fun s e hs he => hs.step h he) hspares
  have hiff : Always (Node.step eth) (Node.Right layout) s es ↔
      Each (Node.step eth) (Careful layout) s es :=
    always_iff_each_of_each hway hright (fun s e hs he => hs.step h he)
      (fun s e hs _ hr => hr.step_iff h hs) hspares
  refine ⟨fun r q error hfailed => ?_, hiff, fun hcareful tokenAddress holding hused => ?_⟩
  · have hok := halways.last r
    rw [hfailed] at hok
    cases hok
  · let slot := Field.slot tokenAddress (layout tokenAddress holding.calldata)
    have hstep : Each (Node.step eth) (fun s e => s.OnWay layout used ∧ s.Right layout ∧
        e.Spares layout used) s es := fun pre e hp =>
      ⟨halways pre ((List.prefix_append pre [e]).trans hp),
        hiff.mpr hcareful pre ((List.prefix_append pre [e]).trans hp), hspares pre e hp⟩
    have hslot : t.anvilState.overridden slot =
        (last (Event.deals tokenAddress holding)
          (trace (Node.step eth) (fun s e => e.ledger s) s es)).or
            (s.anvilState.overridden slot) :=
      run_register_trace (fun s : Node Bytecode => s.anvilState.overridden slot)
        (fun s e hs => overridden_step h hused hs.1 hs.2.1 hs.2.2) hstep
    rw [Node.view, Node.view, h.view_eq hused, h.view_eq hused, hslot]
    cases last (Event.deals tokenAddress holding)
      (trace (Node.step eth) (fun s e => e.ledger s) s es) <;> rfl

def oneHolder : Set (Address × Bytes) := {(9, (Holding.balance 7).calldata)}

theorem keeps_slotOne : Keeps Erc20Request.slotOneToken (fun _ _ => 1) oneHolder where
  call _ _ := rfl
  touched {q} _ _ := by
    refine ⟨_, rfl, ?_⟩
    simp [Erc20Request.slots]
  distinct {tokenAddress calldata calldata'} h h' _ := by
    have hc : calldata = (Holding.balance 7).calldata := (Prod.mk.inj h).2
    have hc' : calldata' = (Holding.balance 7).calldata := (Prod.mk.inj h').2
    rw [hc, hc']

/-- Two requests for one amount that both probe before either writes. -/
def dealtTogether : List Event :=
  let q := Erc20Request.dealErc20 7 9 250
  [.arrive 0 q, .arrive 1 q, .step 0, .step 1, .step 0, .step 1, .step 0, .step 1, .step 0,
    .block World.empty, .step 1]

theorem deals_overlap_together :
    let s : Node RawBytecode := { base := Erc20Request.slotOneWorld, anvilState := {} }
    let t := run (Node.step Erc20Request.slotOneToken) s dealtTogether
    t.requests 0 = .returned (.dealErc20 7 9 250) (.ok ()) ∧
      t.view Erc20Request.slotOneToken 9 (.balance 7) = .ok 250 := by
  intro s t
  have hes : ∀ e ∈ dealtTogether, e.Spares (fun _ _ => 1) oneHolder := by
    simp only [dealtTogether, List.forall_mem_cons]
    exact ⟨rfl, rfl, trivial, trivial, trivial, trivial, trivial, trivial, trivial, trivial,
      trivial, by simp⟩
  obtain ⟨-, -, hview⟩ := deals_overlap (s := s) keeps_slotOne (fun _ => rfl) hes
  refine ⟨rfl, hview ?_ 9 (.balance 7) rfl⟩
  simp only [dealtTogether, each_cons]
  exact ⟨trivial, trivial, trivial, trivial, Or.inr (by decide), Or.inr (by decide),
    Or.inl rfl, Or.inl rfl, trivial, trivial, trivial, each_nil⟩

end Overlap

end Erc20Search

end AnvilReth
