import AnvilReth.Rpc.Erc20

/-! # The holdings of a token

Balances and allowances are set through the view calls that return them. A token
keeps what such a call returns in one slot, which depends on the calldata. Over
any run of requests, other overrides and blocks, every holding is what was dealt
last.
-/

namespace AnvilReth

/-- What a token keeps for its holders. -/
inductive Holding where
  | balance (address : Address)
  | allowance (owner spender : Address)
  deriving DecidableEq

/-- The view call that returns it. -/
def Holding.calldata : Holding → Bytes
  | balance address => balanceOfSelector ++ address.argument
  | allowance owner spender => allowanceSelector ++ owner.argument ++ spender.argument

theorem Address.length_argument (address : Address) : address.argument.length = 32 := by
  simp [argument, asSlice]

theorem Address.asSlice_injective : Function.Injective Address.asSlice := by
  intro a b h
  refine BitVec.eq_of_getElem_eq fun j hj => ?_
  have hbyte : ∀ i < 20, (a >>> (8 * (19 - i))).setWidth 8 = (b >>> (8 * (19 - i))).setWidth 8 := by
    intro i hi
    have hget := congrArg (fun l => l[i]?) h
    simpa [asSlice, hi] using hget
  have hbit := congrArg (fun w => w.getLsbD (j % 8)) (hbyte (19 - j / 8) (by omega))
  have hindex : 8 * (19 - (19 - j / 8)) + j % 8 = j := by omega
  simpa [Nat.mod_lt, hindex, hj] using hbit

theorem Address.argument_injective : Function.Injective Address.argument := fun _ _ h =>
  Address.asSlice_injective (List.append_cancel_left h)

/-- No two holdings have one view call. -/
theorem Holding.calldata_injective : Function.Injective Holding.calldata := by
  intro h h' heq
  cases h with
  | balance a =>
    cases h' with
    | balance b => rw [Address.argument_injective (List.append_cancel_left heq)]
    | allowance owner spender => exact absurd (List.cons.inj heq).1 (by decide)
  | allowance owner spender =>
    cases h' with
    | balance b => exact absurd (List.cons.inj heq).1 (by decide)
    | allowance owner' spender' =>
      obtain ⟨hfirst, hspender⟩ := List.append_inj heq (by
        simp only [List.length_append, Address.length_argument])
      rw [Address.argument_injective hspender,
        Address.argument_injective (List.append_cancel_left hfirst)]

def Erc20Request.holding : Erc20Request → Holding
  | dealErc20 address _ _ => .balance address
  | setErc20Allowance owner spender _ _ => .allowance owner spender

theorem Erc20Request.calldata_holding (q : Erc20Request) : q.holding.calldata = q.calldata := by
  cases q <;> rfl

namespace Erc20Ledger

/-- Tokens that keep what the calls in use return in one slot each, which is among
those the call touches. -/
structure Keeps (eth : EthApi) (layout : Address → Bytes → StorageKey)
    (used : Set (Address × Bytes)) : Prop where
  call : ∀ {tokenAddress calldata}, (tokenAddress, calldata) ∈ used → ∀ storage,
    eth.call tokenAddress calldata storage =
      .ok (U256.toBeBytes (storage (layout tokenAddress calldata)))
  touched : ∀ {q : Erc20Request}, (q.tokenAddress, q.calldata) ∈ used → ∀ storage,
    ∃ accessList, eth.createAccessList q.tokenAddress q.calldata storage = .ok accessList ∧
      layout q.tokenAddress q.calldata ∈ q.slots accessList
  distinct : ∀ {tokenAddress calldata calldata'}, (tokenAddress, calldata) ∈ used →
    (tokenAddress, calldata') ∈ used →
    layout tokenAddress calldata = layout tokenAddress calldata' → calldata = calldata'

variable {Bytecode : Type} [Code Bytecode]

/-- The world of the latest block, and the overrides. -/
structure State (Bytecode : Type) where
  base : World
  anvilState : AnvilState Bytecode

inductive Event where
  | erc20 (q : Erc20Request)
  | override (o : Override)
  /-- A block is mined. -/
  | block (base : World)

section Model

variable (eth : EthApi)

def State.step (s : State Bytecode) : Event → State Bytecode
  | .erc20 q => { s with anvilState := (q.perform eth s.base s.anvilState).2 }
  | .override o => { s with anvilState := (o.apply s.anvilState).getD s.anvilState }
  | .block base => { s with base }

/-- What a view call returns. -/
def State.view (s : State Bytecode) (tokenAddress : Address) (holding : Holding) : RpcResult U256 :=
  (eth.call tokenAddress holding.calldata
    ((s.anvilState.overlay s.base).storage tokenAddress)).map B256.toU256

end Model

/-- The amount an event gives a holding. -/
def Event.deals (tokenAddress : Address) (holding : Holding) : Event → Option U256
  | .erc20 q =>
    if q.tokenAddress = tokenAddress ∧ q.holding = holding then some q.amount else none
  | _ => none

/-- Only calls in use are made, and no other override writes their slots. A request
does not ask for what the call returns already, unless its slot is searched first. -/
def Event.Fair (eth : EthApi) (layout : Address → Bytes → StorageKey)
    (used : Set (Address × Bytes)) (s : State Bytecode) : Event → Prop
  | .erc20 q => (q.tokenAddress, q.calldata) ∈ used ∧
      (q.storage s.base s.anvilState (layout q.tokenAddress q.calldata) = q.amount →
        ∀ accessList, eth.createAccessList q.tokenAddress q.calldata
          (q.storage s.base s.anvilState) = .ok accessList →
          (q.slots accessList).head? = some (layout q.tokenAddress q.calldata))
  | .override o => ∀ p ∈ used, o.assigns (.slot p.1 (layout p.1 p.2)) = none
  | .block _ => True

namespace Keeps

variable {eth : EthApi} {layout : Address → Bytes → StorageKey} {used : Set (Address × Bytes)}
  {s : State Bytecode} {q : Erc20Request}

/-- The search finds the slot of the holding. -/
theorem found (h : Keeps eth layout used) (hq : (Event.erc20 q).Fair eth layout used s) :
    eth.findErc20StorageSlot q.tokenAddress q.calldata (q.storage s.base s.anvilState) q.amount =
      .ok (layout q.tokenAddress q.calldata) := by
  obtain ⟨hused, hfirst⟩ := hq
  obtain ⟨accessList, hlist, hmem⟩ := h.touched hused (q.storage s.base s.anvilState)
  have hprobed : q.Probed eth s.base s.anvilState (layout q.tokenAddress q.calldata) := by
    rw [Erc20Request.Probed, h.call hused, Function.update_self]
  refine (Erc20Request.findErc20StorageSlot_iff hlist).mpr ⟨hprobed, ?_⟩
  by_cases hsame : q.storage s.base s.anvilState (layout q.tokenAddress q.calldata) = q.amount
  · obtain ⟨rest, hrest⟩ := List.head?_eq_some_iff.mp (hfirst hsame accessList hlist)
    exact ⟨[], rest, hrest, nofun⟩
  · -- another slot leaves the call with the amount it returns already
    obtain ⟨before, after, heq, hnot⟩ := List.eq_append_cons_of_mem hmem
    refine ⟨before, after, heq, fun key hkey hother => hsame ?_⟩
    have hne : layout q.tokenAddress q.calldata ≠ key := fun he => hnot (he ▸ hkey)
    rw [Erc20Request.Probed, h.call hused, Function.update_of_ne hne] at hother
    exact Except.ok.inj hother

/-- A request succeeds and overrides the slot of its holding. -/
theorem perform (h : Keeps eth layout used) (hq : (Event.erc20 q).Fair eth layout used s) :
    q.perform eth s.base s.anvilState = (.ok (), s.anvilState.setStorageAt q.tokenAddress
      (layout q.tokenAddress q.calldata) q.amount) := by
  have hfound := h.found hq
  unfold Erc20Request.storage at hfound
  rw [Erc20Request.perform_eq, setErc20Value, hfound]
  rfl

/-- The slot of one holding is written for that holding alone. -/
theorem assigns_slot (h : Keeps eth layout used) {tokenAddress : Address} {holding : Holding}
    (hused : (tokenAddress, holding.calldata) ∈ used)
    (hq : (q.tokenAddress, q.calldata) ∈ used) :
    (Override.setStorageAt q.tokenAddress (layout q.tokenAddress q.calldata) q.amount).assigns
        (.slot tokenAddress (layout tokenAddress holding.calldata)) =
      (Event.erc20 q).deals tokenAddress holding := by
  change (if tokenAddress = q.tokenAddress ∧ layout tokenAddress holding.calldata =
    layout q.tokenAddress q.calldata then some q.amount else none) = if _ then _ else _
  refine if_congr ?_ rfl rfl
  constructor
  · rintro ⟨rfl, hslot⟩
    have hcalldata := h.distinct hused hq hslot
    rw [← q.calldata_holding] at hcalldata
    exact ⟨rfl, (Holding.calldata_injective hcalldata).symm⟩
  · rintro ⟨rfl, rfl⟩
    rw [q.calldata_holding]
    exact ⟨rfl, rfl⟩

/-- Other overrides leave the slots of the holdings. -/
theorem overridden_override {o : Override} {tokenAddress : Address} {holding : Holding}
    (hused : (tokenAddress, holding.calldata) ∈ used)
    (ho : ∀ p ∈ used, o.assigns (.slot p.1 (layout p.1 p.2)) = none) (st : AnvilState Bytecode) :
    ((o.apply st).getD st).overridden (.slot tokenAddress (layout tokenAddress holding.calldata)) =
      st.overridden (.slot tokenAddress (layout tokenAddress holding.calldata)) := by
  cases hst : o.apply st with
  | none => rfl
  | some st' =>
    have hnone := ho _ hused
    rw [Option.getD_some, AnvilState.overridden_apply hst, hnone, Option.none_or]

theorem view_eq (h : Keeps eth layout used) {tokenAddress : Address} {holding : Holding}
    (hused : (tokenAddress, holding.calldata) ∈ used) (s : State Bytecode) :
    s.view eth tokenAddress holding =
      .ok ((s.anvilState.overridden (.slot tokenAddress
        (layout tokenAddress holding.calldata))).getD
          (s.base.storage tokenAddress (layout tokenAddress holding.calldata))) := by
  rw [State.view, h.call hused]
  rfl

/-- A step overrides the slot of a holding with what it deals, or leaves it. -/
theorem step (h : Keeps eth layout used) {tokenAddress : Address} {holding : Holding}
    (hused : (tokenAddress, holding.calldata) ∈ used) {e : Event} (he : e.Fair eth layout used s) :
    let slot := Field.slot tokenAddress (layout tokenAddress holding.calldata)
    (s.step eth e).anvilState.overridden slot =
      (e.deals tokenAddress holding).or (s.anvilState.overridden slot) := by
  intro slot
  cases e with
  | erc20 q =>
    have hwrite : (Override.setStorageAt q.tokenAddress (layout q.tokenAddress q.calldata)
        q.amount).apply s.anvilState = some (s.step eth (.erc20 q)).anvilState := by
      rw [State.step, h.perform he]
      rfl
    rw [AnvilState.overridden_apply hwrite, h.assigns_slot hused he.1]
  | override o => exact overridden_override hused he s.anvilState
  | block base => rfl

end Keeps

/-- Through requests, other overrides and blocks in any order, every request succeeds
and every view call returns what was dealt last, or what it would have returned if
nothing had been dealt. -/
theorem view_dealt (eth : EthApi) (layout : Address → Bytes → StorageKey)
    (used : Set (Address × Bytes)) (h : Keeps eth layout used) (s : State Bytecode)
    (es : List Event)
    (hes : Transition.Each (State.step eth) (fun s e => e.Fair eth layout used s) s es) :
    let t := Transition.run (State.step eth) s es
    (∀ pre q, pre ++ [.erc20 q] <+: es →
      let r := Transition.run (State.step eth) s pre
      (q.perform eth r.base r.anvilState).1 = .ok ()) ∧
    ∀ tokenAddress holding, (tokenAddress, holding.calldata) ∈ used →
      t.view eth tokenAddress holding =
        match Transition.last (Event.deals tokenAddress holding) es with
        | some amount => .ok amount
        | none => ({ t with anvilState := s.anvilState } : State Bytecode).view eth tokenAddress
            holding := by
  intro t
  refine ⟨fun pre q hp => ?_, fun tokenAddress holding hused => ?_⟩
  · exact congrArg Prod.fst (h.perform (hes pre _ hp))
  · let slot := Field.slot tokenAddress (layout tokenAddress holding.calldata)
    have hslot : t.anvilState.overridden slot =
        (Transition.last (Event.deals tokenAddress holding) es).or
          (s.anvilState.overridden slot) :=
      Transition.run_register_of_each (fun s : State Bytecode => s.anvilState.overridden slot)
        (fun s e he => h.step hused he) hes
    rw [h.view_eq hused, h.view_eq hused, hslot]
    cases Transition.last (Event.deals tokenAddress holding) es <;> rfl

/-- The last 32 bytes of a call. -/
def lastWord (calldata : Bytes) : StorageKey :=
  calldata.foldl (fun word byte => word <<< 8 ||| byte.setWidth 256) 0

/-- A token that keeps what a call returns in the slot of the call's last 32 bytes,
and looks at slot 0 afterwards. -/
def lastWordToken : EthApi where
  createAccessList tokenAddress calldata _ :=
    .ok [{ address := tokenAddress, storageKeys := [lastWord calldata, 0] }]
  call _ calldata storage := .ok (U256.toBeBytes (storage (lastWord calldata)))

def twoHolders : Set (Address × Bytes) :=
  {(9, (Holding.balance 7).calldata), (9, (Holding.balance 8).calldata)}

theorem keeps_lastWord : Keeps lastWordToken (fun _ calldata => lastWord calldata) twoHolders where
  call _ _ := rfl
  touched {q} _ _ := by
    refine ⟨_, rfl, ?_⟩
    simp [Erc20Request.slots]
  distinct h h' heq := by
    simp only [twoHolders, Set.mem_insert_iff, Set.mem_singleton_iff, Prod.mk.injEq] at h h'
    rcases h with ⟨-, rfl⟩ | ⟨-, rfl⟩ <;> rcases h' with ⟨-, rfl⟩ | ⟨-, rfl⟩
    · rfl
    · exact absurd heq (by decide)
    · exact absurd heq (by decide)
    · rfl

theorem fair_lastWord {s : State Bytecode} {q : Erc20Request}
    (h : (q.tokenAddress, q.calldata) ∈ twoHolders) :
    (Event.erc20 q).Fair lastWordToken (fun _ calldata => lastWord calldata) twoHolders s := by
  refine ⟨h, fun _ accessList hlist => ?_⟩
  obtain rfl := Except.ok.inj hlist
  simp [Erc20Request.slots]

/-- Two holders of a token are dealt amounts, one of them twice, around a block. -/
def dealtTwice : List Event :=
  [.erc20 (.dealErc20 7 9 250), .override (.setBalance 9 1), .block World.empty,
    .erc20 (.dealErc20 8 9 30), .erc20 (.dealErc20 7 9 100)]

theorem view_dealt_twice :
    let t := Transition.run (State.step lastWordToken)
      (⟨World.empty, {}⟩ : State RawBytecode) dealtTwice
    t.view lastWordToken 9 (.balance 7) = .ok 100 ∧
      t.view lastWordToken 9 (.balance 8) = .ok 30 := by
  have hes : Transition.Each (State.step lastWordToken)
      (fun s e => e.Fair lastWordToken (fun _ calldata => lastWord calldata) twoHolders s)
      (⟨World.empty, {}⟩ : State RawBytecode) dealtTwice := by
    simp only [dealtTwice, Transition.each_cons, Transition.each_nil, and_true]
    exact ⟨fair_lastWord (Or.inl rfl), fun _ _ => rfl, trivial, fair_lastWord (Or.inr rfl),
      fair_lastWord (Or.inl rfl)⟩
  obtain ⟨-, hview⟩ := view_dealt lastWordToken _ twoHolders keeps_lastWord _ dealtTwice hes
  exact ⟨hview 9 (.balance 7) (Or.inl rfl), hview 9 (.balance 8) (Or.inr rfl)⟩

end Erc20Ledger

end AnvilReth
