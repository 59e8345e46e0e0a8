import AnvilReth.Rpc.Error
import AnvilReth.State.Memory

/-! # The slot behind a view call

Two requests set what a token's view call returns without knowing the token.
They ask for the slots the call touches, override one after the other with the
wanted value until the call returns it, and write the value to that slot.
-/

namespace AnvilReth

/-- The storage of one contract. -/
abbrev Storage := StorageKey → StorageValue

structure AccessListItem where
  address : Address
  storageKeys : List StorageKey

/-- The two calls of the `eth` interface the search makes: to a contract, with
calldata, on some storage of the contract. What else they read stays as it is. -/
structure EthApi where
  createAccessList : Address → Bytes → Storage → RpcResult (List AccessListItem)
  call : Address → Bytes → Storage → RpcResult B256

namespace EthApi

variable (eth : EthApi) (tokenAddress : Address) (calldata : Bytes) (storage : Storage)

/-- The call with one slot overridden returns the value. A call that fails does not. -/
def probe (expectedValue : U256) (slot : StorageKey) : Bool :=
  let stateDiff := Function.update storage slot (B256.toU256 (U256.toBeBytes expectedValue))
  match eth.call tokenAddress calldata stateDiff with
  | .ok result => B256.toU256 result = expectedValue
  | .error _ => false

def findErc20StorageSlot (expectedValue : U256) : RpcResult StorageKey := do
  let accessList ← eth.createAccessList tokenAddress calldata storage
  let found := accessList.findSome? fun item =>
    if item.address ≠ tokenAddress then none
    else item.storageKeys.find? (eth.probe tokenAddress calldata storage expectedValue)
  match found with
  | some slot => return slot
  | none => throw (internalError "Unable to find storage slot")

/-- Overriding just this slot makes the call return whatever it is overridden with. -/
def Faithful (slot : StorageKey) : Prop :=
  ∀ value : U256, eth.call tokenAddress calldata (Function.update storage slot value) =
    .ok (U256.toBeBytes value)

end EthApi

/-- `Address::as_slice`: the twenty bytes, the highest first. -/
def Address.asSlice (address : Address) : Bytes :=
  (List.range 20).map fun i => (address >>> (8 * (19 - i))).setWidth 8

/-- An address as an argument of a call, padded to 32 bytes. -/
def Address.argument (address : Address) : Bytes := List.replicate 12 0 ++ Address.asSlice address

section Handlers

variable {Bytecode : Type} [Code Bytecode] (eth : EthApi) (base : World)
  (anvilState : AnvilState Bytecode)

/-- The search, run on the storage the node shows, and the write of the slot it finds. -/
def setErc20Value (tokenAddress : Address) (calldata : Bytes) (value : U256) :
    RpcResult Unit × AnvilState Bytecode :=
  let storage := (anvilState.overlay base).storage tokenAddress
  match eth.findErc20StorageSlot tokenAddress calldata storage value with
  | .error e => (.error e, anvilState)
  | .ok slot =>
    (.ok (), anvilState.setStorageAt tokenAddress slot (B256.toU256 (U256.toBeBytes value)))

def balanceOfSelector : Bytes := [0x70, 0xa0, 0x82, 0x31]

def allowanceSelector : Bytes := [0xdd, 0x62, 0xed, 0x3e]

def anvilDealErc20 (address tokenAddress : Address) (balance : U256) :
    RpcResult Unit × AnvilState Bytecode :=
  let calldata := balanceOfSelector ++ address.argument
  setErc20Value eth base anvilState tokenAddress calldata balance

def anvilSetErc20Allowance (owner spender tokenAddress : Address) (amount : U256) :
    RpcResult Unit × AnvilState Bytecode :=
  let calldata := allowanceSelector ++ owner.argument ++ spender.argument
  setErc20Value eth base anvilState tokenAddress calldata amount

end Handlers

/-- The two requests. -/
inductive Erc20Request where
  | dealErc20 (address tokenAddress : Address) (balance : U256)
  | setErc20Allowance (owner spender tokenAddress : Address) (amount : U256)

namespace Erc20Request

def tokenAddress : Erc20Request → Address
  | dealErc20 _ tokenAddress _ | setErc20Allowance _ _ tokenAddress _ => tokenAddress

def amount : Erc20Request → U256
  | dealErc20 _ _ amount | setErc20Allowance _ _ _ amount => amount

def calldata : Erc20Request → Bytes
  | dealErc20 address _ _ => balanceOfSelector ++ address.argument
  | setErc20Allowance owner spender _ _ =>
    allowanceSelector ++ owner.argument ++ spender.argument

variable {Bytecode : Type} [Code Bytecode] (eth : EthApi) (base : World)
  (anvilState : AnvilState Bytecode)

def perform : Erc20Request → RpcResult Unit × AnvilState Bytecode
  | dealErc20 address tokenAddress balance =>
    anvilDealErc20 eth base anvilState address tokenAddress balance
  | setErc20Allowance owner spender tokenAddress amount =>
    anvilSetErc20Allowance eth base anvilState owner spender tokenAddress amount

theorem perform_eq (q : Erc20Request) :
    q.perform eth base anvilState =
      setErc20Value eth base anvilState q.tokenAddress q.calldata q.amount := by
  cases q <;> rfl

/-- A request that is refused writes nothing. -/
theorem perform_of_error {q : Erc20Request} {e : RpcError}
    (h : (q.perform eth base anvilState).1 = .error e) :
    (q.perform eth base anvilState).2 = anvilState := by
  rw [perform_eq, setErc20Value] at h ⊢
  split
  · rfl
  · rename_i slot hfound
    rw [hfound] at h
    cases h

variable (q : Erc20Request)

/-- The token's storage as the node shows it. -/
def storage : Storage := (anvilState.overlay base).storage q.tokenAddress

/-- A slot that stores what the request sets. -/
def Stores (slot : StorageKey) : Prop :=
  eth.Faithful q.tokenAddress q.calldata (q.storage base anvilState) slot

/-- The call returns the amount once the slot is overridden with it. -/
def Probed (slot : StorageKey) : Prop :=
  eth.call q.tokenAddress q.calldata
    (Function.update (q.storage base anvilState) slot q.amount) = .ok (U256.toBeBytes q.amount)

/-- The request succeeds, the search has chosen a slot that stores the value, the
call returns the amount afterwards, and every other slot of any contract is as it
was. -/
structure Deals (slot : StorageKey) : Prop where
  found : eth.findErc20StorageSlot q.tokenAddress q.calldata (q.storage base anvilState)
    q.amount = .ok slot
  stores : q.Stores eth base anvilState slot
  returned : (q.perform eth base anvilState).1 = .ok ()
  visible : eth.call q.tokenAddress q.calldata
    (q.storage base (q.perform eth base anvilState).2) = .ok (U256.toBeBytes q.amount)
  frame : ∀ address key, (address = q.tokenAddress → ¬ q.Stores eth base anvilState key) →
    ((q.perform eth base anvilState).2.overlay base).storage address key =
      (anvilState.overlay base).storage address key

/-- The slots of the token in an access list, in the order of the search. -/
def slots (accessList : List AccessListItem) : List StorageKey :=
  accessList.flatMap fun item => if item.address = q.tokenAddress then item.storageKeys else []

variable {eth base anvilState q} {accessList : List AccessListItem} {slot : StorageKey}

theorem Stores.probed (h : q.Stores eth base anvilState slot) : q.Probed eth base anvilState slot :=
  h q.amount

theorem probe_iff :
    eth.probe q.tokenAddress q.calldata (q.storage base anvilState) q.amount slot = true ↔
      q.Probed eth base anvilState slot := by
  unfold EthApi.probe Probed
  change (match eth.call q.tokenAddress q.calldata
      (Function.update (q.storage base anvilState) slot q.amount) with
    | .ok result => decide (B256.toU256 result = q.amount)
    | .error _ => false) = true ↔ _
  cases eth.call q.tokenAddress q.calldata
      (Function.update (q.storage base anvilState) slot q.amount) with
  | ok result =>
    rw [Except.ok.injEq]
    exact decide_eq_true_iff
  | error e => exact iff_of_false Bool.false_ne_true nofun

/-- The search takes the first slot that passes its one probe. -/
theorem findErc20StorageSlot_iff
    (h : eth.createAccessList q.tokenAddress q.calldata (q.storage base anvilState) =
      .ok accessList) :
    eth.findErc20StorageSlot q.tokenAddress q.calldata (q.storage base anvilState) q.amount =
        .ok slot ↔
      q.Probed eth base anvilState slot ∧ ∃ before after,
        q.slots accessList = before ++ slot :: after ∧
          ∀ s ∈ before, ¬ q.Probed eth base anvilState s := by
  let probe := eth.probe q.tokenAddress q.calldata (q.storage base anvilState) q.amount
  have hfind : (accessList.findSome? fun item =>
      if item.address ≠ q.tokenAddress then none else item.storageKeys.find? probe) =
      (q.slots accessList).find? probe := by
    rw [slots, List.find?_flatMap]
    congr 1
    funext item
    by_cases hitem : item.address = q.tokenAddress
    · rw [if_neg (not_not.mpr hitem), if_pos hitem]
    · rw [if_pos hitem, if_neg hitem, List.find?_nil]
  have hok : eth.findErc20StorageSlot q.tokenAddress q.calldata (q.storage base anvilState)
      q.amount = .ok slot ↔ (q.slots accessList).find? probe = some slot := by
    rw [EthApi.findErc20StorageSlot, h, ← hfind]
    dsimp only [bind, Except.bind, probe]
    split
    · rename_i found hfound
      rw [hfound, Option.some.injEq]
      exact iff_of_eq (Except.ok.injEq found slot)
    · rename_i hnone
      rw [hnone]
      exact iff_of_false nofun nofun
  rw [hok, List.find?_eq_some_iff_append]
  simp only [probe, probe_iff, Bool.not_eq_true', ← Bool.not_eq_true]

/-- Two places in a list are one if neither lies ahead of the other. -/
theorem eq_of_append_cons {α : Type} {xs ys xs' ys' : List α} {a b : α}
    (h : xs ++ a :: ys = xs' ++ b :: ys') (ha : a ∉ xs') (hb : b ∉ xs) : a = b := by
  rcases List.append_eq_append_iff.mp h with ⟨zs, rfl, hz⟩ | ⟨zs, rfl, hz⟩ <;> cases zs with
    | nil => cases hz; rfl
    | cons z zs => cases hz; simp at ha hb

theorem storage_setStorageAt (value : U256) :
    q.storage base (anvilState.setStorageAt q.tokenAddress slot value) =
      Function.update (q.storage base anvilState) slot value := by
  unfold storage
  rw [AnvilState.overlay_setStorageAt]
  exact Function.update_self _ _ _

/-- If the chosen slot stores the value, the request does all it is for. -/
theorem deals_of_found
    (h : eth.findErc20StorageSlot q.tokenAddress q.calldata (q.storage base anvilState) q.amount =
      .ok slot)
    (hs : q.Stores eth base anvilState slot) : q.Deals eth base anvilState slot := by
  have hperform : q.perform eth base anvilState =
      (.ok (), anvilState.setStorageAt q.tokenAddress slot q.amount) := by
    unfold storage at h
    rw [perform_eq, setErc20Value, h]
    rfl
  refine ⟨h, hs, by rw [hperform], ?_, fun address key hkey => ?_⟩
  · rw [hperform, storage_setStorageAt]
    exact hs.probed
  · rw [hperform, AnvilState.overlay_setStorageAt]
    dsimp only [Override.write]
    by_cases ha : address = q.tokenAddress
    · subst ha
      rw [Function.update_self, Function.update_of_ne]
      rintro rfl
      exact hkey rfl hs
    · rw [Function.update_of_ne ha]

/-- Given a slot that stores the value, the request does what it is for exactly
if no other slot listed ahead of all such slots passes the probe. -/
theorem exists_deals_iff (eth : EthApi) (base : World) (anvilState : AnvilState Bytecode)
    (q : Erc20Request) (accessList : List AccessListItem)
    (h : eth.createAccessList q.tokenAddress q.calldata (q.storage base anvilState) =
      .ok accessList)
    (hstores : ∃ slot ∈ q.slots accessList, q.Stores eth base anvilState slot) :
    (∃ slot, q.Deals eth base anvilState slot) ↔
      ∀ before slot after, q.slots accessList = before ++ slot :: after →
        (∀ s ∈ before, ¬ q.Stores eth base anvilState s) →
        ¬ q.Stores eth base anvilState slot → ¬ q.Probed eth base anvilState slot := by
  classical
  constructor
  · rintro ⟨chosen, hd⟩ before slot after heq hbefore hslot hprobed
    obtain ⟨-, front, rest, hsplit, hfront⟩ := (findErc20StorageSlot_iff h).mp hd.found
    have hchosen : chosen ∉ before := fun hm => hbefore chosen hm hd.stores
    have hne : slot ∉ front := fun hm => hfront slot hm hprobed
    obtain rfl : chosen = slot := eq_of_append_cons (hsplit.symm.trans heq) hchosen hne
    exact hslot hd.stores
  · intro hcond
    obtain ⟨stored, hmem, hstored⟩ := hstores
    let stores := fun s => decide (q.Stores eth base anvilState s)
    have hsome : ((q.slots accessList).find? stores).isSome :=
      List.find?_isSome.mpr ⟨stored, hmem, decide_eq_true hstored⟩
    obtain ⟨slot, hslot⟩ := Option.isSome_iff_exists.mp hsome
    obtain ⟨hs, before, after, heq, hbefore⟩ := List.find?_eq_some_iff_append.mp hslot
    have hnot : ∀ s ∈ before, ¬ q.Stores eth base anvilState s := fun s hm =>
      of_decide_eq_false (Bool.not_eq_true' _ ▸ hbefore s hm)
    have hs : q.Stores eth base anvilState slot := of_decide_eq_true hs
    refine ⟨slot, deals_of_found ((findErc20StorageSlot_iff h).mpr ⟨hs.probed, before, after, heq,
      fun s hm => ?_⟩) hs⟩
    -- a slot ahead of the first one that stores the value has none ahead of it either
    obtain ⟨front, rest, rfl⟩ := List.append_of_mem hm
    rw [List.append_assoc, List.cons_append] at heq
    exact hcond front s _ heq (fun t ht => hnot t (List.mem_append_left _ ht)) (hnot s hm)

/-- A token that keeps the one value its calls return in slot 1, after a slot
with something else. -/
def slotOneToken : EthApi where
  createAccessList tokenAddress _ _ := .ok [{ address := tokenAddress, storageKeys := [0, 1] }]
  call _ _ storage := .ok (U256.toBeBytes (storage 1))

/-- The node that shows 100 in slot 1 of every contract. -/
def slotOneWorld : World := { World.empty with storage := fun _ key => if key = 1 then 100 else 0 }

theorem slotOne_stores (q : Erc20Request) :
    q.Stores slotOneToken slotOneWorld ({} : AnvilState RawBytecode) 1 := fun _ => rfl

theorem exists_deals_iff_slotOne :
    ∃ slot, (dealErc20 7 9 250).Deals slotOneToken slotOneWorld
      ({} : AnvilState RawBytecode) slot := by
  refine (exists_deals_iff slotOneToken slotOneWorld {} (dealErc20 7 9 250) _ rfl
    ⟨1, by decide, slotOne_stores _⟩).mpr fun before slot after h hbefore hslot hprobed => ?_
  change [0, 1] = _ at h
  match before, h with
  | [], h =>
    cases h
    exact absurd hprobed (by unfold Probed; decide)
  | [_], h =>
    cases h
    exact hslot (slotOne_stores _)
  | _ :: _ :: _, h => simp at h

/-- A slot that has nothing to do with the call passes the probe when the call
returns the amount already. -/
theorem dealErc20_overwrites :
    ¬ ∀ (eth : EthApi) (base : World) (anvilState : AnvilState RawBytecode) (q : Erc20Request)
      (accessList : List AccessListItem),
      eth.createAccessList q.tokenAddress q.calldata (q.storage base anvilState) =
        .ok accessList →
      (∃ slot ∈ q.slots accessList, q.Stores eth base anvilState slot) →
      ∃ slot, q.Deals eth base anvilState slot := by
  intro h
  obtain ⟨slot, hd⟩ := h slotOneToken slotOneWorld {} (dealErc20 7 9 100) _ rfl
    ⟨1, by decide, slotOne_stores _⟩
  have hslot : Except.ok 0 = Except.ok slot := hd.found
  cases hslot
  exact absurd (hd.stores 5) (by decide)

end Erc20Request

end AnvilReth
