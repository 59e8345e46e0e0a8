import AnvilReth.Rpc.Error
import AnvilReth.State.Dump
import AnvilReth.Words.Saturating

/-! # State requests

The state handlers of the RPC server: effective balance and nonce reads, the
setters, the state dump, and the load loop, which replays a decoded dump account
by account through the setters and stops at the first failure.
-/

namespace AnvilReth

open Std Serde

variable {Bytecode : Type} [Code Bytecode]

/-- `map_err` of a provider error under a message. -/
def mapProviderError {α : Type} (message : String) : ProviderResult α → RpcResult α
  | .ok a => .ok a
  | .error e => .error (internalError (message ++ e))

def bestBlockNumber (provider : NodeProvider Bytecode) : RpcResult U64 :=
  mapProviderError "failed to read latest block number: " provider.bestBlockNumber

def accountBalance (provider : NodeProvider Bytecode) (anvilState : AnvilState Bytecode)
    (address : Address) : RpcResult U256 :=
  match (anvilState.account address).bind AccountOverride.balance with
  | some balance => .ok balance
  | none => do
    let account ← mapProviderError "failed to read account: " (provider.basicAccount address)
    return (account.getD default).balance

def accountNonce (provider : NodeProvider Bytecode) (anvilState : AnvilState Bytecode)
    (address : Address) : RpcResult U64 := do
  let account ← mapProviderError "failed to read account: " (provider.basicAccount address)
  let baseNonce := (account.getD default).nonce
  return ((anvilState.account address).bind AccountOverride.nonce).getD baseNonce

/-- The state a dump holds: the base records merged with the overrides. -/
def collectState (provider : NodeProvider Bytecode) (anvilState : AnvilState Bytecode) :
    RpcResult SerializableState := do
  let dump ← mapProviderError "failed to dump state: " provider.dumpStateCollect
  let number ← bestBlockNumber provider
  return (SerializableState.fromDump dump (some number)).mergeAnvilState anvilState

variable (f : DumpFormat)

def dumpState (provider : NodeProvider Bytecode) (anvilState : AnvilState Bytecode)
    (preserveHistoricalStates : Option Bool) : RpcResult Bytes := do
  if preserveHistoricalStates.getD false then
    throw (invalidParams "preserving historical states is not supported yet")
  let state ← collectState provider anvilState
  match state.encodeGzipped f with
  | .ok buf => return buf
  | .error e => throw (internalError ("failed to encode state dump: " ++ e))

section Setters

omit [Code Bytecode]

variable (anvilState : AnvilState Bytecode) (address : Address)

def anvilSetBalance (balance : U256) : RpcResult Unit × AnvilState Bytecode :=
  (.ok (), anvilState.setBalance address balance)

/-- The balance is read and written under two locks. -/
def anvilAddBalance (provider : NodeProvider Bytecode) (balance : U256) :
    RpcResult Unit × AnvilState Bytecode :=
  match accountBalance provider anvilState address with
  | .error e => (.error e, anvilState)
  | .ok current => (.ok (), anvilState.setBalance address (Saturating.add current balance))

def anvilSetNonce (nonce : U256) : RpcResult Unit × AnvilState Bytecode :=
  if nonce > (BitVec.allOnes 64).setWidth 256 then
    (.error (invalidParams "nonce exceeds u64::MAX"), anvilState)
  else (.ok (), anvilState.setNonce address (nonce.setWidth 64))

def anvilSetStorageAt (slot : U256) (value : B256) : RpcResult Bool × AnvilState Bytecode :=
  (.ok true, anvilState.setStorageAt address (U256.toBeBytes slot) (B256.toU256 value))

end Setters

/-- The locked write section of the load loop. The code setter may panic, which
leaves the balance and nonce written; the flag says whether the section ended. -/
def writeRecord (anvilState : AnvilState Bytecode) (address : Address) (nonce : U64)
    (record : SerializableAccountRecord) : AnvilState Bytecode × Bool :=
  let anvilState := anvilState.setBalance address record.balance
  let anvilState := anvilState.setNonce address nonce
  match anvilState.setCode address record.code with
  | none => (anvilState, false)
  | some anvilState =>
    (record.storage.toList.foldl
      (fun st e => st.setStorageAt address e.1 (B256.toU256 e.2)) anvilState, true)

/-- The load loop over the accounts of a decoded dump. -/
def loadAccounts (provider : NodeProvider Bytecode) :
    List (Address × SerializableAccountRecord) → AnvilState Bytecode →
      Outcome Bool × AnvilState Bytecode
  | [], anvilState => (.returned (.ok true), anvilState)
  | (address, record) :: rest, anvilState =>
    match accountNonce provider anvilState address with
    | .error e => (.returned (.error e), anvilState)
    | .ok current =>
      match writeRecord anvilState address (U64.max current record.nonce) record with
      | (anvilState, false) => (.panicked, anvilState)
      | (anvilState, true) => loadAccounts provider rest anvilState

def loadState (provider : NodeProvider Bytecode) (anvilState : AnvilState Bytecode)
    (buf : Bytes) : Outcome Bool × AnvilState Bytecode :=
  match SerializableState.decode f buf with
  | .error e => (.returned (.error (invalidParams ("failed to decode state dump: " ++ e))),
      anvilState)
  | .ok state => loadAccounts provider state.accounts.toList anvilState

end AnvilReth
