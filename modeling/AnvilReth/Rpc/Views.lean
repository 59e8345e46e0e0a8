import AnvilReth.Rpc.State
import AnvilReth.State.Memory

/-! # One world behind all views

The layered provider, the balance and nonce requests and the merged dump are
written independently. Each shows the world the overrides make of the base, so
after any sequence of override requests each agrees with replaying the writes.
-/

namespace AnvilReth

open Std Serde

variable {Bytecode : Type} [Code Bytecode]

section Requests

variable {provider : NodeProvider Bytecode} {anvilState : AnvilState Bytecode} {w : World}

theorem accountBalance_eq (hw : provider.Shows w) (a : Address) :
    accountBalance provider anvilState a = .ok ((anvilState.overlay w).balance a) := by
  obtain ⟨account, h⟩ := StateProvider.basicAccount_of_balance (hw.balance a)
  have hwa := (StateProvider.balance_of_basicAccount h).symm.trans (hw.balance a)
  unfold accountBalance
  rw [AnvilState.account_bind_balance]
  simp only [AnvilState.overlay]
  cases (anvilState.overrides a).balance with
  | some balance => rfl
  | none =>
    rw [h]
    exact congrArg Except.ok (Except.ok.inj hwa)

theorem accountNonce_eq (hw : provider.Shows w) (a : Address) :
    accountNonce provider anvilState a = .ok ((anvilState.overlay w).nonce a) := by
  obtain ⟨account, h⟩ := StateProvider.basicAccount_of_balance (hw.balance a)
  have hwa := (StateProvider.nonce_of_basicAccount h).symm.trans (hw.nonce a)
  unfold accountNonce
  rw [AnvilState.account_bind_nonce, h]
  change Except.ok _ = _
  rw [Except.ok.inj hwa]
  rfl

end Requests

variable [LawfulCode Bytecode] {codes : Set Bytes} {provider : NodeProvider Bytecode} {w : World}
  {dump : DumpedState} {os : List Override} {st : AnvilState Bytecode}

/-- After any override requests, the layered provider, the balance and nonce
requests and the merged dump all give the world the writes make of the base. -/
theorem views_agree (hn : NoCollision Bytecode codes) (hnil : [] ∈ codes)
    (hos : ∀ o ∈ os, o.codes ⊆ codes) (hw : provider.Shows w) (hc : provider.CodeSound codes)
    (hd : dump.Lists w)
    (h : Transition.path (fun st o => Override.apply st o) {} os = some st) :
    let reference := os.foldl Override.write w
    (AnvilStateProvider.mk st provider.toStateProvider).toStateProvider.Shows reference ∧
      (∀ a, accountBalance provider st a = .ok (reference.balance a) ∧
        accountNonce provider st a = .ok (reference.nonce a)) ∧
      ∀ best, ((SerializableState.fromDump dump best).mergeAnvilState st).world = reference := by
  intro reference
  obtain ⟨hoverlay, hs⟩ :=
    AnvilState.overlay_path (w := w) hn hnil hos (AnvilState.codeSound_empty codes) h
  have href : st.overlay w = reference := hoverlay
  rw [← href]
  refine ⟨AnvilStateProvider.shows_overlay hw hc hs hn, fun a => ?_, fun best => ?_⟩
  · exact ⟨accountBalance_eq hw a, accountNonce_eq hw a⟩
  · rw [SerializableState.mergeAnvilState_world, SerializableState.fromDump_world hd]

open RawBytecode in
theorem views_agree_oneContract :
    let provider := NodeProvider.ofDump RawBytecode oneContract 0
    ∃ st, Transition.path (fun st o => Override.apply st o) {}
        [.setCode 2 [0x00], .setStorageAt 1 5 0, .setBalance 1 20, .setCode 1 []] = some st ∧
      accountBalance provider st 1 = .ok 20 ∧ accountNonce provider st 1 = .ok 3 := by
  obtain ⟨hw, hc, hd⟩ := oneContract_node
  have hos : ∀ o ∈ [Override.setCode 2 [0x00], .setStorageAt 1 5 0, .setBalance 1 20,
      .setCode 1 []], o.codes ⊆ knownCodes := by
    simp [Override.codes, knownCodes]
  refine ⟨_, rfl, ?_⟩
  exact (views_agree noCollision_knownCodes nil_mem_knownCodes hos hw hc hd rfl).2.1 1

end AnvilReth
