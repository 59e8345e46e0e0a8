import AnvilReth.State.Merge

/-! # In-memory nodes

A node provider that answers from the dump it would write. It shows the world
the dump lists, so it satisfies what the development assumes of a base state.
Raw bytecode with the hashes of a few codes is a code type to run it on.
-/

namespace AnvilReth

open Std

namespace DumpedState

variable (dump : DumpedState)

def find (address : Address) : Option DumpedAccount :=
  dump.accounts.find? fun d => d.address = address

/-- The codes of the accounts, the missing ones counting as empty. -/
def codes : Set Bytes := {code | ∃ d ∈ dump.accounts, d.code.getD [] = code}

/-- The world of the listed accounts. -/
def world : World where
  balance a := ((dump.find a).map DumpedAccount.balance).getD 0
  nonce a := ((dump.find a).map DumpedAccount.nonce).getD 0
  code a := ((dump.find a).bind DumpedAccount.code).getD []
  storage a k := ((dump.find a).bind fun d => (d.storage[k]?).map B256.toU256).getD 0

variable {dump}

theorem find_eq_some {a : Address} {d : DumpedAccount} (h : dump.find a = some d) :
    d ∈ dump.accounts ∧ d.address = a :=
  ⟨List.mem_of_find?_eq_some h, by simpa using List.find?_some h⟩

theorem find_eq_none {a : Address} :
    dump.find a = none ↔ a ∉ dump.accounts.map DumpedAccount.address := by
  simp [find, List.find?_eq_none]

theorem find_of_mem (hd : (dump.accounts.map DumpedAccount.address).Nodup) {d : DumpedAccount}
    (h : d ∈ dump.accounts) : dump.find d.address = some d := by
  cases hf : dump.find d.address with
  | none => exact absurd (List.mem_map_of_mem h) (find_eq_none.mp hf)
  | some d' =>
    obtain ⟨hm, ha⟩ := find_eq_some hf
    exact congrArg some (List.inj_on_of_nodup_map hd hm h ha)

theorem lists_world (hd : (dump.accounts.map DumpedAccount.address).Nodup) :
    dump.Lists dump.world where
  nodup := hd
  account d h := by
    simp [world, find_of_mem hd h]
  complete a h := by
    simp [world, find_eq_none.mpr h]

end DumpedState

/-- The node whose base state is the dumped one. -/
def NodeProvider.ofDump (Bytecode : Type) [Code Bytecode] (dump : DumpedState)
    (bestBlockNumber : U64) : NodeProvider Bytecode where
  basicAccount a := .ok ((dump.find a).map fun d =>
    { nonce := d.nonce, balance := d.balance, bytecodeHash := d.code.map (keccak256 Bytecode) })
  storage a k := .ok ((dump.find a).bind fun d => (d.storage[k]?).map B256.toU256)
  bytecodeByHash hash := .ok
    (((dump.accounts.filterMap DumpedAccount.code).find? fun code =>
      keccak256 Bytecode code = hash).bind newRaw)
  bestBlockNumber := .ok bestBlockNumber
  dumpStateCollect := .ok dump

namespace NodeProvider

variable {Bytecode : Type} [Code Bytecode] {dump : DumpedState} {codes : Set Bytes}
  (best : U64)

theorem ofDump_bytecodeByHash (hn : NoCollision Bytecode codes) (hc : dump.codes ⊆ codes)
    (hraw : ∀ code ∈ dump.codes, code ≠ [] → ∃ bytecode : Bytecode, newRaw code = some bytecode)
    {d : DumpedAccount} (hd : d ∈ dump.accounts) {code : Bytes} (h : d.code = some code)
    (hne : code ≠ []) :
    ∃ bytecode : Bytecode, newRaw code = some bytecode ∧
      (ofDump Bytecode dump best).bytecodeByHash (keccak256 Bytecode code) =
        .ok (some bytecode) := by
  have hmem : ∀ c ∈ dump.accounts.filterMap DumpedAccount.code, c ∈ dump.codes := by
    intro c hc
    obtain ⟨e, he, hec⟩ := List.mem_filterMap.mp hc
    exact ⟨e, he, by rw [hec]; rfl⟩
  have hm : code ∈ dump.accounts.filterMap DumpedAccount.code := List.mem_filterMap.mpr ⟨d, hd, h⟩
  obtain ⟨bytecode, hb⟩ := hraw code (hmem code hm) hne
  refine ⟨bytecode, hb, ?_⟩
  simp only [ofDump]
  cases hf : (dump.accounts.filterMap DumpedAccount.code).find? fun c =>
      keccak256 Bytecode c = keccak256 Bytecode code with
  | none => exact absurd (List.find?_eq_none.mp hf code hm) (by simp)
  | some c =>
    have hk : keccak256 Bytecode c = keccak256 Bytecode code := by
      simpa using List.find?_some hf
    obtain rfl := hn (hc (hmem c (List.mem_of_find?_eq_some hf))) (hc (hmem code hm)) hk
    rw [Option.bind_some, hb]

variable [LawfulCode Bytecode]

theorem ofDump_codeSound (hn : NoCollision Bytecode codes) (hc : dump.codes ⊆ codes)
    (hraw : ∀ code ∈ dump.codes, code ≠ [] → ∃ bytecode : Bytecode, newRaw code = some bytecode) :
    (ofDump Bytecode dump best).CodeSound codes where
  stored hash := by
    refine ⟨_, rfl, fun bytecode h => ?_⟩
    obtain ⟨code, hf, hb⟩ := Option.bind_eq_some_iff.mp h
    obtain rfl := originalBytes_newRaw hb
    obtain ⟨d, hd, hdc⟩ := List.mem_filterMap.mp (List.mem_of_find?_eq_some hf)
    exact ⟨hc ⟨d, hd, by rw [hdc]; rfl⟩, by simpa using List.find?_some hf⟩
  resolved a account hash h hh he := by
    obtain ⟨d, hd, rfl⟩ := Option.map_eq_some_iff.mp (Except.ok.inj h)
    obtain ⟨code, hdc, rfl⟩ := Option.map_eq_some_iff.mp hh
    have hne : code ≠ [] := fun h => he (by rw [h]; rfl)
    obtain ⟨bytecode, -, hb⟩ :=
      ofDump_bytecodeByHash best hn hc hraw (DumpedState.find_eq_some hd).1 hdc hne
    exact ⟨bytecode, hb⟩

theorem ofDump_shows (hn : NoCollision Bytecode codes) (hnil : [] ∈ codes) (hc : dump.codes ⊆ codes)
    (hraw : ∀ code ∈ dump.codes, code ≠ [] → ∃ bytecode : Bytecode, newRaw code = some bytecode) :
    (ofDump Bytecode dump best).Shows dump.world where
  balance a := by
    refine (StateProvider.balance_of_basicAccount rfl).trans (congrArg Except.ok ?_)
    simp only [DumpedState.world]
    cases dump.find a <;> rfl
  nonce a := by
    refine (StateProvider.nonce_of_basicAccount rfl).trans (congrArg Except.ok ?_)
    simp only [DumpedState.world]
    cases dump.find a <;> rfl
  code a := by
    cases hf : dump.find a with
    | none =>
      have hb : (ofDump Bytecode dump best).basicAccount a = .ok none := by
        simp only [ofDump, hf, Option.map_none]
      rw [StateProvider.code_of_basicAccount_none hb rfl]
      simp [DumpedState.world, hf]
    | some d =>
      have hb : (ofDump Bytecode dump best).basicAccount a =
          .ok (some { nonce := d.nonce, balance := d.balance,
                      bytecodeHash := d.code.map (keccak256 Bytecode) }) := by
        simp only [ofDump, hf, Option.map_some]
      simp only [DumpedState.world, hf, Option.bind_some]
      cases hdc : d.code with
      | none =>
        exact StateProvider.code_of_basicAccount_none hb (by simp [hdc])
      | some code =>
        have hh : (some (keccak256 Bytecode code)) = d.code.map (keccak256 Bytecode) := by
          rw [hdc, Option.map_some]
        have hm : code ∈ dump.codes := ⟨d, (DumpedState.find_eq_some hf).1, by rw [hdc]; rfl⟩
        by_cases hne : code = []
        · subst hne
          exact StateProvider.code_of_empty hb hh.symm
        · obtain ⟨bytecode, hraw', hfound⟩ :=
            ofDump_bytecodeByHash best hn hc hraw (DumpedState.find_eq_some hf).1 hdc hne
          have hk : keccak256 Bytecode code ≠ keccakEmpty Bytecode :=
            fun he => hne (hn (hc hm) hnil he)
          rw [StateProvider.code_of_basicAccount_some hb hh.symm hfound, if_neg hk,
            Option.map_some, originalBytes_newRaw hraw']
  slot a k := rfl

end NodeProvider

/-- Bytecode kept as the bytes it was made of. -/
structure RawBytecode where
  bytes : Bytes
  deriving DecidableEq

namespace RawBytecode

/-- The codes whose hashes are known: no code, `STOP` and `INVALID`. -/
def knownCodes : Set Bytes := {[], [0x00], [0xfe]}

/-- The true hashes of the known codes; any other code stands for itself. -/
def hash (code : Bytes) : B256 :=
  if code = [] then 0xc5d2460186f7233c927e7db2dcc703c0e500b653ca82273b7bfad8045d85a470
  else if code = [0x00] then 0xbc36789e7a1e281436464229828f817d6612f7b477d66591ff96a9e064bcc98a
  else if code = [0xfe] then 0xbcc90f2d6dada5b18e155c17a1c0a55920aae94f39857d39d0d8ed07ae8f228b
  else code.foldl (fun h byte => h * 256 + byte.setWidth 256) 1

/-- A code with the delegation magic has to be a whole designator of version 0. -/
def ofRaw (code : Bytes) : Option RawBytecode :=
  if code.take 2 = [0xef, 0x01] ∧ ¬ (code.length = 23 ∧ code[2]? = some 0) then none
  else some ⟨code⟩

instance : Code RawBytecode where
  keccak256 := hash
  newRaw := ofRaw
  originalBytes := bytes

instance : LawfulCode RawBytecode where
  originalBytes_newRaw {code bytecode} h := by
    change ofRaw code = some bytecode at h
    unfold ofRaw at h
    split at h
    · cases h
    · obtain rfl := Option.some.inj h
      rfl

theorem nil_mem_knownCodes : [] ∈ knownCodes := Or.inl rfl

theorem noCollision_knownCodes : NoCollision RawBytecode knownCodes := by
  intro code hc code' hc' h
  change hash code = hash code' at h
  rcases hc with rfl | rfl | rfl <;> rcases hc' with rfl | rfl | rfl <;>
    first | rfl | exact absurd h (by decide)

/-- A base state with one contract that has a slot. -/
def oneContract : DumpedState where
  accounts := [{ address := 1, nonce := 3, balance := 10, code := some [0xfe],
                 storage := (∅ : ExtTreeMap B256 B256).insert 5 7 }]

theorem oneContract_codes : oneContract.codes ⊆ knownCodes := by
  rintro code ⟨d, hd, rfl⟩
  obtain rfl := List.mem_singleton.mp hd
  exact Or.inr (Or.inr rfl)

/-- The node over the one contract is a base state as the development assumes it. -/
theorem oneContract_node :
    (NodeProvider.ofDump RawBytecode oneContract 0).Shows oneContract.world ∧
      (NodeProvider.ofDump RawBytecode oneContract 0).CodeSound knownCodes ∧
      oneContract.Lists oneContract.world := by
  have hraw : ∀ code ∈ oneContract.codes, code ≠ [] →
      ∃ bytecode : RawBytecode, newRaw code = some bytecode := by
    rintro code ⟨d, hd, rfl⟩ -
    obtain rfl := List.mem_singleton.mp hd
    exact ⟨⟨[0xfe]⟩, by decide⟩
  refine ⟨?_, ?_, DumpedState.lists_world (List.nodup_singleton _)⟩
  · exact NodeProvider.ofDump_shows 0 noCollision_knownCodes nil_mem_knownCodes
      oneContract_codes hraw
  · exact NodeProvider.ofDump_codeSound 0 noCollision_knownCodes oneContract_codes hraw

/-- A node with no account is an empty base state. -/
theorem empty_node :
    (NodeProvider.ofDump RawBytecode { accounts := [] } 0).Shows World.empty ∧
      (NodeProvider.ofDump RawBytecode { accounts := [] } 0).CodeSound knownCodes := by
  have hno : ∀ code ∈ DumpedState.codes { accounts := [] }, False := by
    rintro code ⟨d, hd, -⟩
    cases hd
  exact ⟨NodeProvider.ofDump_shows 0 noCollision_knownCodes nil_mem_knownCodes
      (fun code h => (hno code h).elim) fun code h => (hno code h).elim,
    NodeProvider.ofDump_codeSound 0 noCollision_knownCodes (fun code h => (hno code h).elim)
      fun code h => (hno code h).elim⟩

end RawBytecode

end AnvilReth
