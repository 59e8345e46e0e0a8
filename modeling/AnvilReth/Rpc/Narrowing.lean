import AnvilReth.Evm.NextBlock
import AnvilReth.Mining.Mine

/-! # Arguments narrowed to 64 bits

Some requests take a 256-bit number and pass on 64 bits of it. Three handlers
check the number and refuse one that does not fit; the time jump and the mine
request convert it unchecked, and panic.
-/

namespace AnvilReth

/-- `U256::from(u64::MAX)`. -/
def maxU64 : U256 := (BitVec.allOnes 64).setWidth 256

/-- A handler that refuses a number beyond the range of the narrower type. -/
def checkedU64 {α σ : Type} (message : String) (value : U256) (s : σ)
    (perform : U64 → RpcResult α × σ) : RpcResult α × σ :=
  if value > maxU64 then (.error (invalidParams message), s) else perform (value.setWidth 64)

section Handlers

variable (blockEnv : BlockEnvOverrides)

def setBlockGasLimit (gasLimit : U256) : RpcResult Bool × BlockEnvOverrides :=
  checkedU64 "gas_limit exceeds u64::MAX" gasLimit blockEnv fun limit =>
    (.ok true, blockEnv.setGasLimit limit)

def anvilSetNextBlockBaseFeePerGas (baseFee : U256) : RpcResult Unit × BlockEnvOverrides :=
  checkedU64 "base_fee exceeds u64::MAX" baseFee blockEnv fun fee =>
    (.ok (), blockEnv.setNextBaseFee fee)

end Handlers

namespace Mining

/-- The request asks for exactly so many blocks, and exactly so long an interval
if it still has to set it. -/
structure Request.Exact (numBlocks interval : Option U256) (q : Request) : Prop where
  running : q.phase ≠ .panicked ∧ q.phase ≠ .idle
  blocks : q.blocks.toNat = (numBlocks.getD 1).toNat
  reads : ∀ value, q.phase = .readInterval value → interval = some value
  sets : ∀ value, q.phase = .setInterval value → interval = some value

namespace Request.Exact

variable {numBlocks interval : Option U256} {q : Request}

theorem finish (h : q.Exact numBlocks interval) (result : RpcResult Unit) :
    (q.finish result).Exact numBlocks interval := by
  unfold Request.finish
  cases q.timed <;> exact ⟨⟨nofun, nofun⟩, h.blocks, fun _ => nofun, fun _ => nofun⟩

theorem pollHead (h : q.Exact numBlocks interval) (left : ℕ) (read : RpcResult U64) :
    (q.pollHead left read).Exact numBlocks interval := by
  unfold Request.pollHead
  split
  · exact h.finish _
  · split
    · exact h.finish _
    · exact ⟨⟨nofun, nofun⟩, h.blocks, fun _ => nofun, fun _ => nofun⟩

theorem mineBlocks (h : q.blocks.toNat = (numBlocks.getD 1).toNat) :
    q.mineBlocks.Exact numBlocks interval := by
  unfold Request.mineBlocks
  split
  · unfold Request.finish
    cases q.timed <;> exact ⟨⟨nofun, nofun⟩, h, fun _ => nofun, fun _ => nofun⟩
  · exact ⟨⟨nofun, nofun⟩, h, fun _ => nofun, fun _ => nofun⟩

theorem arrive (h : (numBlocks.getD 1).toNat < 2 ^ 64) :
    (Request.arrive numBlocks interval).Exact numBlocks interval := by
  have hwidth : ((numBlocks.getD 1).setWidth 64).toNat = (numBlocks.getD 1).toNat := by
    rw [BitVec.toNat_setWidth, Nat.mod_eq_of_lt h]
  unfold Request.arrive
  dsimp only
  rw [if_pos h]
  split
  · rename_i value hv
    refine ⟨⟨nofun, nofun⟩, hwidth, ?_, fun _ => nofun⟩
    rintro _ ⟨⟩
    exact (Option.filter_eq_some_iff.mp hv).1
  · exact mineBlocks hwidth

theorem advance {s : Node} {r : ℕ} (h : (s.requests r).Exact numBlocks interval)
    (hi : (interval.getD 0).toNat < 2 ^ 64) (read : ProviderResult U64) :
    ((s.advance r read).requests r).Exact numBlocks interval := by
  unfold Node.advance
  dsimp only
  cases hp : (s.requests r).phase with
  | idle | returned result | panicked => exact h
  | readInterval value =>
    dsimp only
    rw [Node.setRequest_self]
    refine ⟨⟨nofun, nofun⟩, h.blocks, fun _ => nofun, ?_⟩
    rintro _ ⟨⟩
    exact h.reads value hp
  | setInterval value =>
    obtain rfl := h.sets value hp
    have hv : value.toNat < 2 ^ 64 := hi
    dsimp only
    rw [Node.setInterval, if_pos hv, Node.setRequest_self]
    exact mineBlocks h.blocks
  | readHead =>
    dsimp only
    split
    · rw [Node.setRequest_self]
      exact h.finish _
    · rw [Node.setRequest_self]
      exact ⟨⟨nofun, nofun⟩, h.blocks, fun _ => nofun, fun _ => nofun⟩
  | trigger left =>
    cases left with
    | zero | succ left =>
      dsimp only
      rw [Node.setRequest_self]
      exact ⟨⟨nofun, nofun⟩, h.blocks, fun _ => nofun, fun _ => nofun⟩
  | poll left =>
    cases left with
    | zero =>
      dsimp only
      rw [Node.setRequest_self]
      exact h.finish _
    | succ left =>
      dsimp only
      rw [Node.setRequest_self]
      exact h.pollHead left _
  | restore result =>
    dsimp only
    rw [Node.restore, Node.setRequest_self]
    exact ⟨⟨nofun, nofun⟩, h.blocks, fun _ => nofun, fun _ => nofun⟩

theorem step {s : Node} {r : ℕ} (h : (s.requests r).Exact numBlocks interval)
    (hi : (interval.getD 0).toNat < 2 ^ 64) (e : Event) :
    ((s.step e).requests r).Exact numBlocks interval := by
  cases e with
  | mine r' numBlocks' interval' =>
    simp only [Node.step]
    split
    · rename_i hp
      have hne : r ≠ r' := by
        rintro rfl
        exact h.running.2 hp
      rwa [s.setRequest_of_ne hne]
    · exact h
  | step r' read =>
    by_cases hr : r = r'
    · rw [← hr]
      exact h.advance hi read
    · rw [Node.step, s.requests_advance_of_ne hr]
      exact h
  | trigger => exact h
  | serve now => rwa [Node.step, s.requests_serve]
  | finishBlock => rwa [Node.step, s.requests_finishBlock]
  | failBlock => rwa [Node.step, s.requests_failBlock]

end Request.Exact

end Mining

end AnvilReth
