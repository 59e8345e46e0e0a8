import AnvilReth.Transition.Runs
import AnvilReth.Words.Types

/-! # The environment of the next block

Block builds and read-only queries of the pending block obtain their
environment from one function, which applies the gas limit override and takes
the base fee override. The fee is meant for the next block built; it is lost to
any successful call that does not end in a block.
-/

namespace AnvilReth

/-- Shared block-environment overrides. The gas limit and the coinbase are
persistent, the base fee is for the next block. -/
structure BlockEnvOverrides where
  gasLimit : Option U64 := none
  coinbase : Option Address := none
  nextBaseFee : Option U64 := none
  deriving DecidableEq

namespace BlockEnvOverrides

def setGasLimit (o : BlockEnvOverrides) (limit : U64) : BlockEnvOverrides :=
  { o with gasLimit := some limit }

def setCoinbase (o : BlockEnvOverrides) (address : Address) : BlockEnvOverrides :=
  { o with coinbase := some address }

/-- Sets the base fee for the next block only. -/
def setNextBaseFee (o : BlockEnvOverrides) (fee : U64) : BlockEnvOverrides :=
  { o with nextBaseFee := some fee }

/-- Takes the next-block base fee override, consuming it. -/
def takeNextBaseFee (o : BlockEnvOverrides) : Option U64 × BlockEnvOverrides :=
  (o.nextBaseFee, { o with nextBaseFee := none })

theorem takeNextBaseFee_of_none {o : BlockEnvOverrides} (h : o.nextBaseFee = none) :
    o.takeNextBaseFee = (none, o) := by
  cases o
  cases h
  rfl

end BlockEnvOverrides

/-- The attributes of the next block: the gas limit and what is passed through. -/
structure NextBlockEnvAttributes (Rest : Type) where
  gasLimit : U64
  rest : Rest

/-- The environment of a block: the base fee and what is passed through. -/
structure EvmEnv (Rest : Type) where
  baseFee : U64
  rest : Rest

/-- `set_base_fee_opt`: no fee leaves the environment as it is. -/
def EvmEnv.setBaseFeeOpt {Rest : Type} (env : EvmEnv Rest) (fee : Option U64) : EvmEnv Rest :=
  { env with baseFee := fee.getD env.baseFee }

/-- The environment function of the wrapped configuration. -/
abbrev InnerEvm (Header Attributes Env Error : Type) :=
  Header → NextBlockEnvAttributes Attributes → Except Error (EvmEnv Env)

variable {Header Attributes Env Error : Type}

/-- The attributes with the gas limit override. -/
def BlockEnvOverrides.apply (o : BlockEnvOverrides)
    (attributes : NextBlockEnvAttributes Attributes) : NextBlockEnvAttributes Attributes :=
  match o.gasLimit with
  | some gasLimit => { attributes with gasLimit }
  | none => attributes

/-- The environment of the next block. The override is taken after the inner
call has succeeded. -/
def nextEvmEnv (inner : InnerEvm Header Attributes Env Error) (o : BlockEnvOverrides)
    (parent : Header) (attributes : NextBlockEnvAttributes Attributes) :
    Except Error (EvmEnv Env) × BlockEnvOverrides :=
  match inner parent (o.apply attributes) with
  | .error e => (.error e, o)
  | .ok env =>
    let (fee, o) := o.takeNextBaseFee
    (.ok (env.setBaseFeeOpt fee), o)

namespace BaseFee

/-- A request that sets an override, a block build, or a read-only query. Each call
comes with what the wrapped configuration answers, each build with what becomes
of its environment: a new head, or nothing when the build fails later. -/
inductive Event (Header Attributes Env Error : Type) where
  | setGasLimit (limit : U64)
  | setCoinbase (address : Address)
  | setNextBaseFee (fee : U64)
  | build (inner : InnerEvm Header Attributes Env Error)
      (attributes : NextBlockEnvAttributes Attributes) (finish : EvmEnv Env → Option Header)
  | read (inner : InnerEvm Header Attributes Env Error)
      (attributes : NextBlockEnvAttributes Attributes)

def Event.isRead : Event Header Attributes Env Error → Bool
  | read _ _ => true
  | _ => false

/-- The node: its overrides, the head, the base fees of the blocks built so far,
newest first, and the last fee set since the last of them. -/
structure Node (Header : Type) where
  overrides : BlockEnvOverrides
  head : Header
  built : List U64
  due : Option U64

/-- A block build: the fee and the header of the block, if there is one. -/
def Node.build (s : Node Header) (inner : InnerEvm Header Attributes Env Error)
    (attributes : NextBlockEnvAttributes Attributes) (finish : EvmEnv Env → Option Header) :
    Option (U64 × Header) × BlockEnvOverrides :=
  match nextEvmEnv inner s.overrides s.head attributes with
  | (.error _, o) => (none, o)
  | (.ok env, o) => ((finish env).map fun header => (env.baseFee, header), o)

def Node.step (s : Node Header) : Event Header Attributes Env Error → Node Header
  | .setGasLimit limit => { s with overrides := s.overrides.setGasLimit limit }
  | .setCoinbase address => { s with overrides := s.overrides.setCoinbase address }
  | .setNextBaseFee fee => { s with overrides := s.overrides.setNextBaseFee fee, due := some fee }
  | .build inner attributes finish =>
    match s.build inner attributes finish with
    | (none, overrides) => { s with overrides }
    | (some (fee, head), overrides) => { overrides, head, built := fee :: s.built, due := none }
  | .read inner attributes =>
    { s with overrides := (nextEvmEnv inner s.overrides s.head attributes).2 }

/-- No call takes a pending fee without building a block: a query whose inner
call succeeds, and a build that fails after it, find none. -/
def KeepsFee (s : Node Header) : Event Header Attributes Env Error → Prop
  | .setGasLimit _ | .setCoinbase _ | .setNextBaseFee _ => True
  | .build inner attributes finish =>
    ∀ env, inner s.head (s.overrides.apply attributes) = .ok env →
      finish (env.setBaseFeeOpt s.overrides.nextBaseFee) = none → s.overrides.nextBaseFee = none
  | .read inner attributes =>
    ∀ env, inner s.head (s.overrides.apply attributes) = .ok env → s.overrides.nextBaseFee = none

/-- A block that an event builds carries the fee that is due, else the one the
wrapped configuration computed. -/
def CarriesDue (s : Node Header) (e : Event Header Attributes Env Error) : Prop :=
  ∀ inner attributes finish block, e = .build inner attributes finish →
    (s.build inner attributes finish).1 = some block →
    ∃ env, inner s.head (s.overrides.apply attributes) = .ok env ∧
      block.1 = s.due.getD env.baseFee

variable {s : Node Header} {es : List (Event Header Attributes Env Error)}

theorem due_step (hs : s.due = s.overrides.nextBaseFee) {e : Event Header Attributes Env Error}
    (he : KeepsFee s e) : (s.step e).due = (s.step e).overrides.nextBaseFee := by
  cases e with
  | setGasLimit limit => exact hs
  | setCoinbase address => exact hs
  | setNextBaseFee fee => rfl
  | build inner attributes finish =>
    simp only [Node.step, Node.build, nextEvmEnv]
    cases hi : inner s.head (s.overrides.apply attributes) with
    | error err => exact hs
    | ok env =>
      simp only [BlockEnvOverrides.takeNextBaseFee]
      cases hf : finish (env.setBaseFeeOpt s.overrides.nextBaseFee) with
      | none => exact hs.trans (he env hi hf)
      | some header => rfl
  | read inner attributes =>
    simp only [Node.step, nextEvmEnv]
    cases hi : inner s.head (s.overrides.apply attributes) with
    | error err => exact hs
    | ok env => exact hs.trans (he env hi)

theorem carriesDue_of_due (hs : s.due = s.overrides.nextBaseFee)
    (e : Event Header Attributes Env Error) : CarriesDue s e := by
  rintro inner attributes finish block rfl hb
  simp only [Node.build, nextEvmEnv] at hb
  cases hi : inner s.head (s.overrides.apply attributes) with
  | error err =>
    rw [hi] at hb
    cases hb
  | ok env =>
    rw [hi] at hb
    obtain ⟨header, -, rfl⟩ := Option.map_eq_some_iff.mp hb
    refine ⟨env, rfl, ?_⟩
    rw [hs]
    rfl

/-- A query that finds no fee pending changes nothing. -/
theorem step_read {e : Event Header Attributes Env Error} (he : KeepsFee s e)
    (hr : e.isRead = true) : s.step e = s := by
  cases e with
  | read inner attributes =>
    simp only [Node.step, nextEvmEnv]
    cases hi : inner s.head (s.overrides.apply attributes) with
    | error err => rfl
    | ok env =>
      simp only [BlockEnvOverrides.takeNextBaseFee_of_none (he env hi)]
  | _ => cases hr

/-- Where no call takes a pending fee without building a block, every block
carries the last fee set since the block before it, else the fee computed for
it, and leaving out the queries changes no block. -/
theorem base_fee_once (hs : s.due = s.overrides.nextBaseFee)
    (hc : Transition.Each Node.step KeepsFee s es) :
    Transition.Each Node.step CarriesDue s es ∧
      (Transition.run Node.step s (es.filter fun e => !e.isRead)).built =
        (Transition.run Node.step s es).built := by
  have hdue : Transition.Always Node.step (fun s => s.due = s.overrides.nextBaseFee) s es :=
    Transition.always_of_each hs (fun s e hs he => due_step hs he) hc
  refine ⟨hdue.each fun s e hs => carriesDue_of_due hs e, ?_⟩
  rw [Transition.run_filter_of_each (fun s e he hr => step_read he (by simpa using hr)) hc]

section Constant

/-- A wrapped configuration that always computes one fee. -/
def constantFee (fee : U64) : InnerEvm Unit Unit Unit Unit := fun _ _ => .ok ⟨fee, ()⟩

def buildConstant : Event Unit Unit Unit Unit :=
  .build (constantFee 7) ⟨30000000, ()⟩ fun _ => some ()

def startNode : Node Unit where
  overrides := {}
  head := ()
  built := []
  due := none

theorem base_fee_once_builds :
    let es := [.read (constantFee 7) ⟨30000000, ()⟩, .setNextBaseFee 42, buildConstant,
      .read (constantFee 7) ⟨30000000, ()⟩, buildConstant]
    (Transition.run Node.step startNode (es.filter fun e => !e.isRead)).built =
      (Transition.run Node.step startNode es).built := by
  intro es
  have hb : ∀ s : Node Unit, KeepsFee s buildConstant := by
    intro s env _ hf
    cases hf
  have hc : Transition.Each Node.step KeepsFee startNode es := by
    simp only [es, Transition.each_cons]
    exact ⟨fun _ _ => rfl, trivial, hb _, fun _ _ => rfl, hb _, Transition.each_nil⟩
  exact (base_fee_once rfl hc).2

/-- A query between the request and the build spends the fee. -/
theorem read_spends_fee :
    ¬ ∀ (s : Node Unit) (es : List (Event Unit Unit Unit Unit)),
      s.due = s.overrides.nextBaseFee →
      Transition.Each Node.step CarriesDue s es ∧
        (Transition.run Node.step s (es.filter fun e => !e.isRead)).built =
          (Transition.run Node.step s es).built := by
  intro h
  have hrun := (h startNode
    [.setNextBaseFee 42, .read (constantFee 7) ⟨30000000, ()⟩, buildConstant] rfl).2
  exact absurd hrun (by decide)

end Constant

end BaseFee

end AnvilReth
