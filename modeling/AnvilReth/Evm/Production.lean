import AnvilReth.Rpc.Narrowing
import AnvilReth.Time.Chain

/-! # Where a block comes from

The miner's hook stamps the attributes of a block and puts in its fee recipient;
the environment function then fixes the gas limit and the base fee. Requests and
queries of the pending block may come between any two of these steps, and an
attempt may fail at each of them or have its environment computed again.
-/

namespace AnvilReth

/-- The attributes of a payload: what the hook sets and what is passed through. -/
structure PayloadAttributes (Rest : Type) where
  timestamp : U64
  suggestedFeeRecipient : Address
  rest : Rest

namespace PayloadAttributes

variable {Rest : Type} (attributes : PayloadAttributes Rest)

def stamp (timestamp : U64) : PayloadAttributes Rest := { attributes with timestamp }

def withCoinbase (coinbase : Option Address) : PayloadAttributes Rest :=
  match coinbase with
  | some coinbase => { attributes with suggestedFeeRecipient := coinbase }
  | none => attributes

theorem withCoinbase_eq (coinbase : Option Address) :
    attributes.withCoinbase coinbase =
      { attributes with
        suggestedFeeRecipient := coinbase.getD attributes.suggestedFeeRecipient } := by
  cases coinbase <;> rfl

end PayloadAttributes

/-- The miner's mapper of attributes: it consumes a timestamp, and then reads
the coinbase override. -/
def payloadAttributesHook {Rest : Type} (time : TimeManager) (now : U64)
    (blockEnv : BlockEnvOverrides) (attributes : PayloadAttributes Rest) :
    PayloadAttributes Rest × TimeManager :=
  let (timestamp, time) := time.nextTimestamp now
  ((attributes.stamp timestamp).withCoinbase blockEnv.coinbase, time)

theorem BlockEnvOverrides.apply_eq {Attributes : Type} (o : BlockEnvOverrides)
    (attributes : NextBlockEnvAttributes Attributes) :
    o.apply attributes = ⟨o.gasLimit.getD attributes.gasLimit, attributes.rest⟩ := by
  unfold apply
  cases o.gasLimit <;> rfl

def anvilSetCoinbase (blockEnv : BlockEnvOverrides) (address : Address) :
    RpcResult Unit × BlockEnvOverrides :=
  (.ok (), blockEnv.setCoinbase address)

/-- What the environment of a block says besides the base fee. -/
structure BlockEnv where
  timestamp : U64
  beneficiary : Address
  gasLimit : U64
  deriving DecidableEq

namespace Production

open Transition

/-- How far the miner is with a block. The inner environment is there before the
base fee override is taken. -/
inductive Miner (Rest : Type) where
  | idle
  | stamped (attributes : PayloadAttributes Rest)
  | proposed (attributes : PayloadAttributes Rest)
  | limited (attributes : PayloadAttributes Rest) (env : EvmEnv BlockEnv)
  | priced (attributes : PayloadAttributes Rest) (env : EvmEnv BlockEnv)

/-- The attributes from which the environment can be computed, once or again. -/
def Miner.proposal {Rest : Type} : Miner Rest → Option (PayloadAttributes Rest)
  | proposed attributes | priced attributes _ => some attributes
  | _ => none

/-- A request, a query of the pending block that takes the base fee, or a step
of the miner. -/
inductive Event (Header Rest : Type) where
  | time (now : U64) (request : TimeRequest)
  | setBlockGasLimit (gasLimit : U256)
  | setCoinbase (address : Address)
  | setNextBlockBaseFee (baseFee : U256)
  | query
  | stamp (now : U64) (attributes : PayloadAttributes Rest)
  | recipient
  | limit (gasLimit : U64)
  | price
  | mine (head : Header)
  | fail

structure Node (Header Rest : Type) where
  time : TimeManager
  blockEnv : BlockEnvOverrides
  head : Header
  miner : Miner Rest
  /-- The environments of the blocks built so far, newest first. -/
  built : List (EvmEnv BlockEnv)

def Node.init {Header Rest : Type} (now startTimestamp : U64) (head : Header) :
    Node Header Rest where
  time := TimeManager.new now startTimestamp
  blockEnv := {}
  head
  miner := .idle
  built := []

variable {Header Rest Error : Type}
variable (inner : InnerEvm Header (PayloadAttributes Rest) BlockEnv Error)

def Node.step (s : Node Header Rest) : Event Header Rest → Option (Node Header Rest)
  | .time now request => some { s with time := request.handle s.time now }
  | .setBlockGasLimit gasLimit =>
    some { s with blockEnv := (AnvilReth.setBlockGasLimit s.blockEnv gasLimit).2 }
  | .setCoinbase address => some { s with blockEnv := (anvilSetCoinbase s.blockEnv address).2 }
  | .setNextBlockBaseFee baseFee =>
    some { s with blockEnv := (anvilSetNextBlockBaseFeePerGas s.blockEnv baseFee).2 }
  | .query => some { s with blockEnv := s.blockEnv.takeNextBaseFee.2 }
  | .stamp now attributes =>
    match s.miner with
    | .idle =>
      let (timestamp, time) := s.time.nextTimestamp now
      some { s with time, miner := .stamped (attributes.stamp timestamp) }
    | _ => none
  | .recipient =>
    match s.miner with
    | .stamped attributes =>
      some { s with miner := .proposed (attributes.withCoinbase s.blockEnv.coinbase) }
    | _ => none
  | .limit gasLimit =>
    s.miner.proposal.map fun attributes =>
      match inner s.head (s.blockEnv.apply ⟨gasLimit, attributes⟩) with
      | .error _ => { s with miner := .proposed attributes }
      | .ok env => { s with miner := .limited attributes env }
  | .price =>
    match s.miner with
    | .limited attributes env =>
      let (fee, blockEnv) := s.blockEnv.takeNextBaseFee
      some { s with blockEnv, miner := .priced attributes (env.setBaseFeeOpt fee) }
    | _ => none
  | .mine head =>
    match s.miner with
    | .priced _ env => some { s with head, miner := .idle, built := env :: s.built }
    | _ => none
  | .fail =>
    match s.miner with
    | .idle => none
    | _ => some { s with miner := .idle }

variable {s t : Node Header Rest}

/-- The two steps of the hook, with nothing between them. -/
theorem path_hook (now : U64) (attributes : PayloadAttributes Rest) (hs : s.miner = .idle) :
    let hook := payloadAttributesHook s.time now s.blockEnv attributes
    path (Node.step inner) s [.stamp now attributes, .recipient] =
      some { s with time := hook.2, miner := .proposed hook.1 } := by
  simp [path, Node.step, hs, payloadAttributesHook]

/-- The two steps of the environment function, with nothing between them. -/
theorem path_nextEvmEnv {attributes : PayloadAttributes Rest} {env : EvmEnv BlockEnv}
    {gasLimit : U64} {blockEnv : BlockEnvOverrides} (hs : s.miner.proposal = some attributes)
    (henv : nextEvmEnv inner s.blockEnv s.head ⟨gasLimit, attributes⟩ = (.ok env, blockEnv)) :
    path (Node.step inner) s [.limit gasLimit, .price] =
      some { s with blockEnv, miner := .priced attributes env } := by
  unfold nextEvmEnv at henv
  cases hi : inner s.head (s.blockEnv.apply ⟨gasLimit, attributes⟩) with
  | error err =>
    rw [hi] at henv
    cases henv
  | ok computed =>
    rw [hi] at henv
    cases henv
    simp [path, Node.step, hs, hi, BlockEnvOverrides.takeNextBaseFee]

/-- What an event makes of the coinbase override. -/
def Event.coinbase : Event Header Rest → Option Address
  | setCoinbase address => some address
  | _ => none

def Event.gasLimit : Event Header Rest → Option U64
  | setBlockGasLimit gasLimit => if gasLimit > maxU64 then none else some (gasLimit.setWidth 64)
  | _ => none

/-- A base fee is set, or the one that is there is taken. -/
def Event.baseFee : Event Header Rest → Option (Option U64)
  | setNextBlockBaseFee baseFee =>
    if baseFee > maxU64 then none else some (some (baseFee.setWidth 64))
  | query | price => some none
  | _ => none

/-- The overrides after a history: what was set last, but a base fee only if it
was not taken since. -/
def overrides (es : List (Event Header Rest)) : BlockEnvOverrides where
  gasLimit := last Event.gasLimit es
  coinbase := last Event.coinbase es
  nextBaseFee := (last Event.baseFee es).getD none

/-- The stage of an attempt an event begins: an attempt ends, and another is
stamped, gets its fee recipient, its gas limit and its base fee. -/
def Event.stage : Event Header Rest → ℕ
  | mine _ | fail => 0
  | stamp _ _ => 1
  | recipient => 2
  | limit _ => 3
  | price => 4
  | _ => 5

/-- The parts of a block, each with the history that decided on it. -/
structure Origin (Header Rest : Type) where
  now : U64
  attributes : PayloadAttributes Rest
  /-- The gas limit the payload builder would use. -/
  gasLimit : U64
  stamped : List (Event Header Rest)
  coined : List (Event Header Rest)
  limited : List (Event Header Rest)
  priced : List (Event Header Rest)

/-- The histories of the parts follow one another within one attempt. -/
structure Origin.Within (o : Origin Header Rest) (es : List (Event Header Rest)) : Prop where
  stamp : Stage Event.stage 1 o.stamped (.stamp o.now o.attributes) o.coined
  recipient : Stage Event.stage 2 o.coined .recipient o.limited
  limit : Stage Event.stage 3 o.limited (.limit o.gasLimit) o.priced
  price : Stage Event.stage 4 o.priced .price es

section History

variable {es : List (Event Header Rest)} {e : Event Header Rest}

/-- What a step makes of the overrides. -/
theorem blockEnv_step (hs : s.step inner e = some t) :
    t.blockEnv =
      { gasLimit := e.gasLimit.or s.blockEnv.gasLimit
        coinbase := e.coinbase.or s.blockEnv.coinbase
        nextBaseFee := e.baseFee.getD s.blockEnv.nextBaseFee } := by
  cases e with
  | setBlockGasLimit gasLimit =>
    cases hs
    simp only [Event.gasLimit, Event.coinbase, Event.baseFee, AnvilReth.setBlockGasLimit,
      checkedU64]
    split <;> rfl
  | setNextBlockBaseFee baseFee =>
    cases hs
    simp only [Event.gasLimit, Event.coinbase, Event.baseFee, anvilSetNextBlockBaseFeePerGas,
      checkedU64]
    split <;> rfl
  | limit gasLimit =>
    obtain ⟨attributes, -, rfl⟩ := Option.map_eq_some_iff.mp hs
    split <;> rfl
  | stamp now attributes | recipient | price | mine head | fail =>
    simp only [Node.step] at hs
    split at hs <;> cases hs
    all_goals rfl
  | _ =>
    cases hs
    rfl

/-- A block is built where the miner has its environment, and nowhere else. -/
theorem built_step (hs : s.step inner e = some t) :
    (t.built = s.built ∧ ∀ head, e ≠ .mine head) ∨
      ∃ head attributes env, e = .mine head ∧ s.miner = .priced attributes env ∧
        t.built = env :: s.built := by
  cases e with
  | mine head =>
    simp only [Node.step] at hs
    split at hs <;> cases hs
    rename_i attributes env hm
    exact Or.inr ⟨head, attributes, env, rfl, hm, rfl⟩
  | limit gasLimit =>
    obtain ⟨attributes, -, rfl⟩ := Option.map_eq_some_iff.mp hs
    left
    split <;> simp
  | stamp now attributes | recipient | price | fail =>
    simp only [Node.step] at hs
    split at hs <;> cases hs
    all_goals exact Or.inl ⟨rfl, by simp⟩
  | _ =>
    cases hs
    exact Or.inl ⟨rfl, by simp⟩

variable {now startTimestamp : U64} {head : Header}

theorem blockEnv_eq (hp : path (Node.step inner) (.init now startTimestamp head) es = some s) :
    s.blockEnv = overrides es := by
  refine path_history (I := fun es (s : Node Header Rest) => s.blockEnv = overrides es) rfl ?_ hp
  intro es r e t _ hr he
  rw [blockEnv_step inner he, hr]
  simp only [overrides, last_concat]
  cases e.baseFee <;> rfl

end History

section Stages

variable (start : Node Header Rest) (es : List (Event Header Rest))

/-- The attributes got their timestamp last. -/
def Stamped (attributes : PayloadAttributes Rest) : Prop :=
  ∃ pre clock given s, Stage Event.stage 1 pre (.stamp clock given) es ∧
    path (Node.step inner) start pre = some s ∧
    attributes = given.stamp (s.time.nextTimestamp clock).1

/-- The attributes got their fee recipient after their timestamp. -/
def Proposed (attributes : PayloadAttributes Rest) : Prop :=
  ∃ pre stamped, Stage Event.stage 2 pre .recipient es ∧ Stamped inner start pre stamped ∧
    attributes = stamped.withCoinbase (overrides pre).coinbase

/-- The environment was computed for the attributes, with a base fee of its own. -/
def Limited (attributes : PayloadAttributes Rest) (env : EvmEnv BlockEnv) : Prop :=
  ∃ pre gasLimit s, Stage Event.stage 3 pre (.limit gasLimit) es ∧
    Proposed inner start pre attributes ∧
    path (Node.step inner) start pre = some s ∧
    inner s.head ((overrides pre).apply ⟨gasLimit, attributes⟩) = .ok env

/-- The environment got its base fee after that. -/
def Priced (attributes : PayloadAttributes Rest) (env : EvmEnv BlockEnv) : Prop :=
  ∃ pre computed, Stage Event.stage 4 pre .price es ∧
    Limited inner start pre attributes computed ∧
    env = computed.setBaseFeeOpt (overrides pre).nextBaseFee

/-- What the miner has so far comes from the stages its attempt went through. -/
def Miner.Follows : Miner Rest → Prop
  | idle => True
  | stamped attributes => Stamped inner start es attributes
  | proposed attributes => Proposed inner start es attributes
  | limited attributes env =>
    Proposed inner start es attributes ∧
      Limited inner start es attributes env
  | priced attributes env =>
    Proposed inner start es attributes ∧
      Priced inner start es attributes env

end Stages

section Keep

variable {start : Node Header Rest} {es : List (Event Header Rest)} {e : Event Header Rest}
variable {attributes : PayloadAttributes Rest} {env : EvmEnv BlockEnv}

theorem Stamped.concat (h : Stamped inner start es attributes)
    (he : 1 < e.stage) : Stamped inner start (es ++ [e]) attributes := by
  obtain ⟨pre, clock, given, s, hstage, h⟩ := h
  exact ⟨pre, clock, given, s, hstage.concat he, h⟩

theorem Proposed.concat (h : Proposed inner start es attributes)
    (he : 2 < e.stage) : Proposed inner start (es ++ [e]) attributes := by
  obtain ⟨pre, stamped, hstage, h⟩ := h
  exact ⟨pre, stamped, hstage.concat he, h⟩

theorem Limited.concat (h : Limited inner start es attributes env)
    (he : 3 < e.stage) : Limited inner start (es ++ [e]) attributes env := by
  obtain ⟨pre, gasLimit, s, hstage, h⟩ := h
  exact ⟨pre, gasLimit, s, hstage.concat he, h⟩

theorem Priced.concat (h : Priced inner start es attributes env)
    (he : 4 < e.stage) : Priced inner start (es ++ [e]) attributes env := by
  obtain ⟨pre, computed, hstage, h⟩ := h
  exact ⟨pre, computed, hstage.concat he, h⟩

/-- An event that begins no stage leaves the miner's attempt as it is. -/
theorem Miner.Follows.concat {miner : Miner Rest}
    (h : miner.Follows inner start es) (he : 4 < e.stage) :
    miner.Follows inner start (es ++ [e]) := by
  cases miner with
  | idle => trivial
  | stamped attributes => exact Stamped.concat inner h (by omega)
  | proposed attributes => exact Proposed.concat inner h (by omega)
  | limited attributes env =>
    exact ⟨Proposed.concat inner h.1 (by omega), Limited.concat inner h.2 (by omega)⟩
  | priced attributes env =>
    exact ⟨Proposed.concat inner h.1 (by omega), Priced.concat inner h.2 he⟩

theorem Miner.Follows.proposal {miner : Miner Rest}
    (h : miner.Follows inner start es) (hm : miner.proposal = some attributes) :
    Proposed inner start es attributes := by
  cases miner with
  | proposed a =>
    obtain rfl := Option.some.inj hm
    exact h
  | priced a env =>
    obtain rfl := Option.some.inj hm
    exact h.1
  | _ => cases hm

/-- The miner's step to the next stage, and every other event in between. -/
theorem follows_step (hover : s.blockEnv = overrides es)
    (hp : path (Node.step inner) start es = some s)
    (h : s.miner.Follows inner start es) (he : s.step inner e = some t) :
    t.miner.Follows inner start (es ++ [e]) := by
  cases e with
  | stamp clock given =>
    simp only [Node.step] at he
    split at he <;> cases he
    exact ⟨es, clock, given, s, since_concat, hp, rfl⟩
  | recipient =>
    simp only [Node.step] at he
    split at he <;> cases he
    rename_i stamped hm
    rw [hm] at h
    exact ⟨es, stamped, since_concat, h, by rw [hover]⟩
  | limit gasLimit =>
    obtain ⟨attributes, hm, rfl⟩ := Option.map_eq_some_iff.mp he
    have hproposed : Proposed inner start (es ++ [.limit gasLimit]) attributes :=
      (h.proposal inner hm).concat inner (by simp [Event.stage])
    split
    · exact hproposed
    · rename_i env henv
      refine ⟨hproposed, es, gasLimit, s, since_concat, h.proposal inner hm, hp, ?_⟩
      rw [← hover]
      exact henv
  | price =>
    simp only [Node.step] at he
    split at he <;> cases he
    rename_i attributes env hm
    rw [hm] at h
    refine ⟨h.1.concat inner (by simp [Event.stage]), es, env, since_concat, h.2, ?_⟩
    rw [← hover]
    rfl
  | mine head | fail =>
    simp only [Node.step] at he
    split at he <;> cases he
    all_goals trivial
  | _ =>
    cases he
    exact h.concat inner (by simp [Event.stage])

theorem follows_of_path {now startTimestamp : U64} {head : Header}
    (hp : path (Node.step inner) (.init now startTimestamp head) es = some s) :
    s.miner.Follows inner (.init now startTimestamp head) es := by
  have hinit : Miner.Follows inner (.init now startTimestamp head) []
      (Node.init now startTimestamp head : Node Header Rest).miner := trivial
  refine path_history (I := fun es (s : Node Header Rest) => s.miner.Follows inner _ es) hinit ?_ hp
  intro es r e t hr h he
  exact follows_step inner (blockEnv_eq inner hr) hr h he

end Keep

/-- The inner function takes the attributes into its environment. -/
def Respects : Prop :=
  ∀ parent attributes env, inner parent attributes = .ok env →
    env.rest = ⟨attributes.rest.timestamp, attributes.rest.suggestedFeeRecipient,
      attributes.gasLimit⟩

/-- What a block got from its origin: the timestamp of the manager when it was
stamped, the coinbase set by then and the gas limit set before its environment
was computed, and the base fee due when that had been done. -/
structure Carries (start : Node Header Rest) (o : Origin Header Rest) (env : EvmEnv BlockEnv) :
    Prop where
  timestamp : ∃ s, path (Node.step inner) start o.stamped = some s ∧
    env.rest.timestamp = (s.time.nextTimestamp o.now).1
  beneficiary : env.rest.beneficiary =
    (last Event.coinbase o.coined).getD o.attributes.suggestedFeeRecipient
  gasLimit : env.rest.gasLimit = (last Event.gasLimit o.limited).getD o.gasLimit
  baseFee : ∃ s computed, path (Node.step inner) start o.limited = some s ∧
    inner s.head ⟨env.rest.gasLimit,
      ⟨env.rest.timestamp, env.rest.beneficiary, o.attributes.rest⟩⟩ = .ok computed ∧
    env.baseFee = ((last Event.baseFee o.priced).getD none).getD computed.baseFee

section Blocks

variable {inner} {start : Node Header Rest} {es : List (Event Header Rest)}
variable {attributes : PayloadAttributes Rest} {env : EvmEnv BlockEnv}

/-- The stages of a priced environment make up its origin. -/
theorem Priced.origin (hinner : Respects inner) (h : Priced inner start es attributes env) :
    ∃ o : Origin Header Rest, o.Within es ∧ Carries inner start o env := by
  obtain ⟨priced, computed, hprice, ⟨limited, gasLimit, s, hlimit, hproposed, hs, hok⟩, rfl⟩ := h
  obtain ⟨coined, _, hrecipient, ⟨stamped, now, given, r, hstamp, hr, rfl⟩, rfl⟩ := hproposed
  rw [BlockEnvOverrides.apply_eq, PayloadAttributes.withCoinbase_eq] at hok
  have hrest := hinner _ _ _ hok
  refine ⟨⟨now, given, gasLimit, stamped, coined, limited, priced⟩,
    ⟨hstamp, hrecipient, hlimit, hprice⟩, ?_⟩
  constructor
  · exact ⟨r, hr, congrArg BlockEnv.timestamp hrest⟩
  · exact congrArg BlockEnv.beneficiary hrest
  · exact congrArg BlockEnv.gasLimit hrest
  · refine ⟨s, computed, hs, ?_, rfl⟩
    simp only [EvmEnv.setBaseFeeOpt, hrest]
    exact hok

/-- Whatever requests, queries, failures and repeated computations come between
its stages, a block has its timestamp, fee recipient, gas limit and base fee
each from one moment of its own attempt. -/
theorem block_prescribed (hinner : Respects inner) {now startTimestamp : U64} {head : Header}
    {e : Event Header Rest}
    (hp : path (Node.step inner) (.init now startTimestamp head) (es ++ [e]) = some t) :
    ∃ s, path (Node.step inner) (.init now startTimestamp head) es = some s ∧
      ((t.built = s.built ∧ ∀ head', e ≠ .mine head') ∨
        ∃ head' o env, e = .mine head' ∧ t.built = env :: s.built ∧ Origin.Within o es ∧
          Carries inner (.init now startTimestamp head) o env) := by
  obtain ⟨s, hs, he⟩ := path_concat_iff.mp hp
  refine ⟨s, hs, ?_⟩
  rcases built_step inner he with hnone | ⟨head', attributes, env, rfl, hminer, hbuilt⟩
  · exact Or.inl hnone
  · have hfollows := follows_of_path inner hs
    rw [hminer] at hfollows
    obtain ⟨o, ho, hcarries⟩ := hfollows.2.origin hinner
    exact Or.inr ⟨head', o, env, rfl, hbuilt, ho, hcarries⟩

end Blocks

section Between

/-- An inner function with a constant fee. -/
def constantEnv : InnerEvm Unit (PayloadAttributes Unit) BlockEnv Unit := fun _ attributes =>
  .ok ⟨7, attributes.rest.timestamp, attributes.rest.suggestedFeeRecipient, attributes.gasLimit⟩

/-- Each override is set once before and once after the stage that reads it. -/
def between : List (Event Unit Unit) :=
  [.setCoinbase 1, .setBlockGasLimit 60000000, .stamp 1000 ⟨0, 0, ()⟩, .time 1000 (.setTime 5),
    .recipient, .setCoinbase 2, .setBlockGasLimit 90000000, .limit 30000000,
    .setBlockGasLimit 120000000, .setNextBlockBaseFee 42, .price, .setNextBlockBaseFee 43]

theorem block_prescribed_between :
    ∃ o, Origin.Within o between ∧
      Carries constantEnv (.init 1000 1000 ()) o ⟨42, 1001, 1, 90000000⟩ := by
  have hinner : Respects constantEnv := by
    rintro parent attributes env h
    cases h
    rfl
  have hpath : (path (Node.step constantEnv) (.init 1000 1000 ()) (between ++ [.mine ()])).map
      Node.built = some [⟨42, 1001, 1, 90000000⟩] := by
    rfl
  obtain ⟨t, ht, hbuilt⟩ := Option.map_eq_some_iff.mp hpath
  obtain ⟨s, hs, ⟨-, hne⟩ | ⟨-, o, env, -, hnew, ho, hcarries⟩⟩ := block_prescribed hinner ht
  · exact absurd rfl (hne ())
  · rw [hbuilt] at hnew
    obtain rfl := (List.cons.inj hnew).1
    exact ⟨o, ho, hcarries⟩

end Between

end Production

end AnvilReth
