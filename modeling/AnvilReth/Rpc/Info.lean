import AnvilReth.Rpc.State
import AnvilReth.Transition.Runs

/-! # What the node says about itself

Some requests describe the latest block: they read its number, fetch it and ask
for more, while further blocks are mined. The description is of one block that was
the latest at some time during the request.
-/

namespace AnvilReth

namespace Info

/-- Which forks are active at a timestamp. -/
structure ChainSpec where
  chainId : U64
  isShanghaiActiveAtTimestamp : U64 → Bool
  isCancunActiveAtTimestamp : U64 → Bool
  isPragueActiveAtTimestamp : U64 → Bool
  isOsakaActiveAtTimestamp : U64 → Bool

/-- What the build of the node knows about its package. -/
structure Package where
  name : String
  version : String
  gitSha : Option String

structure AnvilNodeConfig where
  chainSpec : ChainSpec
  instanceId : B256
  package : Package

def ChainSpec.hardforkName (spec : ChainSpec) (timestamp : U64) : String :=
  if spec.isOsakaActiveAtTimestamp timestamp then "osaka"
  else if spec.isPragueActiveAtTimestamp timestamp then "prague"
  else if spec.isCancunActiveAtTimestamp timestamp then "cancun"
  else if spec.isShanghaiActiveAtTimestamp timestamp then "shanghai"
  else "london"

/-- The names in the order of the forks. -/
def hardforks : List String := ["london", "shanghai", "cancun", "prague", "osaka"]

/-- An active fork stays active. -/
structure ChainSpec.Lasting (spec : ChainSpec) : Prop where
  shanghai : ∀ {t t' : U64}, t ≤ t' → spec.isShanghaiActiveAtTimestamp t →
    spec.isShanghaiActiveAtTimestamp t'
  cancun : ∀ {t t' : U64}, t ≤ t' → spec.isCancunActiveAtTimestamp t →
    spec.isCancunActiveAtTimestamp t'
  prague : ∀ {t t' : U64}, t ≤ t' → spec.isPragueActiveAtTimestamp t →
    spec.isPragueActiveAtTimestamp t'
  osaka : ∀ {t t' : U64}, t ≤ t' → spec.isOsakaActiveAtTimestamp t →
    spec.isOsakaActiveAtTimestamp t'

/-- The name never goes back to an earlier fork. -/
theorem ChainSpec.Lasting.hardforkName_mono {spec : ChainSpec} (h : spec.Lasting) {t t' : U64}
    (hle : t ≤ t') :
    hardforks.idxOf (spec.hardforkName t) ≤ hardforks.idxOf (spec.hardforkName t') := by
  have hosaka := h.osaka hle
  have hprague := h.prague hle
  have hcancun := h.cancun hle
  have hshanghai := h.shanghai hle
  unfold ChainSpec.hardforkName
  split_ifs <;> first | decide | simp_all

structure BlockHeader where
  number : U64
  hash : B256
  timestamp : U64
  gasLimit : U64
  baseFeePerGas : Option U64
  deriving DecidableEq

/-- The blocks, the oldest first. -/
structure Chain where
  headers : List BlockHeader
  nonempty : headers ≠ []
  numbered : ∀ (n : ℕ) (header : BlockHeader), headers[n]? = some header → header.number.toNat = n

namespace Chain

variable (c : Chain)

/-- `best_block_number`. -/
def best : U64 := BitVec.ofNat 64 (c.headers.length - 1)

/-- `block_by_number`. -/
def byNumber (number : U64) : Option BlockHeader := c.headers[number.toNat]?

/-- The chain with a block that has the next number. -/
def push (header : BlockHeader) (h : header.number.toNat = c.headers.length) : Chain where
  headers := c.headers ++ [header]
  nonempty := by simp
  numbered n found hn := by
    rw [List.getElem?_append] at hn
    split at hn
    · exact c.numbered n found hn
    · rename_i hlt
      obtain ⟨hle, hget⟩ := List.getElem?_eq_some_iff.mp hn
      rw [List.length_singleton] at hle
      simp only [List.getElem_singleton] at hget
      rw [← hget, h]
      omega

variable {c}

theorem length_pos : 0 < c.headers.length := List.length_pos_of_ne_nil c.nonempty

/-- The numbers do not run out before the blocks. -/
theorem toNat_best : c.best.toNat = c.headers.length - 1 := by
  have hpos := length_pos (c := c)
  have hlast := c.numbered (c.headers.length - 1) _ (List.getElem?_eq_getElem (by omega))
  rw [best, BitVec.toNat_ofNat, ← hlast]
  exact Nat.mod_eq_of_lt (BitVec.isLt _)

theorem byNumber_of_le {number : U64} (h : number ≤ c.best) :
    ∃ header, c.byNumber number = some header ∧ header.number = number := by
  have hpos := length_pos (c := c)
  rw [BitVec.le_def, toNat_best] at h
  have hlt : number.toNat < c.headers.length := by omega
  have hget : c.byNumber number = some c.headers[number.toNat] := List.getElem?_eq_getElem hlt
  exact ⟨_, hget, BitVec.eq_of_toNat_eq (c.numbered _ _ hget)⟩

theorem byNumber_eq_some {number : U64} {header : BlockHeader}
    (h : c.byNumber number = some header) : number ≤ c.best ∧ header.number = number := by
  obtain ⟨hlt, -⟩ := List.getElem?_eq_some_iff.mp h
  refine ⟨?_, BitVec.eq_of_toNat_eq (c.numbered _ _ h)⟩
  rw [BitVec.le_def, toNat_best]
  omega

end Chain

/-- The earlier chain is the beginning of the later one. -/
def Chain.Extends (later earlier : Chain) : Prop := earlier.headers <+: later.headers

namespace Chain.Extends

variable {later earlier : Chain}

theorem best_le (h : later.Extends earlier) : earlier.best ≤ later.best := by
  have hle := h.length_le
  rw [BitVec.le_def, toNat_best, toNat_best]
  omega

theorem byNumber (h : later.Extends earlier) {number : U64} {header : BlockHeader}
    (hn : earlier.byNumber number = some header) : later.byNumber number = some header := by
  obtain ⟨hlt, hget⟩ := List.getElem?_eq_some_iff.mp hn
  exact hget ▸ List.prefix_iff_getElem?.mp h number.toNat hlt

end Chain.Extends

structure NodeEnvironment where
  baseFee : BitVec 128
  chainId : U64
  gasLimit : U64
  gasPrice : BitVec 128
  deriving DecidableEq

structure NodeInfo where
  currentBlockNumber : U64
  currentBlockTimestamp : U64
  currentBlockHash : B256
  hardFork : String
  transactionOrder : String
  environment : NodeEnvironment
  deriving DecidableEq

structure Metadata where
  clientVersion : String
  clientSemver : Option String
  clientCommitSha : Option String
  chainId : U64
  instanceId : B256
  latestBlockNumber : U64
  latestBlockHash : B256
  deriving DecidableEq

namespace AnvilNodeConfig

variable (config : AnvilNodeConfig) (latest : BlockHeader)

def nodeInfo (gasPrice : BitVec 128) : NodeInfo where
  currentBlockNumber := latest.number
  currentBlockTimestamp := latest.timestamp
  currentBlockHash := latest.hash
  hardFork := config.chainSpec.hardforkName latest.timestamp
  transactionOrder := "fees"
  environment := {
    baseFee := (latest.baseFeePerGas.getD 0).setWidth 128
    chainId := config.chainSpec.chainId
    gasLimit := latest.gasLimit
    gasPrice }

def metadata : Metadata where
  clientVersion := config.package.name ++ "/v" ++ config.package.version
  clientSemver := some config.package.version
  clientCommitSha := config.package.gitSha
  chainId := config.chainSpec.chainId
  instanceId := config.instanceId
  latestBlockNumber := latest.number
  latestBlockHash := latest.hash

end AnvilNodeConfig

inductive Reply where
  | nodeInfo (info : NodeInfo)
  | metadata (metadata : Metadata)
  deriving DecidableEq

/-- The two requests for the latest block. -/
inductive Query where
  | nodeInfo
  | metadata
  deriving DecidableEq

/-- The next step of a request. -/
inductive Phase where
  | idle
  | bestBlockNumber (query : Query)
  | blockByNumber (query : Query) (number : U64)
  | gasPrice (latest : BlockHeader)
  | returned (result : RpcResult Reply)
  | panicked

/-- What the provider and the `eth` interface answer at a step. -/
structure Answers where
  number : ProviderResult U64
  block : RpcResult (Option BlockHeader)
  gasPrice : RpcResult U256

structure Node where
  config : AnvilNodeConfig
  chain : Chain
  requests : ℕ → Phase

inductive Event where
  | arrive (r : ℕ) (query : Query)
  | step (r : ℕ) (answers : Answers)
  | mine (header : BlockHeader)

namespace Phase

/-- `to::<u128>()` panics beyond the range of the type. -/
def advance (config : AnvilNodeConfig) (answers : Answers) : Phase → Phase
  | .bestBlockNumber query =>
    match mapProviderError "failed to read latest block number: " answers.number with
    | .error e => .returned (.error e)
    | .ok number => .blockByNumber query number
  | .blockByNumber query number =>
    match answers.block, query with
    | .error e, _ => .returned (.error e)
    | .ok none, _ =>
      .returned (.error (internalError ("missing block header " ++ toString number.toNat)))
    | .ok (some latest), .nodeInfo => .gasPrice latest
    | .ok (some latest), .metadata => .returned (.ok (.metadata (config.metadata latest)))
  | .gasPrice latest =>
    match answers.gasPrice with
    | .error e => .returned (.error e)
    | .ok price =>
      if price.toNat < 2 ^ 128 then
        .returned (.ok (.nodeInfo (config.nodeInfo latest (price.setWidth 128))))
      else .panicked
  | phase => phase

end Phase

namespace Node

def setRequest (s : Node) (r : ℕ) (phase : Phase) : Node :=
  { s with requests := Function.update s.requests r phase }

theorem setRequest_self (s : Node) (r : ℕ) (phase : Phase) :
    (s.setRequest r phase).requests r = phase := Function.update_self ..

theorem setRequest_of_ne (s : Node) {r r' : ℕ} (h : r' ≠ r) (phase : Phase) :
    (s.setRequest r phase).requests r' = s.requests r' := Function.update_of_ne h ..

def step (s : Node) : Event → Node
  | .arrive r query =>
    match s.requests r with
    | .idle => s.setRequest r (.bestBlockNumber query)
    | _ => s
  | .step r answers => s.setRequest r ((s.requests r).advance s.config answers)
  | .mine header =>
    if h : header.number.toNat = s.chain.headers.length then
      { s with chain := s.chain.push header h }
    else s

end Node

/-- The reads are answered as things are, if they are answered. -/
def Event.Sound (s : Node) : Event → Prop
  | .step r answers =>
    (answers.number = .ok s.chain.best ∨ ∃ error, answers.number = .error error) ∧
      ∀ query number, s.requests r = .blockByNumber query number →
        answers.block = .ok (s.chain.byNumber number) ∨ ∃ error, answers.block = .error error
  | .arrive _ _ | .mine _ => True

/-- All reads are answered. -/
def Answers.Complete (answers : Answers) : Prop :=
  answers.number.isOk ∧ answers.block.isOk ∧ answers.gasPrice.isOk

def Event.Answered : Event → Prop
  | .step _ answers => answers.Complete
  | .arrive _ _ | .mine _ => True

/-- The reply tells of the block. -/
def Reply.Describes (config : AnvilNodeConfig) (latest : BlockHeader) : Reply → Prop
  | .nodeInfo info => ∃ gasPrice, info = config.nodeInfo latest gasPrice
  | .metadata data => data = config.metadata latest

/-- The block was the latest at some time since the chain was an earlier one. -/
def Since (earlier chain : Chain) (latest : BlockHeader) : Prop :=
  earlier.best ≤ latest.number ∧ chain.byNumber latest.number = some latest

/-- What a request that has arrived knows of the chain. It has failed only if a read has. -/
def Phase.Knows (config : AnvilNodeConfig) (earlier chain : Chain) (failed : Prop) : Phase → Prop
  | .idle => False
  | .bestBlockNumber _ | .panicked => True
  | .blockByNumber _ number => earlier.best ≤ number ∧ number ≤ chain.best
  | .gasPrice latest => Since earlier chain latest
  | .returned (.ok reply) => ∃ latest, Since earlier chain latest ∧ reply.Describes config latest
  | .returned (.error _) => failed

namespace Phase.Knows

variable {config : AnvilNodeConfig} {earlier chain later : Chain} {failed : Prop} {phase : Phase}

theorem mono (h : phase.Knows config earlier chain failed) (he : later.Extends chain) :
    phase.Knows config earlier later failed := by
  cases phase with
  | idle | bestBlockNumber query | panicked => exact h
  | blockByNumber query number => exact ⟨h.1, BitVec.le_trans h.2 he.best_le⟩
  | gasPrice latest => exact ⟨h.1, he.byNumber h.2⟩
  | returned result =>
    cases result with
    | error e => exact h
    | ok reply =>
      obtain ⟨latest, hsince, hreply⟩ := h
      exact ⟨latest, ⟨hsince.1, he.byNumber hsince.2⟩, hreply⟩

/-- A block that is found was the latest one. -/
theorem advance (h : phase.Knows config earlier chain failed) (he : chain.Extends earlier)
    {answers : Answers}
    (hnumber : answers.number = .ok chain.best ∨ ∃ error, answers.number = .error error)
    (hblock : ∀ query number, phase = .blockByNumber query number →
      answers.block = .ok (chain.byNumber number) ∨ ∃ error, answers.block = .error error)
    (hanswers : ¬ answers.Complete → failed) :
    (phase.advance config answers).Knows config earlier chain failed := by
  cases phase with
  | idle | panicked | returned result => exact h
  | bestBlockNumber query =>
    unfold Phase.advance
    rcases hnumber with hn | ⟨error, hn⟩
    · rw [hn]
      exact ⟨he.best_le, BitVec.le_refl _⟩
    · have hfailed : failed := hanswers fun hc => by
        rw [Answers.Complete, hn] at hc
        cases hc.1
      rw [hn]
      exact hfailed
  | blockByNumber query number =>
    unfold Phase.advance
    rcases hblock query number rfl with hb | ⟨error, hb⟩
    · obtain ⟨latest, hget, rfl⟩ := Chain.byNumber_of_le h.2
      rw [hb, hget]
      cases query with
      | nodeInfo => exact ⟨h.1, hget⟩
      | metadata => exact ⟨latest, ⟨h.1, hget⟩, rfl⟩
    · have hfailed : failed := hanswers fun hc => by
        rw [Answers.Complete, hb] at hc
        cases hc.2.1
      rw [hb]
      exact hfailed
  | gasPrice latest =>
    unfold Phase.advance
    cases hp : answers.gasPrice with
    | error e =>
      exact hanswers fun hc => by
        rw [Answers.Complete, hp] at hc
        cases hc.2.2
    | ok price =>
      dsimp only
      split
      · exact ⟨latest, h, _, rfl⟩
      · trivial

end Phase.Knows

/-- A step extends the chain. -/
theorem Node.chain_step (s : Node) (e : Event) :
    (s.step e).config = s.config ∧ (s.step e).chain.Extends s.chain := by
  cases e with
  | arrive r query =>
    simp only [step]
    split <;> exact ⟨rfl, List.prefix_rfl⟩
  | step r answers => exact ⟨rfl, List.prefix_rfl⟩
  | mine header =>
    simp only [step]
    split
    · exact ⟨rfl, List.prefix_append ..⟩
    · exact ⟨rfl, List.prefix_rfl⟩

/-- The chain has grown since, and the request knows its part. -/
structure Knows (first : Node) (failed : Prop) (r : ℕ) (s : Node) : Prop where
  config : s.config = first.config
  chain : s.chain.Extends first.chain
  knows : (s.requests r).Knows first.config first.chain s.chain failed

namespace Knows

variable {first s : Node} {failed : Prop} {r : ℕ}

theorem step (h : Knows first failed r s) (e : Event) (he : e.Sound s)
    (hanswers : ¬ e.Answered → failed) : Knows first failed r (s.step e) := by
  obtain ⟨hconfig, hchain⟩ := s.chain_step e
  refine ⟨hconfig.trans h.config, h.chain.trans hchain, ?_⟩
  cases e with
  | arrive r' query =>
    simp only [Node.step]
    split
    · by_cases hr : r = r'
      · subst hr
        rw [Node.setRequest_self]
        trivial
      · rw [s.setRequest_of_ne hr]
        exact h.knows
    · exact h.knows
  | step r' answers =>
    simp only [Node.step]
    by_cases hr : r = r'
    · subst hr
      rw [Node.setRequest_self, h.config]
      exact h.knows.advance h.chain he.1 he.2 hanswers
    · rw [s.setRequest_of_ne hr]
      exact h.knows
  | mine header =>
    have hsame : (s.step (.mine header)).requests = s.requests := by
      simp only [Node.step]
      split <;> rfl
    rw [hsame]
    exact h.knows.mono hchain

/-- What a request knows once it has run for a while. -/
theorem run {query : Query} (hidle : s.requests r = .idle) {es : List Event}
    (hes : Transition.Each Node.step (fun s e => e.Sound s) (s.step (.arrive r query)) es) :
    Knows s (∃ e ∈ es, ¬ e.Answered) r
      (Transition.run Node.step s (.arrive r query :: es)) := by
  have hstart : Knows s (∃ e ∈ es, ¬ e.Answered) r (s.step (.arrive r query)) := by
    simp only [Node.step, hidle]
    refine ⟨rfl, List.prefix_rfl, ?_⟩
    rw [Node.setRequest_self]
    trivial
  have hsound : Transition.Each Node.step
      (fun s e => e.Sound s ∧ (¬ e.Answered → ∃ e ∈ es, ¬ e.Answered))
      (s.step (.arrive r query)) es := fun pre e hp =>
    ⟨hes pre e hp, fun hn =>
      ⟨e, hp.subset (List.mem_append_right _ (List.mem_singleton_self e)), hn⟩⟩
  exact (Transition.always_of_each hstart (fun s e h he => h.step e he.1 he.2) hsound).last

end Knows

/-- A node with a genesis block only, on which Prague is active from timestamp 2000. -/
def genesisNode : Node where
  config := {
    chainSpec := {
      chainId := 1337
      isShanghaiActiveAtTimestamp _ := true
      isCancunActiveAtTimestamp _ := true
      isPragueActiveAtTimestamp timestamp := 2000 ≤ timestamp
      isOsakaActiveAtTimestamp _ := false }
    instanceId := 7
    package := ⟨"anvil-reth", "0.1.0", none⟩ }
  chain := {
    headers := [⟨0, 10, 1000, 30000000, some 7⟩]
    nonempty := by simp
    numbered n header h := by
      obtain ⟨hlt, rfl⟩ := List.getElem?_eq_some_iff.mp h
      obtain rfl : n = 0 := by simpa using hlt
      rfl }
  requests _ := .idle

def blockAt (number timestamp : U64) : BlockHeader :=
  ⟨number, 10, timestamp, 30000000, some 7⟩

/-- A step of a request at a best block number, which fetches a block if it fetches one. -/
def reading (r : ℕ) (number : U64) (found : BlockHeader) : Event :=
  .step r ⟨.ok number, .ok (some found), .ok 9⟩

theorem sound_reading {s : Node} {r : ℕ} {number : U64} {found : BlockHeader} {phase : Phase}
    (hp : s.requests r = phase) (hbest : s.chain.best = number)
    (hfound : ∀ query n, phase = .blockByNumber query n → s.chain.byNumber n = some found) :
    (reading r number found).Sound s := by
  refine ⟨Or.inl (congrArg Except.ok hbest.symm), fun query n hn => Or.inl ?_⟩
  exact congrArg Except.ok (hfound query n (hp.symm.trans hn)).symm

/-- A request that describes the genesis block, and a block that overtakes it. -/
def overtaken : List Event :=
  [reading 0 0 (blockAt 0 1000), .mine (blockAt 1 2000), reading 0 1 (blockAt 0 1000),
    reading 0 1 (blockAt 0 1000)]

theorem each_overtaken : Transition.Each Node.step (fun s e => e.Sound s)
    (genesisNode.step (.arrive 0 .nodeInfo)) overtaken := by
  simp only [overtaken, Transition.each_cons, Transition.each_nil, and_true]
  refine ⟨sound_reading rfl rfl nofun, trivial, sound_reading rfl rfl ?_,
    sound_reading rfl rfl nofun⟩
  rintro query n ⟨⟩
  rfl

/-- The fork that a reply names. -/
def Reply.fork : Reply → Option String
  | .nodeInfo info => some info.hardFork
  | .metadata _ => none

def Reply.number : Reply → U64
  | .nodeInfo info => info.currentBlockNumber
  | .metadata data => data.latestBlockNumber

theorem Reply.Describes.number_eq {config : AnvilNodeConfig} {latest : BlockHeader} {reply : Reply}
    (h : reply.Describes config latest) : reply.number = latest.number := by
  cases reply with
  | nodeInfo info =>
    obtain ⟨gasPrice, rfl⟩ := h
    rfl
  | metadata data =>
    obtain rfl := h
    rfl

theorem Reply.Describes.fork_eq {config : AnvilNodeConfig} {latest : BlockHeader} {reply : Reply}
    (h : reply.Describes config latest) {name : String} (hf : reply.fork = some name) :
    name = config.chainSpec.hardforkName latest.timestamp := by
  cases reply with
  | nodeInfo info =>
    obtain ⟨gasPrice, rfl⟩ := h
    exact (Option.some.inj hf).symm
  | metadata data => cases hf

/-- The timestamps never decrease. -/
def Chain.Ordered (c : Chain) : Prop :=
  c.headers.Pairwise fun earlier later => earlier.timestamp ≤ later.timestamp

theorem Chain.Ordered.timestamp_le {c : Chain} (h : c.Ordered) {header header' : BlockHeader}
    (hget : c.byNumber header.number = some header)
    (hget' : c.byNumber header'.number = some header') (hle : header.number ≤ header'.number) :
    header.timestamp ≤ header'.timestamp := by
  obtain ⟨hlt, hheader⟩ := List.getElem?_eq_some_iff.mp hget
  obtain ⟨hlt', hheader'⟩ := List.getElem?_eq_some_iff.mp hget'
  rcases Nat.lt_or_eq_of_le (BitVec.le_def.mp hle) with hless | heq
  · have hpair := List.pairwise_iff_getElem.mp h _ _ hlt hlt' hless
    rwa [hheader, hheader'] at hpair
  · have hnumber := BitVec.eq_of_toNat_eq heq
    rw [hnumber, hget'] at hget
    rw [Option.some.inj hget]
    exact BitVec.le_refl _

/-- Of two requests, one after the other, the second never describes an earlier block, nor
an earlier fork as long as the timestamps never decrease. -/
theorem replies_advance (s : Node) (r r' : ℕ) (query query' : Query) (es es' : List Event)
    (hidle : s.requests r = .idle)
    (hes : Transition.Each Node.step (fun s e => e.Sound s) (s.step (.arrive r query)) es) :
    let t := Transition.run Node.step s (.arrive r query :: es)
    t.requests r' = .idle →
    Transition.Each Node.step (fun s e => e.Sound s) (t.step (.arrive r' query')) es' →
    let t' := Transition.run Node.step t (.arrive r' query' :: es')
    ∀ reply reply', t.requests r = .returned (.ok reply) →
      t'.requests r' = .returned (.ok reply') →
      reply.number ≤ reply'.number ∧
        (s.config.chainSpec.Lasting → t'.chain.Ordered →
          ∀ name name', reply.fork = some name → reply'.fork = some name' →
            hardforks.idxOf name ≤ hardforks.idxOf name') := by
  intro t hidle' hes' t' reply reply' hreply hreply'
  have h := Knows.run hidle hes
  have h' := Knows.run hidle' hes'
  have hknows := h.knows
  have hknows' := h'.knows
  rw [hreply] at hknows
  rw [hreply'] at hknows'
  obtain ⟨latest, ⟨-, hget⟩, hdescribes⟩ := hknows
  obtain ⟨latest', ⟨hle', hget'⟩, hdescribes'⟩ := hknows'
  have hle : latest.number ≤ latest'.number :=
    BitVec.le_trans (Chain.byNumber_eq_some hget).1 hle'
  rw [h.config] at hdescribes'
  refine ⟨?_, fun hlasting hordered name name' hname hname' => ?_⟩
  · rw [hdescribes.number_eq, hdescribes'.number_eq]
    exact hle
  · rw [hdescribes.fork_eq hname, hdescribes'.fork_eq hname']
    exact hlasting.hardforkName_mono (hordered.timestamp_le (h'.chain.byNumber hget) hget' hle)

theorem replies_advance_overtaken :
    let t := Transition.run Node.step genesisNode (.arrive 0 .nodeInfo :: overtaken)
    let t' := Transition.run Node.step t (.arrive 1 .nodeInfo ::
      List.replicate 3 (reading 1 1 (blockAt 1 2000)))
    ∃ reply reply', t.requests 0 = .returned (.ok reply) ∧
      t'.requests 1 = .returned (.ok reply') ∧ reply.number ≤ reply'.number := by
  intro t t'
  have hes' : Transition.Each Node.step (fun s e => e.Sound s) (t.step (.arrive 1 .nodeInfo))
      (List.replicate 3 (reading 1 1 (blockAt 1 2000))) := by
    simp only [List.replicate, Transition.each_cons, Transition.each_nil, and_true]
    refine ⟨sound_reading rfl rfl nofun, sound_reading rfl rfl ?_, sound_reading rfl rfl nofun⟩
    rintro query n ⟨⟩
    rfl
  exact ⟨_, _, rfl, rfl, (replies_advance genesisNode 0 1 .nodeInfo .nodeInfo overtaken _ rfl
    each_overtaken rfl hes' _ _ rfl rfl).1⟩

end Info

end AnvilReth
