import Mathlib.Data.List.Chain
import AnvilReth.Mining.Leftover

/-! # Blocks with a timestamp

A detailed mine request sets the exact timestamp of the next block, has its
blocks mined and fetches them by number. A request that runs alone gets its
timestamp on the first of its blocks, if it asks for any, and uses it up.
-/

namespace AnvilReth

namespace Mining

inductive MineOptions where
  | options (timestamp blocks : Option U64)
  | timestamp (timestamp : Option U64)

instance : Inhabited MineOptions := ⟨.options none none⟩

/-- The timestamp and the number of blocks that are asked for. -/
def MineOptions.parts : MineOptions → Option U64 × U64
  | options t blocks => (t, blocks.getD 1)
  | timestamp t => (t, 1)

structure Block where
  number : U64
  timestamp : U64
  deriving DecidableEq

/-- What `mine_blocks` returns: the numbers after the head it found, up to the
one it waited for. -/
def Request.numbers (q : Request) : List U64 :=
  match q.start with
  | none => []
  | some start => (List.range (q.target.toNat - start.toNat)).map fun i =>
      start + 1 + BitVec.ofNat 64 i

/-- The mined block of a number. -/
def Node.blockAt (s : Node) (number : U64) : Option Block :=
  if s.head < number then none
  else (s.mined[(s.head - number).toNat]?).map fun block => ⟨number, block.2⟩

namespace Detailed

inductive Progress where
  | setTimestamp (timestamp blocks : U64)
  | mining
  | collecting (numbers : List U64) (blocks : List Block)
  | returned (result : RpcResult (List Block))

/-- The node with the request, whose call of `mine_blocks` is the node's request 0. -/
structure State where
  node : Node
  progress : Progress

/-- A step of the request, with the head number it reads or the block it fetches
if it does, or a step of anything else in the node. -/
inductive Event where
  | request (read : ProviderResult U64) (fetched : RpcResult (Option Block))
  | node (e : Mining.Event)

namespace State

/-- The call of `mine_blocks`. -/
def mineBlocks (node : Node) (blocks : U64) : State :=
  ⟨node.setRequest 0 (Request.mineBlocks { blocks }), .mining⟩

/-- The arrival of `anvil_mine_detailed` at a node without pending triggers. -/
def start (time : TimeManager) (head : U64) (opts : Option MineOptions) : State :=
  match (opts.getD default).parts with
  | (some timestamp, blocks) => ⟨.start time head 0, .setTimestamp timestamp blocks⟩
  | (none, blocks) => mineBlocks (.start time head 0) blocks

variable (s : State)

def setTimestamp (timestamp blocks : U64) : State :=
  match s.node.time.setNextBlockTimestamp timestamp with
  | (.ok _, time) => mineBlocks { s.node with time } blocks
  | (.error message, time) => ⟨{ s.node with time }, .returned (.error (invalidParams message))⟩

/-- The fetch of one block. -/
def collect (number : U64) (numbers : List U64) (blocks : List Block)
    (fetched : RpcResult (Option Block)) : Progress :=
  match fetched with
  | .error e => .returned (.error e)
  | .ok none =>
    .returned (.error (internalError ("missing mined block " ++ toString number.toNat)))
  | .ok (some block) => .collecting numbers (blocks ++ [block])

def request (read : ProviderResult U64) (fetched : RpcResult (Option Block)) : State :=
  match s.progress with
  | .setTimestamp timestamp blocks => s.setTimestamp timestamp blocks
  | .mining =>
    match (s.node.requests 0).phase with
    | .returned (.ok _) => { s with progress := .collecting (s.node.requests 0).numbers [] }
    | .returned (.error e) => { s with progress := .returned (.error e) }
    | _ => { s with node := s.node.advance 0 read }
  | .collecting [] blocks => { s with progress := .returned (.ok blocks) }
  | .collecting (number :: numbers) blocks =>
    { s with progress := collect number numbers blocks fetched }
  | .returned _ => s

def step (s : State) : Event → State
  | .request read fetched => s.request read fetched
  | .node e => { s with node := s.node.step e }

end State

/-- No other request runs, the head number and the blocks are read as they are
if they can be read, and every block that is begun is mined. -/
def Event.Sound (s : State) : Event → Prop
  | .request read fetched =>
    (read = .ok s.node.head ∨ ∃ error, read = .error error) ∧
      ∀ number numbers blocks, s.progress = .collecting (number :: numbers) blocks →
        ∀ block, fetched = .ok (some block) → s.node.blockAt number = some block
  | .node (.serve _) | .node .finishBlock | .node .trigger => True
  | .node (.mine _ _ _) | .node (.step _ _) | .node .failBlock => False

/-- Nobody else issues triggers either. -/
def Event.Alone (s : State) (e : Event) : Prop := e.Sound s ∧ e ≠ .node .trigger

/-- The next timestamp is larger, unless there is no larger one. -/
def Rises (earlier later : U64) : Prop := earlier < later ∨ earlier = BitVec.allOnes 64

/-- The timestamps of the blocks so far, the latest first. -/
def stamps (s : Node) : List U64 := (s.building.toList ++ s.mined).map Prod.snd

/-- The exact timestamp is pending until there is a block, and then it is the
first block's, the others rise from it and nothing is pending. -/
def Stamped (t : U64) (time : TimeManager) : List U64 → Prop
  | [] => time.nextExactTimestamp = some t ∧ time.lastTimestamp ≤ t
  | last :: stamps =>
    time.nextExactTimestamp = none ∧ time.lastTimestamp = last ∧
      (last :: stamps).getLast? = some t ∧
      (last :: stamps).IsChain fun later earlier => Rises earlier later

theorem Stamped.next {t : U64} {time : TimeManager} {stamps : List U64} (h : Stamped t time stamps)
    (now : U64) : Stamped t (time.nextTimestamp now).2 ((time.nextTimestamp now).1 :: stamps) := by
  cases stamps with
  | nil =>
    obtain ⟨hexact, hle⟩ := h
    rw [TimeManager.nextTimestamp_of_exact hexact hle]
    exact ⟨rfl, rfl, rfl, List.isChain_singleton t⟩
  | cons last stamps =>
    obtain ⟨hexact, rfl, hfirst, hchain⟩ := h
    rw [TimeManager.nextTimestamp_of_none hexact]
    refine ⟨hexact, rfl, ?_, List.isChain_cons_cons.mpr ⟨?_, hchain⟩⟩
    · rwa [List.getLast?_cons_cons]
    · exact TimeManager.lastTimestamp_lt_next_of_none hexact

/-- An accepted request for some blocks, and the node it meets. -/
structure Plan where
  time : TimeManager
  head : U64
  timestamp : U64
  blocks : U64
  accepted : time.lastTimestamp ≤ timestamp
  some_blocks : blocks ≠ 0
  reaches : head.toNat + blocks.toNat < 2 ^ 64

/-- What the call of `mine_blocks` has read at each of its steps. -/
def Plan.Waits (p : Plan) (q : Request) : Prop :=
  match q.phase with
  | .readHead => q.start = none
  | .trigger _ | .poll _ | .returned (.ok _) => q.start = some p.head
  | .returned (.error _) => True
  | .idle | .readInterval _ | .setInterval _ | .restore _ | .panicked => False

/-- The blocks so far are those of the request, which has set its timestamp. -/
structure Running (p : Plan) (s : Node) : Prop where
  queued : Queued 0 0 s
  untimed : (s.requests 0).timed = false
  blocks : (s.requests 0).blocks = p.blocks
  waits : p.Waits (s.requests 0)
  head : s.head.toNat = p.head.toNat + s.finished
  length : s.mined.length = s.finished
  done : (s.requests 0).phase = .returned (.ok ()) → s.finished = p.blocks.toNat
  stamped : Stamped p.timestamp s.time (stamps s)

namespace Running

variable {p : Plan} {s : Node}

theorem issued_le (h : Running p s) : (s.requests 0).issued ≤ p.blocks.toNat := by
  rw [← h.blocks]
  exact Request.issued_le

/-- After a request that went well the miner has nothing left to do. -/
theorem idle_of_done (h : Running p s) (hd : (s.requests 0).phase = .returned (.ok ())) :
    s.building = none ∧ s.triggers = [] := by
  have hlen := h.queued.served_add
  have hissued := h.issued_le
  have hdone := h.done hd
  constructor
  · cases hb : s.building with
    | none => rfl
    | some block =>
      rw [hb, Option.toList_some, List.length_singleton] at hlen
      omega
  · exact List.eq_nil_of_length_eq_zero (by omega)

theorem serve (h : Running p s) (now : U64) : Running p (s.serve now) := by
  have hqueued := h.queued.serve now
  revert hqueued
  unfold Node.serve
  cases hb : s.building with
  | some block => exact fun _ => h
  | none =>
    cases ht : s.triggers with
    | nil => exact fun _ => h
    | cons issuer triggers =>
      intro hqueued
      have hstamps : stamps s = s.mined.map Prod.snd := by rw [stamps, hb]; rfl
      have hstamped := h.stamped.next now
      rw [hstamps] at hstamped
      exact ⟨hqueued, h.untimed, h.blocks, h.waits, h.head, h.length, h.done, hstamped⟩

theorem finishBlock (h : Running p s) : Running p s.finishBlock := by
  unfold Node.finishBlock
  cases hb : s.building with
  | none => exact h
  | some block =>
    have hlen := h.queued.served_add
    have hissued := h.issued_le
    have hreaches := p.reaches
    have hhead := h.head
    have hstamps : stamps s = (block :: s.mined).map Prod.snd := by rw [stamps, hb]; rfl
    have hstamped := h.stamped
    rw [hstamps] at hstamped
    rw [hb, Option.toList_some, List.length_singleton] at hlen
    refine ⟨h.queued.finish hb rfl rfl rfl rfl, h.untimed, h.blocks, h.waits, ?_, ?_,
      fun hd => ?_, hstamped⟩
    · change (s.head + 1).toNat = _ + (s.finished + 1)
      rw [BitVec.toNat_add, hhead]
      change (_ + 1) % 2 ^ 64 = _
      rw [Nat.mod_eq_of_lt (by omega)]
      omega
    · exact congrArg Nat.succ h.length
    · have hdone := h.done hd
      omega

/-- A step of the request, which may issue a trigger. -/
theorem move (h : Running p s) {triggers : List (Option ℕ)} {q : Request}
    (hqueued : Queued 0 0 ({ s with triggers }.setRequest 0 q)) (ht : q.timed = false)
    (hb : q.blocks = p.blocks) (hw : p.Waits q)
    (hd : q.phase = .returned (.ok ()) → s.finished = p.blocks.toNat) :
    Running p ({ s with triggers }.setRequest 0 q) := by
  have hself := Node.setRequest_self { s with triggers } 0 q
  refine ⟨hqueued, ?_, ?_, ?_, h.head, h.length, ?_, h.stamped⟩
  · rwa [hself]
  · rwa [hself]
  · rwa [hself]
  · rwa [hself]

/-- A request that gives up leaves what was mined. -/
theorem fail (h : Running p s) {e : RpcError}
    (hqueued : Queued 0 0 (s.setRequest 0 ((s.requests 0).finish (.error e)))) :
    Running p (s.setRequest 0 ((s.requests 0).finish (.error e))) := by
  have hphase : ((s.requests 0).finish (.error e)).phase = .returned (.error e) := by
    rw [Request.finish, h.untimed]
    rfl
  refine h.move hqueued h.untimed h.blocks ?_ fun hd => ?_
  · rw [Plan.Waits, hphase]
    trivial
  · rw [hphase] at hd
    cases hd

/-- The wait ends well only when all blocks are there. -/
theorem pollHead (h : Running p s) {left : ℕ} (hp : (s.requests 0).phase = .poll (left + 1))
    {read : ProviderResult U64} (hread : read = .ok s.head ∨ ∃ error, read = .error error)
    (hqueued : Queued 0 0 (s.setRequest 0 ((s.requests 0).pollHead left
      (mapProviderError "failed to read latest block number: " read)))) :
    Running p (s.setRequest 0 ((s.requests 0).pollHead left
      (mapProviderError "failed to read latest block number: " read))) := by
  have hw := h.waits
  rw [Plan.Waits, hp] at hw
  revert hqueued
  rcases hread with rfl | ⟨error, rfl⟩
  · simp only [mapProviderError, Request.pollHead]
    split
    · rename_i hle
      intro hqueued
      have hphase : ((s.requests 0).finish (.ok ())).phase = .returned (.ok ()) := by
        rw [Request.finish, h.untimed]
        rfl
      refine h.move hqueued h.untimed h.blocks ?_ fun _ => ?_
      · rw [Plan.Waits, hphase]
        exact hw
      · have hreaches := p.reaches
        have hhead := h.head
        have hissued := h.issued_le
        have hlen := h.queued.served_add
        rw [BitVec.le_def, Request.target, hw, Option.getD_some, Saturating.toNat_add,
          h.blocks] at hle
        omega
    · intro hqueued
      exact h.move hqueued h.untimed h.blocks hw nofun
  · exact h.fail

theorem advance (h : Running p s) {read : ProviderResult U64}
    (hread : read = .ok s.head ∨ ∃ error, read = .error error) :
    Running p (s.advance 0 read) := by
  have hqueued := h.queued.advance read
  have hw := h.waits
  unfold Plan.Waits at hw
  revert hqueued hw
  unfold Node.advance
  dsimp only
  cases hp : (s.requests 0).phase with
  | idle | returned result | panicked => exact fun _ _ => h
  | readInterval interval | setInterval interval | restore result => exact fun _ => False.elim
  | readHead =>
    intro hqueued hs
    revert hqueued
    rcases hread with rfl | ⟨error, rfl⟩
    · have hlen := h.queued.served_add
      rw [Request.issued_of_none hs] at hlen
      have hhead : s.head = p.head := by
        refine BitVec.eq_of_toNat_eq ?_
        rw [h.head]
        omega
      exact fun hqueued => h.move hqueued h.untimed h.blocks (congrArg some hhead) nofun
    · exact h.fail
  | trigger left =>
    intro hqueued hs
    cases left with
    | zero | succ left => exact h.move hqueued h.untimed h.blocks hs nofun
  | poll left =>
    intro hqueued hs
    cases left with
    | zero => exact h.fail hqueued
    | succ left => exact h.pollHead hp hread hqueued

/-- The call of `mine_blocks` begins with the timestamp set. -/
theorem start (p : Plan) :
    Running p ({ Node.start p.time p.head 0 with
      time := { p.time with nextExactTimestamp := some p.timestamp } }.setRequest 0
        (Request.mineBlocks { blocks := p.blocks })) := by
  have hq : Request.mineBlocks { blocks := p.blocks } =
      { blocks := p.blocks, phase := .readHead } :=
    if_neg p.some_blocks
  have hissuing : Request.Issuing { blocks := p.blocks, phase := .readHead } :=
    ⟨rfl, p.some_blocks⟩
  rw [hq]
  exact ⟨(Queued.start p.time p.head 0 0).move hissuing rfl _ none, rfl, rfl, rfl, rfl, rfl, nofun,
    rfl, p.accepted⟩

end Running

/-- The numbers of the request's blocks. -/
def Plan.numbers (p : Plan) : List U64 :=
  (List.range p.blocks.toNat).map fun i => p.head + 1 + BitVec.ofNat 64 i

/-- All blocks are mined, some are fetched and the numbers of the others are left. -/
structure Collected (p : Plan) (s : Node) (numbers : List U64) (blocks : List Block) : Prop where
  running : Running p s
  mined : (s.requests 0).phase = .returned (.ok ())
  numbers : blocks.map Block.number ++ numbers = p.numbers
  timestamps : blocks.map Block.timestamp = ((s.mined.map Prod.snd).reverse).take blocks.length

namespace Collected

variable {p : Plan} {s : Node} {numbers : List U64} {blocks : List Block}

theorem start (h : Running p s) (hp : (s.requests 0).phase = .returned (.ok ())) :
    Collected p s (s.requests 0).numbers [] := by
  refine ⟨h, hp, ?_, rfl⟩
  have hw := h.waits
  have hreaches := p.reaches
  rw [Plan.Waits, hp] at hw
  have htarget : (s.requests 0).target.toNat - p.head.toNat = p.blocks.toNat := by
    rw [Request.target, hw, Option.getD_some, Saturating.toNat_add, h.blocks]
    omega
  rw [Request.numbers, hw]
  dsimp only
  rw [htarget]
  rfl

theorem length_mined (h : Collected p s numbers blocks) : s.mined.length = p.blocks.toNat :=
  h.running.length.trans (h.running.done h.mined)

/-- The block of the next number is the next one that was mined. -/
theorem collect {number : U64} (h : Collected p s (number :: numbers) blocks) {block : Block}
    (hb : s.blockAt number = some block) : Collected p s numbers (blocks ++ [block]) := by
  have hlength := h.length_mined
  have hreaches := p.reaches
  have hhead := h.running.head
  rw [h.running.done h.mined] at hhead
  have hlt : blocks.length < p.blocks.toNat := by
    have hlen := congrArg List.length h.numbers
    rw [List.length_append, List.length_map, List.length_cons, Plan.numbers, List.length_map,
      List.length_range] at hlen
    omega
  have hnumber : number.toNat = p.head.toNat + 1 + blocks.length := by
    have hget := congrArg (fun l => l[blocks.length]?) h.numbers
    rw [List.getElem?_append_right (by rw [List.length_map]), List.length_map, Nat.sub_self,
      List.getElem?_cons_zero, Plan.numbers, List.getElem?_map, List.getElem?_range hlt,
      Option.map_some, Option.some.injEq] at hget
    rw [hget, BitVec.toNat_add, BitVec.toNat_add, BitVec.toNat_ofNat]
    change ((p.head.toNat + 1) % 2 ^ 64 + _) % 2 ^ 64 = _
    omega
  have hindex : (s.head - number).toNat = s.mined.length - 1 - blocks.length := by
    rw [BitVec.toNat_sub, hhead, hnumber, hlength]
    omega
  have hnot : ¬ s.head < number := by
    rw [BitVec.lt_def, hhead, hnumber]
    omega
  rw [Node.blockAt, if_neg hnot, hindex] at hb
  obtain ⟨mined, hget, rfl⟩ := Option.map_eq_some_iff.mp hb
  refine ⟨h.running, h.mined, ?_, ?_⟩
  · rw [List.map_append, List.append_assoc]
    exact h.numbers
  · have hnext : (s.mined.map Prod.snd).reverse[blocks.length]? = some mined.2 := by
      rw [List.getElem?_reverse (by rw [List.length_map, hlength]; exact hlt), List.length_map,
        List.getElem?_map, hget, Option.map_some]
    rw [List.length_append, List.length_singleton, List.take_add_one, hnext, List.map_append,
      h.timestamps]
    rfl

/-- What was collected in the end: all the blocks, from the timestamp upwards. -/
theorem all (h : Collected p s [] blocks) :
    blocks.map Block.number = p.numbers ∧
      (blocks.map Block.timestamp).head? = some p.timestamp ∧
      (blocks.map Block.timestamp).IsChain Rises ∧ s.time.nextExactTimestamp = none := by
  have hnumbers := h.numbers
  have hlength := h.length_mined
  have htimestamps := h.timestamps
  rw [List.append_nil] at hnumbers
  have hlen : blocks.length = ((s.mined.map Prod.snd).reverse).length := by
    have hlen := congrArg List.length hnumbers
    rw [List.length_reverse, List.length_map, hlength]
    rwa [List.length_map, Plan.numbers, List.length_map, List.length_range] at hlen
  rw [hlen, List.take_length] at htimestamps
  have hstamped := h.running.stamped
  have hstamps : stamps s = s.mined.map Prod.snd := by
    rw [stamps, (h.running.idle_of_done h.mined).1]
    rfl
  rw [hstamps] at hstamped
  refine ⟨hnumbers, ?_⟩
  rw [htimestamps, List.head?_reverse, List.isChain_reverse]
  cases hm : s.mined.map Prod.snd with
  | nil =>
    have hzero := congrArg List.length hm
    rw [List.length_map, hlength] at hzero
    exact absurd (BitVec.eq_of_toNat_eq hzero) p.some_blocks
  | cons last rest =>
    rw [hm] at hstamped
    obtain ⟨hexact, -, hfirst, hchain⟩ := hstamped
    exact ⟨hfirst, hchain, hexact⟩

end Collected

theorem serve_of_idle {s : Node} (h : s.building = none ∧ s.triggers = []) (now : U64) :
    s.serve now = s := by
  simp only [Node.serve, h.1, h.2]

theorem finishBlock_of_idle {s : Node} (h : s.building = none ∧ s.triggers = []) :
    s.finishBlock = s := by
  simp only [Node.finishBlock, h.1]

theorem idle_start (time : TimeManager) (head : U64) :
    (Node.start time head 0).building = none ∧ (Node.start time head 0).triggers = [] := ⟨rfl, rfl⟩

/-- An accepted request as far as it has come without failing. -/
def Applied (p : Plan) (s : State) : Prop :=
  match s.progress with
  | .setTimestamp timestamp blocks =>
    timestamp = p.timestamp ∧ blocks = p.blocks ∧ s.node = .start p.time p.head 0
  | .mining => Running p s.node
  | .collecting numbers blocks => Collected p s.node numbers blocks
  | .returned (.ok blocks) => Collected p s.node [] blocks
  | .returned (.error _) => True

namespace Applied

variable {p : Plan} {s : State}

/-- A step of the miner. -/
theorem mine (h : Applied p s) {serve : Node → Node} (hidle : ∀ node : Node,
      node.building = none ∧ node.triggers = [] → serve node = node)
    (hrunning : Running p s.node → Running p (serve s.node)) :
    Applied p { s with node := serve s.node } := by
  unfold Applied at h ⊢
  dsimp only
  split at h
  · obtain ⟨ht, hb, hnode⟩ := h
    rw [hnode, hidle _ (idle_start _ _)]
    exact ⟨ht, hb, rfl⟩
  · exact hrunning h
  · rwa [hidle _ (h.running.idle_of_done h.mined)]
  · rwa [hidle _ (h.running.idle_of_done h.mined)]
  · trivial

theorem request (h : Applied p s) {read : ProviderResult U64} {fetched : RpcResult (Option Block)}
    (he : Event.Sound s (.request read fetched)) : Applied p (s.request read fetched) := by
  obtain ⟨hread, hfetched⟩ := he
  unfold Applied at h
  unfold State.request
  cases hp : s.progress with
  | setTimestamp timestamp blocks =>
    rw [hp] at h
    obtain ⟨rfl, rfl, hnode⟩ := h
    have hset : s.node.time.setNextBlockTimestamp p.timestamp =
        (.ok (), { p.time with nextExactTimestamp := some p.timestamp }) := by
      rw [hnode]
      exact if_neg (BitVec.not_lt.mpr p.accepted)
    dsimp only
    rw [State.setTimestamp, hset, hnode]
    exact Running.start p
  | mining =>
    rw [hp] at h
    dsimp only
    split
    · rename_i u hphase
      exact Collected.start h hphase
    · trivial
    · exact h.advance hread
  | collecting numbers blocks =>
    rw [hp] at h
    cases numbers with
    | nil => exact h
    | cons number numbers =>
      dsimp only
      cases hf : fetched with
      | error e => trivial
      | ok block =>
        cases block with
        | none => trivial
        | some block => exact h.collect (hfetched number numbers blocks hp block hf)
  | returned result =>
    rw [hp] at h
    rw [Applied, hp]
    exact h

theorem step (h : Applied p s) (e : Event) (he : e.Alone s) : Applied p (s.step e) := by
  obtain ⟨hsound, hother⟩ := he
  cases e with
  | request read fetched => exact h.request hsound
  | node e =>
    cases e with
    | serve now => exact h.mine (fun node hi => serve_of_idle hi now) fun hr => hr.serve now
    | finishBlock => exact h.mine (fun node hi => finishBlock_of_idle hi) Running.finishBlock
    | trigger => exact absurd rfl hother
    | mine | step | failBlock => exact hsound.elim

end Applied

/-- A refused request has changed nothing in the node. -/
def Refused (time : TimeManager) (head timestamp blocks : U64) (s : State) : Prop :=
  s.node = .start time head 0 ∧
    (s.progress = .setTimestamp timestamp blocks ∨ ∃ e, s.progress = .returned (.error e))

theorem Refused.step {time : TimeManager} {head timestamp blocks : U64} {s : State}
    (h : Refused time head timestamp blocks s) (hlt : timestamp < time.lastTimestamp) (e : Event)
    (he : e.Alone s) : Refused time head timestamp blocks (s.step e) := by
  obtain ⟨hnode, hprogress⟩ := h
  obtain ⟨hsound, hother⟩ := he
  cases e with
  | request read fetched =>
    rw [State.step, State.request]
    rcases hprogress with hp | ⟨e, hp⟩ <;> rw [hp] <;> dsimp only
    · have hset : s.node.time.setNextBlockTimestamp timestamp =
          (.error (toString timestamp.toNat ++ " is lower than previous block's timestamp"),
            time) := by
        rw [hnode]
        exact if_pos hlt
      rw [State.setTimestamp, hset, hnode]
      exact ⟨rfl, Or.inr ⟨_, rfl⟩⟩
    · exact ⟨hnode, Or.inr ⟨e, hp⟩⟩
  | node e =>
    cases e with
    | serve now =>
      have hidle := serve_of_idle (hnode ▸ idle_start time head : s.node.building = none ∧ _) now
      exact ⟨hidle.trans hnode, hprogress⟩
    | finishBlock =>
      have hidle := finishBlock_of_idle (hnode ▸ idle_start time head : s.node.building = none ∧ _)
      exact ⟨hidle.trans hnode, hprogress⟩
    | trigger => exact absurd rfl hother
    | mine | step | failBlock => exact hsound.elim

/-- A request for some blocks with a timestamp that runs alone and succeeds returns
just its blocks, the first at the timestamp and the others rising from it, and
the timestamp is used up. If the timestamp is refused, nothing happens. -/
theorem mineDetailed_applies (time : TimeManager) (head : U64) (opts : Option MineOptions)
    (timestamp blocks : U64) (hopts : (opts.getD default).parts = (some timestamp, blocks))
    (es : List Event)
    (hes : Transition.Each State.step (fun s e => e.Alone s) (.start time head opts) es) :
    let s := Transition.run State.step (.start time head opts) es
    (blocks ≠ 0 → head.toNat + blocks.toNat < 2 ^ 64 →
      ∀ returned, s.progress = .returned (.ok returned) →
        returned.map Block.number = (List.range blocks.toNat).map
          (fun i => head + 1 + BitVec.ofNat 64 i) ∧
        (returned.map Block.timestamp).head? = some timestamp ∧
        (returned.map Block.timestamp).IsChain Rises ∧
        s.node.time.nextExactTimestamp = none) ∧
    (timestamp < time.lastTimestamp →
      s.node = .start time head 0 ∧ ∀ returned, s.progress ≠ .returned (.ok returned)) := by
  intro s
  have hstart : State.start time head opts =
      ⟨.start time head 0, .setTimestamp timestamp blocks⟩ := by
    rw [State.start, hopts]
  have hrefused : timestamp < time.lastTimestamp →
      s.node = .start time head 0 ∧ ∀ returned, s.progress ≠ .returned (.ok returned) := by
    intro hlt
    have h : Refused time head timestamp blocks s := by
      refine (Transition.always_of_each ?_ (fun s e h he => h.step hlt e he) hes).last
      rw [hstart]
      exact ⟨rfl, Or.inl rfl⟩
    refine ⟨h.1, fun returned hreturned => ?_⟩
    rcases h.2 with hp | ⟨e, hp⟩ <;> rw [hreturned] at hp <;> cases hp
  refine ⟨fun hblocks hreaches returned hreturned => ?_, hrefused⟩
  have haccepted : time.lastTimestamp ≤ timestamp :=
    BitVec.not_lt.mp fun hlt => (hrefused hlt).2 returned hreturned
  set p : Plan := ⟨time, head, timestamp, blocks, haccepted, hblocks, hreaches⟩
  have h : Applied p s := by
    refine (Transition.always_of_each ?_ (fun s e h he => h.step e he) hes).last
    rw [hstart]
    exact ⟨rfl, rfl, rfl⟩
  rw [Applied, hreturned] at h
  exact h.all

/-- A step of a request that fetches nothing, at a head number. -/
def reading (head : U64) : Event := .request (.ok head) (.ok none)

def fetching (head number timestamp : U64) : Event :=
  .request (.ok head) (.ok (some ⟨number, timestamp⟩))

/-- A request for two blocks, and the miner. -/
def twoBlocksAt (first second : U64) : List Event :=
  [reading 0, reading 0, reading 0, reading 0, .node (.serve 1000), .node .finishBlock,
    .node (.serve 1000), .node .finishBlock, reading 2, reading 2, reading 2,
    fetching 2 1 first, fetching 2 2 second, reading 2]

theorem sound_reading {s : State} {head : U64} (h : s.node.head = head) : (reading head).Sound s :=
  ⟨Or.inl (congrArg Except.ok h.symm), fun _ _ _ _ _ => nofun⟩

theorem alone_reading {s : State} {head : U64} (h : s.node.head = head) : (reading head).Alone s :=
  ⟨sound_reading h, nofun⟩

theorem sound_fetching {s : State} {head number timestamp : U64} {numbers : List U64}
    {blocks : List Block} (h : s.node.head = head)
    (hp : s.progress = .collecting (number :: numbers) blocks)
    (hb : s.node.blockAt number = some ⟨number, timestamp⟩) :
    (fetching head number timestamp).Sound s := by
  refine ⟨Or.inl (congrArg Except.ok h.symm), ?_⟩
  intro number' numbers' blocks' hp' block hblock
  obtain ⟨hnumbers, -⟩ := Progress.collecting.inj (hp.symm.trans hp')
  obtain ⟨rfl, -⟩ := List.cons.inj hnumbers
  obtain rfl := Option.some.inj (Except.ok.inj hblock)
  exact hb

/-- At the largest timestamp the second block gets it, too. -/
theorem each_twoBlocksAt :
    ∀ p ∈ [((5000 : U64), (5001 : U64)), (BitVec.allOnes 64, BitVec.allOnes 64)],
      Transition.Each State.step (fun s e => e.Alone s)
        (.start (.new 1000 1000) 0 (some (.options (some p.1) (some 2))))
        (twoBlocksAt p.1 p.2) := by
  intro p hp
  simp only [List.mem_cons, List.not_mem_nil, or_false] at hp
  simp only [twoBlocksAt, Transition.each_cons, Transition.each_nil, and_true]
  rcases hp with rfl | rfl <;>
    exact ⟨alone_reading rfl, alone_reading rfl, alone_reading rfl, alone_reading rfl,
      ⟨trivial, nofun⟩, ⟨trivial, nofun⟩, ⟨trivial, nofun⟩, ⟨trivial, nofun⟩, alone_reading rfl,
      alone_reading rfl, alone_reading rfl, ⟨sound_fetching rfl rfl rfl, nofun⟩,
      ⟨sound_fetching rfl rfl rfl, nofun⟩, alone_reading rfl⟩

theorem mineDetailed_applies_twoBlocks :
    let s := Transition.run State.step
      (.start (.new 1000 1000) 0 (some (.options (some 5000) (some 2)))) (twoBlocksAt 5000 5001)
    ∃ returned, s.progress = .returned (.ok returned) ∧
      (returned.map Block.timestamp).head? = some 5000 ∧ s.node.time.nextExactTimestamp = none := by
  obtain ⟨happlies, -⟩ := mineDetailed_applies (.new 1000 1000) 0
    (some (.options (some 5000) (some 2))) 5000 2 rfl (twoBlocksAt 5000 5001)
    (each_twoBlocksAt (5000, 5001) List.mem_cons_self)
  obtain ⟨-, hfirst, -, hexact⟩ := happlies (by decide) (by decide) _ rfl
  exact ⟨_, rfl, hfirst, hexact⟩

/-- The first block has the timestamp, the others larger ones, and it is used up. -/
structure Promised (timestamp : U64) (returned : List Block) (time : TimeManager) : Prop where
  first : ∀ block ∈ returned.head?, block.timestamp = timestamp
  larger : (returned.map Block.timestamp).IsChain (· < ·)
  used : time.nextExactTimestamp = none

/-- Every request that succeeds keeps the promise, if its timestamp and number of
blocks meet a condition and so do the steps of the run. -/
def Promises (D : U64 → U64 → Prop) (C : State → Event → Prop) : Prop :=
  ∀ (time : TimeManager) (head : U64) (opts : Option MineOptions) (timestamp blocks : U64)
    (es : List Event), (opts.getD default).parts = (some timestamp, blocks) →
    D timestamp blocks → head.toNat + blocks.toNat < 2 ^ 64 →
    Transition.Each State.step C (.start time head opts) es →
    let s := Transition.run State.step (.start time head opts) es
    ∀ returned, s.progress = .returned (.ok returned) → Promised timestamp returned s.node.time

/-- A block of somebody else while the request is about to read the head number. -/
def overtaken : List Event :=
  [reading 0, .node .trigger, .node (.serve 1000), .node .finishBlock, reading 1, reading 1,
    reading 1, .node (.serve 1000), .node .finishBlock, reading 2, reading 2, fetching 2 2 5001,
    reading 2]

theorem each_overtaken :
    Transition.Each State.step (fun s e => e.Sound s)
      (.start (.new 1000 1000) 0 (some (.timestamp (some 5000)))) overtaken := by
  simp only [overtaken, Transition.each_cons, Transition.each_nil, and_true]
  exact ⟨sound_reading rfl, trivial, trivial, trivial, sound_reading rfl, sound_reading rfl,
    sound_reading rfl, trivial, trivial, sound_reading rfl, sound_reading rfl,
    sound_fetching rfl rfl rfl, sound_reading rfl⟩

/-- A request for no blocks leaves its timestamp pending. One for more cannot go
beyond the largest timestamp, and loses its own to a block that is mined for
somebody else. -/
theorem promise_fails :
    ¬ Promises (fun _ _ => True) (fun s e => e.Alone s) ∧
    ¬ Promises (fun _ blocks => blocks ≠ 0) (fun s e => e.Alone s) ∧
    ¬ Promises (fun timestamp blocks => blocks ≠ 0 ∧ timestamp.toNat + blocks.toNat < 2 ^ 64)
      (fun s e => e.Sound s) := by
  refine ⟨fun h => ?_, fun h => ?_, fun h => ?_⟩
  · have hpromised := h (.new 1000 1000) 0 (some (.options (some 5000) (some 0))) 5000 0
      [reading 0, reading 0, reading 0] rfl trivial (by decide) ?_ [] rfl
    · exact absurd hpromised.used (by decide)
    · simp only [Transition.each_cons, Transition.each_nil, and_true]
      exact ⟨alone_reading rfl, alone_reading rfl, alone_reading rfl⟩
  · have hpromised := h (.new 1000 1000) 0 (some (.options (some (BitVec.allOnes 64)) (some 2)))
      (BitVec.allOnes 64) 2 (twoBlocksAt (BitVec.allOnes 64) (BitVec.allOnes 64)) rfl (by decide)
      (by decide) (each_twoBlocksAt (_, _) (by decide)) _ rfl
    obtain ⟨hlt, -⟩ := List.isChain_cons_cons.mp hpromised.larger
    exact absurd hlt (by decide)
  · have hpromised := h (.new 1000 1000) 0 (some (.timestamp (some 5000))) 5000 1 overtaken rfl
      (by decide) (by decide) each_overtaken _ rfl
    exact absurd (hpromised.first _ rfl) (by decide)

end Detailed

end Mining

end AnvilReth
