import AnvilReth.Rpc.Reads
import AnvilReth.State.Format

/-! # Dumps while the chain moves on

A dump collects the base state, asks for the head's number and then merges the
overrides, each at a moment of its own. Blocks and requests that come between
leave it with a mixture: the overrides of one moment over the base of an earlier
one, under the number of a head in between.
-/

namespace AnvilReth

open Transition

variable {Bytecode : Type} [Code Bytecode]

/-- The head a node is at: what its provider answers, and what it stands for. -/
structure Base (Bytecode : Type) where
  provider : NodeProvider Bytecode
  world : World
  number : U64
  /-- A dump lists the accounts of the head. -/
  lists : ∀ dump, provider.dumpStateCollect = .ok dump → dump.Lists world
  best : ∀ n, provider.bestBlockNumber = .ok n → n = number

/-- The worlds agree wherever the overrides do not hide them. -/
structure AnvilState.Hides (st : AnvilState Bytecode) (w w' : World) : Prop where
  balance : ∀ a, (st.overrides a).balance = none → w.balance a = w'.balance a
  nonce : ∀ a, (st.overrides a).nonce = none → w.nonce a = w'.nonce a
  code : ∀ a, (st.overrides a).codeHash = none → w.code a = w'.code a
  storage : ∀ a k, (st.overrides a).storage[k]? = none → w.storage a k = w'.storage a k

theorem getD_eq_getD_iff {α : Type} {o : Option α} {x y : α} :
    o.getD x = o.getD y ↔ (o = none → x = y) := by
  cases o <;> simp

theorem AnvilState.overlay_eq_iff {st : AnvilState Bytecode} {w w' : World} :
    st.overlay w = st.overlay w' ↔ st.Hides w w' := by
  constructor
  · intro h
    constructor
    · exact fun a => getD_eq_getD_iff.mp (congrFun (congrArg World.balance h) a)
    · exact fun a => getD_eq_getD_iff.mp (congrFun (congrArg World.nonce h) a)
    · intro a ha
      have hc := congrFun (congrArg World.code h) a
      exact getD_eq_getD_iff.mp hc (by rw [ha]; rfl)
    · exact fun a k => getD_eq_getD_iff.mp (congrFun (congrFun (congrArg World.storage h) a) k)
  · intro h
    ext1
    · exact funext fun a => getD_eq_getD_iff.mpr (h.balance a)
    · exact funext fun a => getD_eq_getD_iff.mpr (h.nonce a)
    · refine funext fun a => getD_eq_getD_iff.mpr fun ha => h.code a ?_
      exact Option.map_eq_none_iff.mp ha
    · exact funext fun a => funext fun k => getD_eq_getD_iff.mpr (h.storage a k)

namespace Snapshot

/-- How far a dump request is. -/
inductive Phase where
  | idle
  | collected (dump : DumpedState)
  | numbered (state : SerializableState)
  | answered (reply : RpcResult Bytes)

/-- The head and the overrides next to any number of dump requests. -/
structure Node (Bytecode : Type) where
  base : Base Bytecode
  anvilState : AnvilState Bytecode := {}
  dumps : ℕ → Phase := fun _ => .idle

/-- A mined block, a write section, or a step of a dump request: it reads the
base state, then the number of the head, and then the overrides. -/
inductive Event (Bytecode : Type) where
  | mine (base : Base Bytecode)
  | write (setters : List Override)
  | start (r : ℕ) (preserveHistoricalStates : Option Bool)
  | number (r : ℕ)
  | merge (r : ℕ)

def collect (base : Base Bytecode) (preserveHistoricalStates : Option Bool) : Phase :=
  if preserveHistoricalStates.getD false then
    .answered (.error (invalidParams "preserving historical states is not supported yet"))
  else
    match mapProviderError "failed to dump state: " base.provider.dumpStateCollect with
    | .error e => .answered (.error e)
    | .ok dump => .collected dump

def numberOf (base : Base Bytecode) (dump : DumpedState) : Phase :=
  match bestBlockNumber base.provider with
  | .error e => .answered (.error e)
  | .ok number => .numbered (.fromDump dump (some number))

variable (f : DumpFormat)

def mergeWith (st : AnvilState Bytecode) (state : SerializableState) : RpcResult Bytes :=
  match (state.mergeAnvilState st).encodeGzipped f with
  | .ok buf => .ok buf
  | .error e => .error (internalError ("failed to encode state dump: " ++ e))

def Node.setDump (s : Node Bytecode) (r : ℕ) (phase : Phase) : Node Bytecode :=
  { s with dumps := Function.update s.dumps r phase }

def Node.step (s : Node Bytecode) : Event Bytecode → Option (Node Bytecode)
  | .mine base => some { s with base }
  | .write setters => some { s with anvilState := s.anvilState.writeAll setters }
  | .start r preserve =>
    match s.dumps r with
    | .idle => some (s.setDump r (collect s.base preserve))
    | _ => none
  | .number r =>
    match s.dumps r with
    | .collected dump => some (s.setDump r (numberOf s.base dump))
    | _ => none
  | .merge r =>
    match s.dumps r with
    | .numbered state => some (s.setDump r (.answered (mergeWith f s.anvilState state)))
    | _ => none

/-- The rest of a request that nothing interrupts. -/
def Phase.finish (base : Base Bytecode) (st : AnvilState Bytecode) : Phase → Phase
  | .collected dump =>
    match numberOf base dump with
    | .numbered state => .answered (mergeWith f st state)
    | phase => phase
  | .numbered state => .answered (mergeWith f st state)
  | phase => phase

/-- A request that nothing interrupts is the handler. -/
theorem finish_collect (base : Base Bytecode) (st : AnvilState Bytecode)
    (preserve : Option Bool) :
    (collect base preserve).finish f base st =
      .answered (dumpState f base.provider st preserve) := by
  unfold collect dumpState
  split
  · rfl
  · unfold collectState
    cases mapProviderError "failed to dump state: " base.provider.dumpStateCollect with
    | error e => rfl
    | ok dump =>
      simp only [Phase.finish, numberOf]
      cases bestBlockNumber base.provider with
      | error e => rfl
      | ok number =>
        refine congrArg Phase.answered ?_
        change mergeWith f st _ = (match SerializableState.encodeGzipped f _ with
          | .ok buf => _
          | .error e => _)
        unfold mergeWith
        cases ((SerializableState.fromDump dump (some number)).mergeAnvilState
          st).encodeGzipped f <;> rfl

/-- The step of the client's request an event is. -/
def Event.stage (r : ℕ) : Event Bytecode → ℕ
  | start r' _ => if r' = r then 1 else 4
  | number r' => if r' = r then 2 else 4
  | merge r' => if r' = r then 3 else 4
  | _ => 4

section History

variable (s : Node Bytecode) (es : List (Event Bytecode)) (r : ℕ)

/-- The base state was collected at the head of then. -/
def Collected (dump : DumpedState) : Prop :=
  ∃ pre preserve t, Stage (Event.stage r) 1 pre (.start r preserve) es ∧
    path (Node.step f) s pre = some t ∧ t.base.provider.dumpStateCollect = .ok dump

/-- It got the number of the head after that. -/
def Numbered (state : SerializableState) : Prop :=
  ∃ pre dump t, Stage (Event.stage r) 2 pre (.number r) es ∧ Collected f s pre r dump ∧
    path (Node.step f) s pre = some t ∧ state = .fromDump dump (some t.base.number)

/-- It got the overrides after that. -/
def Merged (buf : Bytes) : Prop :=
  ∃ pre state t, Stage (Event.stage r) 3 pre (.merge r) es ∧ Numbered f s pre r state ∧
    path (Node.step f) s pre = some t ∧
    (state.mergeAnvilState t.anvilState).encodeGzipped f = .ok buf

def Phase.Follows : Phase → Prop
  | .collected dump => Collected f s es r dump
  | .numbered state => Numbered f s es r state
  | .answered (.ok buf) => Merged f s es r buf
  | _ => True

end History

variable {f} {s t u : Node Bytecode} {es : List (Event Bytecode)} {e : Event Bytecode} {r : ℕ}

/-- What is no step of a request leaves it where it is. -/
theorem Phase.Follows.concat {phase : Phase} (h : phase.Follows f s es r) (he : 3 < e.stage r) :
    phase.Follows f s (es ++ [e]) r := by
  match phase, h with
  | .idle, _ => trivial
  | .collected dump, ⟨pre, preserve, t, hstage, h⟩ =>
    exact ⟨pre, preserve, t, hstage.concat (by omega), h⟩
  | .numbered state, ⟨pre, dump, t, hstage, h⟩ =>
    exact ⟨pre, dump, t, hstage.concat (by omega), h⟩
  | .answered (.ok buf), ⟨pre, state, t, hstage, h⟩ =>
    exact ⟨pre, state, t, hstage.concat he, h⟩
  | .answered (.error _), _ => trivial

theorem follows_collect (hp : path (Node.step f) s es = some t) (preserve : Option Bool) :
    (collect t.base preserve).Follows f s (es ++ [.start r preserve]) r := by
  unfold collect
  split
  · trivial
  · cases hd : t.base.provider.dumpStateCollect with
    | error e => trivial
    | ok dump => exact ⟨es, preserve, t, since_concat, hp, hd⟩

theorem follows_number {dump : DumpedState} (hp : path (Node.step f) s es = some t)
    (h : Collected f s es r dump) :
    (numberOf t.base dump).Follows f s (es ++ [.number r]) r := by
  unfold numberOf bestBlockNumber
  cases hn : t.base.provider.bestBlockNumber with
  | error e => trivial
  | ok number =>
    rw [t.base.best number hn]
    exact ⟨es, dump, t, since_concat, h, hp, rfl⟩

theorem follows_merge {state : SerializableState} (hp : path (Node.step f) s es = some t)
    (h : Numbered f s es r state) :
    (Phase.answered (mergeWith f t.anvilState state)).Follows f s (es ++ [.merge r]) r := by
  unfold mergeWith
  cases hbuf : (state.mergeAnvilState t.anvilState).encodeGzipped f with
  | error e => trivial
  | ok buf => exact ⟨es, state, t, since_concat, h, hp, hbuf⟩

/-- A step of one request leaves the others where they are. -/
theorem follows_setDump {r' : ℕ} {phase : Phase} (h : ∀ r, (t.dumps r).Follows f s es r)
    (he : ∀ r, r ≠ r' → 3 < e.stage r) (hself : phase.Follows f s (es ++ [e]) r') (r : ℕ) :
    ((t.setDump r' phase).dumps r).Follows f s (es ++ [e]) r := by
  simp only [Node.setDump, Function.update_apply]
  split
  · rename_i hr
    rw [hr]
    exact hself
  · rename_i hr
    exact (h r).concat (he r hr)

theorem follows_step (hp : path (Node.step f) s es = some t)
    (h : ∀ r, (t.dumps r).Follows f s es r) (he : t.step f e = some u) (r : ℕ) :
    (u.dumps r).Follows f s (es ++ [e]) r := by
  cases e with
  | mine base =>
    cases he
    exact (h r).concat (by simp [Event.stage])
  | write setters =>
    cases he
    exact (h r).concat (by simp [Event.stage])
  | start r' preserve =>
    simp only [Node.step] at he
    split at he <;> cases he
    exact follows_setDump h (fun r hr => by simp [Event.stage, Ne.symm hr])
      (follows_collect hp preserve) r
  | number r' =>
    simp only [Node.step] at he
    split at he <;> cases he
    rename_i dump hd
    have hcollected := h r'
    rw [hd] at hcollected
    exact follows_setDump h (fun r hr => by simp [Event.stage, Ne.symm hr])
      (follows_number hp hcollected) r
  | merge r' =>
    simp only [Node.step] at he
    split at he <;> cases he
    rename_i state hd
    have hnumbered := h r'
    rw [hd] at hnumbered
    exact follows_setDump h (fun r hr => by simp [Event.stage, Ne.symm hr])
      (follows_merge hp hnumbered) r

/-- The world the node shows. -/
def Node.world (s : Node Bytecode) : World := s.anvilState.overlay s.base.world

/-- The moments of a request: the histories before its steps and the nodes they find. -/
structure Moments (Bytecode : Type) where
  preserve : Option Bool
  collected : List (Event Bytecode)
  numbered : List (Event Bytecode)
  merged : List (Event Bytecode)
  collecting : Node Bytecode
  numbering : Node Bytecode
  merging : Node Bytecode

/-- The steps follow one another in a run, with no other step of the request. -/
structure Moments.Within (f : DumpFormat) (s : Node Bytecode) (es : List (Event Bytecode)) (r : ℕ)
    (m : Moments Bytecode) : Prop where
  collect : Stage (Event.stage r) 1 m.collected (.start r m.preserve) m.numbered
  number : Stage (Event.stage r) 2 m.numbered (.number r) m.merged
  merge : Stage (Event.stage r) 3 m.merged (.merge r) es
  collecting : path (Node.step f) s m.collected = some m.collecting
  numbering : path (Node.step f) s m.numbered = some m.numbering
  merging : path (Node.step f) s m.merged = some m.merging

/-- A dump has its base accounts, its number and its overrides each from a
moment of the request, in this order. It is the world of the last moment exactly
if the blocks since the first changed nothing that the overrides do not hide. -/
theorem dump_placed (hidle : ∀ r, s.dumps r = .idle) (hp : path (Node.step f) s es = some t)
    {buf : Bytes} (hbuf : t.dumps r = .answered (.ok buf)) :
    ∃ (m : Moments Bytecode) (state : SerializableState),
      m.Within f s es r ∧ state.encodeGzipped f = .ok buf ∧
      state.bestBlockNumber = some m.numbering.base.number ∧
      state.world = m.merging.anvilState.overlay m.collecting.base.world ∧
      (state.world = m.merging.world ↔
        m.merging.anvilState.Hides m.collecting.base.world m.merging.base.world) := by
  have hinit : ∀ r, (s.dumps r).Follows f s [] r := by
    intro r
    rw [hidle r]
    trivial
  have hfollows := path_history (I := fun es (t : Node Bytecode) =>
    ∀ r, (t.dumps r).Follows f s es r) hinit (fun es t e u hp h he => follows_step hp h he) hp r
  rw [hbuf] at hfollows
  obtain ⟨merged, _, c, hmerge, hnumbered, hc, henc⟩ := hfollows
  obtain ⟨numbered, dump, b, hnumber, hcollected, hb, rfl⟩ := hnumbered
  obtain ⟨collected, preserve, a, hstart, ha, hdump⟩ := hcollected
  have hworld : ((SerializableState.fromDump dump (some b.base.number)).mergeAnvilState
      c.anvilState).world = c.anvilState.overlay a.base.world := by
    rw [SerializableState.mergeAnvilState_world,
      SerializableState.fromDump_world (a.base.lists dump hdump)]
  refine ⟨⟨preserve, collected, numbered, merged, a, b, c⟩, _,
    ⟨hstart, hnumber, hmerge, ha, hb, hc⟩, henc, rfl, hworld, ?_⟩
  rw [hworld]
  exact AnvilState.overlay_eq_iff

section Mixture

open RawBytecode

/-- The head with the one contract, as a block of the given number. -/
def contractBase (number : U64) : Base RawBytecode where
  provider := NodeProvider.ofDump RawBytecode oneContract number
  world := oneContract.world
  number
  lists dump h := by
    obtain rfl := Except.ok.inj h
    exact oneContract_node.2.2
  best n h := (Except.ok.inj h).symm

/-- The head of an empty chain. -/
def emptyBase : Base RawBytecode where
  provider := NodeProvider.ofDump RawBytecode { accounts := [] } 0
  world := World.empty
  number := 0
  lists dump h := by
    obtain rfl := Except.ok.inj h
    exact ⟨List.nodup_nil, fun d hd => absurd hd List.not_mem_nil, fun a _ => ⟨rfl, rfl, rfl,
      fun _ => rfl⟩⟩
  best n h := (Except.ok.inj h).symm

/-- Blocks and a request come between the steps of a dump request. -/
def mixture : List (Event RawBytecode) :=
  [.start 0 none, .mine (contractBase 1), .number 0, .write [.setBalance 1 20],
    .mine (contractBase 2), .merge 0]

theorem dump_placed_mixture :
    ∃ (m : Moments RawBytecode) (state : SerializableState),
      m.Within (.forDocument .null) { base := emptyBase } mixture 0 ∧
      state.bestBlockNumber = some m.numbering.base.number ∧
      state.world = m.merging.anvilState.overlay m.collecting.base.world := by
  obtain ⟨t, ht⟩ : ∃ t, path (Node.step (.forDocument .null)) { base := emptyBase } mixture =
      some t := ⟨_, rfl⟩
  obtain ⟨buf, hbuf⟩ : ∃ buf, t.dumps 0 = .answered (.ok buf) := by
    cases ht
    exact ⟨_, rfl⟩
  obtain ⟨m, state, hm, -, hnumber, hworld, -⟩ := dump_placed (fun _ => rfl) ht hbuf
  exact ⟨m, state, hm, hnumber, hworld⟩

end Mixture

end Snapshot

end AnvilReth
