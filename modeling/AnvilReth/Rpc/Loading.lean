import AnvilReth.Rpc.Load
import AnvilReth.State.Format
import AnvilReth.State.Memory
import AnvilReth.Transition.Runs

/-! # Loads in turns

A load takes the accounts of a dump in turn. It reads the nonce of the base
account, then the overridden one, and writes the record under one lock. Blocks,
overrides and other loads come between these steps, so a load is no step of its
own, but a chain of account loads with the nonces of earlier moments.
-/

namespace AnvilReth

open Transition

variable {Bytecode : Type} [Code Bytecode]

namespace Loading

abbrev Entry := Address × SerializableAccountRecord

/-- The head a node is at: what its provider answers, and the nonces there. -/
structure Head (Bytecode : Type) where
  provider : NodeProvider Bytecode
  nonces : Address → U64
  answers : ∀ {a account}, provider.basicAccount a = .ok account →
    (account.getD default).nonce = nonces a

/-- How far a load is: before it reads the base nonce or the overridden one of an
account, or before it writes the record. -/
inductive Phase where
  | idle
  | base (e : Entry) (rest : List Entry)
  | overridden (baseNonce : U64) (e : Entry) (rest : List Entry)
  | write (current : U64) (e : Entry) (rest : List Entry)
  | ended (outcome : Outcome Bool)

/-- The loop at the accounts that are left. -/
def Phase.turn : List Entry → Phase
  | [] => .ended (.returned (.ok true))
  | e :: rest => .base e rest

/-- The head and the overrides next to any number of loads. -/
structure Node (Bytecode : Type) where
  head : Head Bytecode
  anvilState : AnvilState Bytecode := {}
  loads : ℕ → Phase := fun _ => .idle

/-- A mined block, an override, the decoding of a buffer, or a step of a load. -/
inductive Event (Bytecode : Type) where
  | mine (head : Head Bytecode)
  | override (o : Override)
  | start (r : ℕ) (buf : Bytes)
  | step (r : ℕ)

section Model

def Phase.decoded (f : DumpFormat) (buf : Bytes) : Phase :=
  match SerializableState.decode f buf with
  | .error e => .ended (.returned (.error (invalidParams ("failed to decode state dump: " ++ e))))
  | .ok state => .turn state.accounts.toList

/-- The next step of a load, and the overrides after it. -/
def Phase.next (provider : NodeProvider Bytecode) (st : AnvilState Bytecode) :
    Phase → Phase × AnvilState Bytecode
  | .base e rest =>
    match mapProviderError "failed to read account: " (provider.basicAccount e.1) with
    | .error err => (.ended (.returned (.error err)), st)
    | .ok account => (.overridden (account.getD default).nonce e rest, st)
  | .overridden baseNonce e rest =>
    (.write (((st.account e.1).bind AccountOverride.nonce).getD baseNonce) e rest, st)
  | .write current e rest =>
    match writeRecord st e.1 (U64.max current e.2.nonce) e.2 with
    | (st, false) => (.ended .panicked, st)
    | (st, true) => (.turn rest, st)
  | phase => (phase, st)

def Node.step (f : DumpFormat) (s : Node Bytecode) : Event Bytecode → Node Bytecode
  | .mine head => { s with head }
  | .override o => { s with anvilState := (o.apply s.anvilState).getD s.anvilState }
  | .start r buf =>
    match s.loads r with
    | .idle => { s with loads := Function.update s.loads r (.decoded f buf) }
    | _ => s
  | .step r =>
    let (phase, anvilState) := (s.loads r).next s.head.provider s.anvilState
    { s with anvilState, loads := Function.update s.loads r phase }

/-- The nonce that the node shows. -/
def Node.nonce (s : Node Bytecode) (a : Address) : U64 :=
  (s.anvilState.overrides a).nonce.getD (s.head.nonces a)

end Model

section Alone

/-- A step of a load on its own. -/
def alone (provider : NodeProvider Bytecode) (s : Phase × AnvilState Bytecode) :
    Phase × AnvilState Bytecode := s.1.next provider s.2

/-- The loop that nothing interrupts is the loop of the handler. -/
theorem exists_alone_turn (provider : NodeProvider Bytecode) (l : List Entry)
    (st : AnvilState Bytecode) :
    ∃ n, (alone provider)^[n] (.turn l, st) =
      (.ended (loadAccounts provider l st).1, (loadAccounts provider l st).2) := by
  induction l generalizing st with
  | nil => exact ⟨0, rfl⟩
  | cons e rest ih =>
    obtain ⟨a, record⟩ := e
    rw [loadAccounts, accountNonce]
    cases hread : mapProviderError "failed to read account: " (provider.basicAccount a) with
    | error err =>
      refine ⟨1, ?_⟩
      simp only [Function.iterate_one, alone, Phase.turn, Phase.next, hread]
      rfl
    | ok account =>
      cases hwrite : writeRecord st a (U64.max (((st.account a).bind AccountOverride.nonce).getD
          (account.getD default).nonce) record.nonce) record with
      | mk st' written =>
        have hturn : (alone provider)^[3] (.turn ((a, record) :: rest), st) =
            (if written then .turn rest else .ended .panicked, st') := by
          simp only [Function.iterate_succ, Function.iterate_zero, Function.comp_apply, id_eq,
            alone, Phase.turn, Phase.next, hread, hwrite]
          cases written <;> rfl
        cases written with
        | false =>
          refine ⟨3, ?_⟩
          simp only [hturn, hwrite, bind, Except.bind, pure, Except.pure]
          rfl
        | true =>
          obtain ⟨n, hn⟩ := ih st'
          refine ⟨n + 3, ?_⟩
          simp only [Function.iterate_add_apply, hturn, hwrite, bind, Except.bind, pure,
            Except.pure]
          exact hn

/-- Nothing of a node but its head and the overrides takes part in the steps of a load. -/
theorem run_replicate (f : DumpFormat) (s : Node Bytecode) (r n : ℕ) :
    run (Node.step f) s (List.replicate n (.step r)) =
      let after := (alone s.head.provider)^[n] (s.loads r, s.anvilState)
      { s with anvilState := after.2, loads := Function.update s.loads r after.1 } := by
  induction n generalizing s with
  | zero => simp only [List.replicate_zero, run_nil, Function.iterate_zero, id_eq,
      Function.update_eq_self]
  | succ n ih =>
    rw [List.replicate_succ, run_cons, ih]
    simp only [Node.step, Function.iterate_succ_apply, Function.update_self,
      Function.update_idem]
    rfl

/-- A load that nothing interrupts is the handler. -/
theorem exists_run_alone (f : DumpFormat) (s : Node Bytecode) {r : ℕ} (buf : Bytes)
    (hidle : s.loads r = .idle) :
    ∃ n, run (Node.step f) s (.start r buf :: List.replicate n (.step r)) =
      let after := loadState f s.head.provider s.anvilState buf
      { s with anvilState := after.2, loads := Function.update s.loads r (.ended after.1) } := by
  have halone : ∃ n, (alone s.head.provider)^[n] (.decoded f buf, s.anvilState) =
      (.ended (loadState f s.head.provider s.anvilState buf).1,
        (loadState f s.head.provider s.anvilState buf).2) := by
    unfold Phase.decoded loadState
    cases SerializableState.decode f buf with
    | error e => exact ⟨0, rfl⟩
    | ok state => exact exists_alone_turn s.head.provider state.accounts.toList s.anvilState
  obtain ⟨n, hn⟩ := halone
  refine ⟨n, ?_⟩
  rw [run_cons, run_replicate]
  simp only [Node.step, hidle, Function.update_self, Function.update_idem, hn]

end Alone

/-- The load of one account. At the end of the history `read` it showed the nonce
that the load has read, and at the end of `write` its record is written. -/
structure Turn (Bytecode : Type) where
  entry : Entry
  current : U64
  read : List (Event Bytecode)
  write : List (Event Bytecode)

/-- The nonce that is written. -/
def Turn.nonce (u : Turn Bytecode) : U64 := U64.max u.current u.entry.2.nonce

section History

variable (f : DumpFormat) (s : Node Bytecode) (es : List (Event Bytecode)) (r : ℕ)

/-- The turn lies within the history. -/
structure Turn.Placed (u : Turn Bytecode) : Prop where
  read : u.read <+: u.write
  write : u.write ++ [.step r] <+: es
  current : (run (Node.step f) s u.read).nonce u.entry.1 = u.current
  written : (run (Node.step f) s (u.write ++ [.step r])).anvilState =
    (writeRecord (run (Node.step f) s u.write).anvilState u.entry.1 u.nonce u.entry.2).1

/-- The turns of a load so far, one after the other, and the accounts that are left. -/
structure InTurns (accounts : List Entry) (turns : List (Turn Bytecode)) (rest : List Entry) :
    Prop where
  split : accounts = turns.map Turn.entry ++ rest
  placed : ∀ u ∈ turns, u.Placed f s es r
  inOrder : turns.Pairwise fun u v => u.write ++ [.step r] <+: v.read

/-- All codes were accepted so far. -/
structure Loaded (accounts : List Entry) (turns : List (Turn Bytecode)) (rest : List Entry) : Prop
    extends InTurns f s es r accounts turns rest where
  accepted : ∀ u ∈ turns, Accepted Bytecode u.entry.2.code

/-- How a load ends: after all accounts, at a base account that cannot be read, or
at a code that is refused, in the middle of a turn. -/
def Ends (accounts : List Entry) (turns : List (Turn Bytecode)) (rest : List Entry) :
    Outcome Bool → Prop
  | .returned (.ok loaded) => loaded = true ∧ rest = [] ∧ Loaded f s es r accounts turns rest
  | .returned (.error err) => ∃ e ∈ rest.head?, ∃ pre why, pre <+: es ∧
      Loaded f s pre r accounts turns rest ∧
      (run (Node.step f) s pre).head.provider.basicAccount e.1 = .error why ∧
      err = internalError ("failed to read account: " ++ why)
  | .panicked => InTurns f s es r accounts turns rest ∧ ∃ before u, turns = before ++ [u] ∧
      (∀ v ∈ before, Accepted Bytecode v.entry.2.code) ∧ ¬ Accepted Bytecode u.entry.2.code

/-- What the phase of a load says of its history. -/
def Phase.Follows (accounts : List Entry) : Phase → Prop
  | .idle => False
  | .base e rest => ∃ turns, Loaded f s es r accounts turns (e :: rest)
  | .overridden baseNonce e rest => ∃ turns pre, Loaded f s pre r accounts turns (e :: rest) ∧
      pre <+: es ∧ (run (Node.step f) s pre).head.nonces e.1 = baseNonce
  | .write current e rest => ∃ turns pre read, Loaded f s pre r accounts turns (e :: rest) ∧
      pre <+: read ∧ read <+: es ∧ (run (Node.step f) s read).nonce e.1 = current
  | .ended outcome => ∃ turns rest, Ends f s es r accounts turns rest outcome

end History

variable {f : DumpFormat} {s : Node Bytecode} {es es' : List (Event Bytecode)} {r : ℕ}
  {accounts rest : List Entry} {turns : List (Turn Bytecode)} {e : Event Bytecode}

section Later

theorem Turn.Placed.later {u : Turn Bytecode} (h : u.Placed f s es r) (hp : es <+: es') :
    u.Placed f s es' r :=
  { h with write := h.write.trans hp }

theorem InTurns.later (h : InTurns f s es r accounts turns rest) (hp : es <+: es') :
    InTurns f s es' r accounts turns rest :=
  { h with placed := fun u hu => (h.placed u hu).later hp }

theorem Loaded.later (h : Loaded f s es r accounts turns rest) (hp : es <+: es') :
    Loaded f s es' r accounts turns rest :=
  { h with toInTurns := h.toInTurns.later hp }

theorem Ends.later {outcome : Outcome Bool} (h : Ends f s es r accounts turns rest outcome)
    (hp : es <+: es') : Ends f s es' r accounts turns rest outcome := by
  match outcome, h with
  | .returned (.ok _), ⟨hloaded, hrest, h⟩ => exact ⟨hloaded, hrest, h.later hp⟩
  | .returned (.error _), ⟨e, he, pre, why, hpre, h⟩ => exact ⟨e, he, pre, why, hpre.trans hp, h⟩
  | .panicked, ⟨h, hrefused⟩ => exact ⟨h.later hp, hrefused⟩

theorem Phase.Follows.later {phase : Phase} (h : phase.Follows f s es r accounts)
    (hp : es <+: es') : phase.Follows f s es' r accounts := by
  match phase, h with
  | .base _ _, ⟨turns, h⟩ => exact ⟨turns, h.later hp⟩
  | .overridden _ _ _, ⟨turns, pre, h, hpre, hn⟩ => exact ⟨turns, pre, h, hpre.trans hp, hn⟩
  | .write _ _ _, ⟨turns, pre, read, h, hpre, hread, hn⟩ =>
    exact ⟨turns, pre, read, h, hpre, hread.trans hp, hn⟩
  | .ended _, ⟨turns, rest, h⟩ => exact ⟨turns, rest, h.later hp⟩

end Later

section Nonces

/-- A record is written with its nonce, which is that of its account alone. -/
theorem nonce_writeRecord (st : AnvilState Bytecode) (a b : Address) (nonce : U64)
    (record : SerializableAccountRecord) :
    ((writeRecord st a nonce record).1.overrides b).nonce =
      if b = a then some nonce else (st.overrides b).nonce := by
  by_cases hc : Accepted Bytecode record.code
  · rw [writeRecord_of_accepted _ _ _ _ hc]
    change ((((st.storeCode record.code).modifyEntry a _).overrides b)).nonce = _
    rw [AnvilState.overrides_modifyEntry, Function.update_apply]
    split <;> rfl
  · rw [writeRecord_of_not_accepted _ _ _ _ hc]
    simp only [AnvilState.setBalance, AnvilState.setNonce, AnvilState.modifyEntry_modifyEntry,
      AnvilState.overrides_modifyEntry, Function.update_apply]
    split <;> rfl

theorem nonce_next {provider : NodeProvider Bytecode} {st : AnvilState Bytecode} {phase : Phase}
    {a : Address} (h : (st.overrides a).nonce.isSome) :
    (((phase.next provider st).2).overrides a).nonce.isSome := by
  cases phase with
  | base e rest =>
    simp only [Phase.next]
    split <;> exact h
  | write current e rest =>
    have hn := nonce_writeRecord st e.1 a (U64.max current e.2.nonce) e.2
    simp only [Phase.next]
    split <;> rename_i st' hw <;> rw [hw] at hn <;> rw [hn] <;> split <;> trivial
  | _ => exact h

/-- An overridden nonce stays overridden. -/
theorem nonce_step {a : Address} (h : (s.anvilState.overrides a).nonce.isSome) :
    (((s.step f e).anvilState).overrides a).nonce.isSome := by
  cases e with
  | mine head => exact h
  | override o =>
    simp only [Node.step]
    cases hst : o.apply s.anvilState with
    | none => exact h
    | some st' =>
      have hn := AnvilState.overridden_apply hst (.nonce a)
      have hsome : (st'.overridden (.nonce a)).isSome := by
        rw [hn, Option.isSome_or]
        exact Bool.or_eq_true_iff.mpr (Or.inr h)
      exact hsome
  | start r buf =>
    simp only [Node.step]
    split <;> exact h
  | step r => exact nonce_next h

theorem nonce_run {a : Address} (h : (s.anvilState.overrides a).nonce.isSome) :
    ((run (Node.step f) s es).anvilState.overrides a).nonce.isSome :=
  (always_of_step (P := fun s : Node Bytecode => (s.anvilState.overrides a).nonce.isSome) h
    fun _ _ h => nonce_step h).last

end Nonces

section Steps

variable {x : Entry}

/-- The next account is reached after a turn whose code was accepted. -/
theorem Loaded.follows_turn (h : Loaded f s es r accounts turns rest) :
    (Phase.turn rest).Follows f s es r accounts := by
  cases rest with
  | nil => exact ⟨turns, [], rfl, rfl, h⟩
  | cons x rest => exact ⟨turns, h⟩

/-- The record of an account is written after those of the turns before it. -/
theorem Loaded.inTurns_concat {pre read : List (Event Bytecode)} {current : U64}
    (h : Loaded f s pre r accounts turns (x :: rest)) (hpre : pre <+: read) (hread : read <+: es)
    (hcurrent : (run (Node.step f) s read).nonce x.1 = current)
    (hphase : (run (Node.step f) s es).loads r = .write current x rest) :
    InTurns f s (es ++ [.step r]) r accounts (turns ++ [⟨x, current, read, es⟩]) rest where
  split := by
    rw [h.split, List.map_append, List.append_assoc]
    rfl
  placed u hu := by
    rcases List.mem_append.mp hu with hu | hu
    · exact (h.placed u hu).later ((hpre.trans hread).trans (List.prefix_append es _))
    · obtain rfl := List.mem_singleton.mp hu
      refine ⟨hread, List.prefix_rfl, hcurrent, ?_⟩
      simp only [run_append, run_cons, run_nil, Node.step, hphase, Phase.next, Turn.nonce]
      split <;> rename_i hw <;> rw [hw]
  inOrder := by
    refine List.pairwise_append.mpr ⟨h.inOrder, List.pairwise_singleton _ _, fun u hu v hv => ?_⟩
    obtain rfl := List.mem_singleton.mp hv
    exact (h.placed u hu).write.trans hpre

/-- The nonce that a load goes on with was shown when it read the base account or
is shown as it reads the overridden one: overrides are not taken back. -/
theorem nonce_read {pre : List (Event Bytecode)} {a : Address} {baseNonce : U64}
    (hpre : pre <+: es) (hbase : (run (Node.step f) s pre).head.nonces a = baseNonce) :
    ∃ read, pre <+: read ∧ read <+: es ∧ (run (Node.step f) s read).nonce a =
      (((run (Node.step f) s es).anvilState.account a).bind AccountOverride.nonce).getD
        baseNonce := by
  rw [AnvilState.account_bind_nonce]
  cases hn : ((run (Node.step f) s es).anvilState.overrides a).nonce with
  | some nonce =>
    refine ⟨es, hpre, List.prefix_rfl, ?_⟩
    rw [Node.nonce, hn]
    rfl
  | none =>
    obtain ⟨later, rfl⟩ := hpre
    refine ⟨pre, List.prefix_rfl, List.prefix_append pre later, ?_⟩
    have hnone : ((run (Node.step f) s pre).anvilState.overrides a).nonce = none := by
      rw [← Option.not_isSome_iff_eq_none]
      intro hsome
      have hstays : ((run (Node.step f) (run (Node.step f) s pre) later).anvilState.overrides
          a).nonce.isSome := nonce_run hsome
      rw [← run_append, hn] at hstays
      cases hstays
    rw [Node.nonce, hnone, hbase, Option.getD_none]

/-- Each step of a load keeps what its phase says of the history. -/
theorem Phase.Follows.next (h : ((run (Node.step f) s es).loads r).Follows f s es r accounts) :
    ((run (Node.step f) s (es ++ [.step r])).loads r).Follows f s (es ++ [.step r]) r accounts := by
  have hstep : (run (Node.step f) s (es ++ [.step r])).loads r =
      (((run (Node.step f) s es).loads r).next (run (Node.step f) s es).head.provider
        (run (Node.step f) s es).anvilState).1 := by
    simp only [run_append, run_cons, run_nil, Node.step, Function.update_self]
  rw [hstep]
  have hlater : es <+: es ++ [.step r] := List.prefix_append es _
  cases hphase : (run (Node.step f) s es).loads r with
  | idle =>
    rw [hphase] at h
    exact h
  | base x rest =>
    rw [hphase] at h
    obtain ⟨turns, hloaded⟩ := h
    simp only [Phase.next]
    cases hread : (run (Node.step f) s es).head.provider.basicAccount x.1 with
    | error why => exact ⟨turns, x :: rest, x, rfl, es, why, hlater, hloaded, hread, rfl⟩
    | ok account =>
      exact ⟨turns, es, hloaded, hlater, ((run (Node.step f) s es).head.answers hread).symm⟩
  | overridden baseNonce x rest =>
    rw [hphase] at h
    obtain ⟨turns, pre, hloaded, hpre, hbase⟩ := h
    obtain ⟨read, hpread, hread, hnonce⟩ := nonce_read hpre hbase
    exact ⟨turns, pre, read, hloaded, hpread, hread.trans hlater, hnonce⟩
  | write current x rest =>
    rw [hphase] at h
    obtain ⟨turns, pre, read, hloaded, hpre, hread, hcurrent⟩ := h
    have hturns := hloaded.inTurns_concat hpre hread hcurrent hphase
    simp only [Phase.next]
    by_cases hc : Accepted Bytecode x.2.code
    · rw [writeRecord_of_accepted _ _ _ _ hc]
      refine Loaded.follows_turn ⟨hturns, fun u hu => ?_⟩
      rcases List.mem_append.mp hu with hu | hu
      · exact hloaded.accepted u hu
      · obtain rfl := List.mem_singleton.mp hu
        exact hc
    · rw [writeRecord_of_not_accepted _ _ _ _ hc]
      exact ⟨_, rest, hturns, turns, _, rfl, hloaded.accepted, hc⟩
  | ended outcome =>
    rw [hphase] at h
    exact h.later hlater

theorem Phase.Follows.step (h : ((run (Node.step f) s es).loads r).Follows f s es r accounts)
    (e : Event Bytecode) :
    ((run (Node.step f) s (es ++ [e])).loads r).Follows f s (es ++ [e]) r accounts := by
  have hlater := h.later (List.prefix_append es [e])
  cases e with
  | mine head | override o =>
    rw [run_append]
    exact hlater
  | start r' buf =>
    have hsame : (run (Node.step f) s (es ++ [.start r' buf])).loads r =
        (run (Node.step f) s es).loads r := by
      simp only [run_append, run_cons, run_nil, Node.step]
      split
      · rename_i hidle
        refine Function.update_of_ne ?_ _ _
        rintro rfl
        rw [hidle] at h
        exact h
      · rfl
    rwa [hsame]
  | step r' =>
    by_cases hr : r' = r
    · rw [hr]
      exact h.next
    · have hsame : (run (Node.step f) s (es ++ [.step r'])).loads r =
          (run (Node.step f) s es).loads r := by
        simp only [run_append, run_cons, run_nil, Node.step, Function.update_of_ne (Ne.symm hr)]
      rwa [hsame]

end Steps

section Turns

variable {u : Turn Bytecode} {state : SerializableState} {buf : Bytes} {outcome : Outcome Bool}

/-- After its turn an account shows the nonce that was written. -/
theorem Turn.Placed.nonce_written (h : u.Placed f s es r) :
    (run (Node.step f) s (u.write ++ [.step r])).nonce u.entry.1 = u.nonce := by
  rw [Node.nonce, h.written, nonce_writeRecord, if_pos rfl, Option.getD_some]

/-- A turn lowers a nonce only if it has risen since the load read it. -/
theorem Turn.Placed.lowers_only_risen (h : u.Placed f s es r)
    (hlower : (run (Node.step f) s (u.write ++ [.step r])).nonce u.entry.1 <
      (run (Node.step f) s u.write).nonce u.entry.1) :
    (run (Node.step f) s u.read).nonce u.entry.1 <
      (run (Node.step f) s u.write).nonce u.entry.1 := by
  have hle : u.current ≤ u.nonce := by
    rw [Turn.nonce, U64.max]
    split
    · assumption
    · exact BitVec.le_refl _
  rw [h.nonce_written] at hlower
  rw [h.current]
  bv_omega

/-- A load that other loads, overrides and blocks interrupt has written the accounts
of its dump one after the other, each with a nonce it showed in its turn, unless the
dumped one is larger: all of them if it returned true, else those before the base
account that could not be read, or up to the code that was refused. -/
theorem load_placed (hidle : s.loads r = .idle)
    (hdecode : SerializableState.decode f buf = .ok state)
    (hended : (run (Node.step f) s (.start r buf :: es)).loads r = .ended outcome) :
    let s := s.step f (.start r buf)
    ∃ turns rest, InTurns f s es r state.accounts.toList turns rest ∧
      Ends f s es r state.accounts.toList turns rest outcome ∧
      ∀ u ∈ turns, (run (Node.step f) s (u.write ++ [.step r])).nonce u.entry.1 = u.nonce ∧
        ((run (Node.step f) s (u.write ++ [.step r])).nonce u.entry.1 <
            (run (Node.step f) s u.write).nonce u.entry.1 →
          (run (Node.step f) s u.read).nonce u.entry.1 <
            (run (Node.step f) s u.write).nonce u.entry.1) := by
  intro s'
  have hstart : s'.loads r = .turn state.accounts.toList := by
    simp only [s', Node.step, hidle, Function.update_self, Phase.decoded, hdecode]
  have hinit : (s'.loads r).Follows f s' [] r state.accounts.toList := by
    have hnone : Loaded f s' [] r state.accounts.toList [] state.accounts.toList :=
      ⟨⟨rfl, by simp, List.Pairwise.nil⟩, by simp⟩
    rw [hstart]
    exact hnone.follows_turn
  have hfollows : ((run (Node.step f) s' es).loads r).Follows f s' es r state.accounts.toList :=
    run_history (I := fun es (t : Node Bytecode) =>
      (t.loads r).Follows f s' es r state.accounts.toList) (D := fun _ => True) hinit
      (fun es e h _ => by
        have hstep := h.step e
        rwa [run_append] at hstep) fun _ _ => trivial
  rw [run_cons] at hended
  rw [hended] at hfollows
  obtain ⟨turns, rest, hends⟩ := hfollows
  have hturns : InTurns f s' es r state.accounts.toList turns rest := by
    match outcome, hends with
    | .returned (.ok _), ⟨_, _, h⟩ => exact h.toInTurns
    | .returned (.error _), ⟨_, _, pre, _, hpre, h, _⟩ => exact h.toInTurns.later hpre
    | .panicked, ⟨h, _⟩ => exact h
  exact ⟨turns, rest, hturns, hends, fun u hu =>
    ⟨(hturns.placed u hu).nonce_written, (hturns.placed u hu).lowers_only_risen⟩⟩

end Turns

section Overtaken

open Std

/-- The head over the given accounts. -/
def headOf (accounts : List DumpedAccount) : Head RawBytecode where
  provider := NodeProvider.ofDump RawBytecode { accounts } 0
  nonces := baseNonce (NodeProvider.ofDump RawBytecode { accounts } 0)
  answers h := by rw [baseNonce, h]

def oneRecord : SerializableState where
  accounts := (∅ : ExtTreeMap Address SerializableAccountRecord).insert 1
    { nonce := 2, balance := 3, code := [0xfe] }

def oneAccount : DumpedAccount where
  address := 1
  nonce := 7
  balance := 0
  code := none
  storage := ∅

/-- A block raises the nonce between the reads of a load, which then lowers it. -/
def overtaken : List (Event RawBytecode) :=
  [.step 0, .mine (headOf [oneAccount]), .step 0, .step 0]

theorem load_placed_overtaken :
    let s : Node RawBytecode := { head := headOf [] }
    ∃ f buf turns rest, InTurns f (s.step f (.start 0 buf)) overtaken 0
        oneRecord.accounts.toList turns rest ∧
      (run (Node.step f) s (.start 0 buf :: overtaken)).nonce 1 = 2 := by
  intro s
  set f := DumpFormat.forDocument (SerializableState.encode (.forDocument .null) oneRecord)
  obtain ⟨buf, hbuf⟩ : ∃ buf, oneRecord.encodeGzipped f = .ok buf := ⟨_, rfl⟩
  have hnull : oneRecord.NullFree := ⟨nofun, nofun⟩
  have hdecode : SerializableState.decode f buf = .ok oneRecord :=
    SerializableState.decode_of_encodeGzipped (DumpFormat.forDocument_lawful _) hnull
      (DumpFormat.forDocument_inverts _) hbuf
  have hstart : s.step f (.start 0 buf) =
      { s with loads := Function.update s.loads 0 (.turn oneRecord.accounts.toList) } := by
    simp only [Node.step, s, Phase.decoded, hdecode]
  have hended : (run (Node.step f) s (.start 0 buf :: overtaken)).loads 0 =
      .ended (.returned (.ok true)) := by
    rw [run_cons, hstart]
    rfl
  obtain ⟨turns, rest, hturns, -⟩ := load_placed rfl hdecode hended
  refine ⟨f, buf, turns, rest, hturns, ?_⟩
  rw [run_cons, hstart]
  rfl

end Overtaken

end Loading

end AnvilReth
