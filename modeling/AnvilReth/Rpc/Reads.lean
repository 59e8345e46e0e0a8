import AnvilReth.Rpc.Sections
import AnvilReth.State.Memory

/-! # Reads while requests write

A field is read under one lock, the code of an account under two: one for its
code hash and one for the bytecode behind it. Requests may write in between.
Bytecodes are never removed, so the code that is found is still the one the
account had when its hash was read.
-/

namespace AnvilReth

open Transition

variable {Bytecode : Type} [Code Bytecode] {codes : Set Bytes}

/-- A write section: the setters of a request, up to one that panics. -/
def AnvilState.writeAll (st : AnvilState Bytecode) : List Override → AnvilState Bytecode
  | [] => st
  | o :: os =>
    match o.apply st with
    | none => st
    | some st => st.writeAll os

namespace Section

/-- The setters a section calls, given what the handler remembers. -/
def setters (l : Local) : Section → List Override
  | readBalance _ | readNonce _ => []
  | addBalance a amount => [.setBalance a (Saturating.add l.current amount)]
  | setBalance a balance => [.setBalance a balance]
  | setNonce a nonce => [.setNonce a nonce]
  | setStorageAt a slot value => [.setStorageAt a slot value]
  | writeRecord a record =>
    .setBalance a record.balance :: .setNonce a (U64.max l.nonce record.nonce) ::
      .setCode a record.code ::
        record.storage.toList.map fun e => .setStorageAt a e.1 (B256.toU256 e.2)

theorem writeAll_setStorageAt (st : AnvilState Bytecode) (a : Address) (l : List (B256 × B256)) :
    st.writeAll (l.map fun e => .setStorageAt a e.1 (B256.toU256 e.2)) =
      l.foldl (fun st e => st.setStorageAt a e.1 (B256.toU256 e.2)) st := by
  induction l generalizing st with
  | nil => rfl
  | cons e l ih => exact ih _

/-- Every section of a handler is the write section of its setters. -/
theorem exec_eq_writeAll (provider : NodeProvider Bytecode) (s : Section)
    (st : AnvilState Bytecode) (l : Local) :
    (s.exec provider st l).1 = st.writeAll (s.setters l) := by
  cases s with
  | readBalance a =>
    simp only [exec]
    cases accountBalance provider st a <;> rfl
  | readNonce a =>
    simp only [exec]
    cases accountNonce provider st a <;> rfl
  | writeRecord a record =>
    simp only [exec, setters, AnvilReth.writeRecord, AnvilState.writeAll, Override.apply]
    cases ((st.setBalance a record.balance).setNonce a (U64.max l.nonce record.nonce)).setCode a
      record.code with
    | none => rfl
    | some st' => exact (writeAll_setStorageAt st' a _).symm
  | _ => rfl

end Section

section Provider

variable {p : AnvilStateProvider Bytecode}

omit [Code Bytecode] in
/-- The account read fails where the inner one does. -/
theorem AnvilStateProvider.inner_of_basicAccount {a : Address} {shown : Option Account}
    (h : p.basicAccount a = .ok shown) : ∃ inner, p.inner.basicAccount a = .ok inner := by
  unfold basicAccount at h
  cases hi : p.inner.basicAccount a with
  | ok inner => exact ⟨inner, rfl⟩
  | error err =>
    rw [hi] at h
    split at h <;> cases h

/-- The layered provider has a consistent and complete code store if both layers do. -/
theorem AnvilStateProvider.codeSound (hi : p.inner.CodeSound codes)
    (hs : p.state.CodeSound codes) (hn : NoCollision Bytecode codes) :
    p.toStateProvider.CodeSound codes where
  stored hash := by
    cases hl : p.state.bytecodeByHash hash with
    | some bytecode =>
      refine ⟨some bytecode, bytecodeByHash_of_stored hl, fun found hf => ?_⟩
      obtain rfl := Option.some.inj hf
      exact hs.stored hash bytecode hl
    | none =>
      obtain ⟨found, hf, hstored⟩ := hi.stored hash
      refine ⟨found, ?_, hstored⟩
      rw [← hf]
      simp only [toStateProvider, bytecodeByHash, hl]
  resolved address account hash ha hc he := by
    obtain ⟨inner, hinner⟩ := inner_of_basicAccount ha
    obtain ⟨shown, hp, -, -, hb⟩ := basicAccount_eq hinner
    obtain rfl := Except.ok.inj (hp.symm.trans ha)
    rw [Option.getD_some, hc] at hb
    cases ho : (p.state.overrides address).codeHash with
    | some h =>
      rw [ho] at hb
      obtain rfl := Option.some.inj hb
      obtain ⟨bytecode, hst⟩ := (hs.resolved address _ ho).resolve_left he
      exact ⟨bytecode, bytecodeByHash_of_stored hst⟩
    | none =>
      rw [ho, Option.none_or] at hb
      obtain ⟨bytecode, hfound⟩ := hi.resolves hinner hb.symm he
      obtain ⟨found, hf, -⟩ := bytecodeByHash_of_inner hi hs hn hfound
      exact ⟨found, hf⟩

/-- Bytecodes are never removed. -/
theorem AnvilState.stored_apply {st st' : AnvilState Bytecode} {o : Override}
    (h : o.apply st = some st') {hash : B256} (hb : (st.bytecodeByHash hash).isSome) :
    (st'.bytecodeByHash hash).isSome := by
  cases o with
  | setCode a code =>
    rcases setCode_cases h with ⟨-, rfl⟩ | ⟨-, bytecode, -, rfl⟩
    · exact hb
    · change ((st.storeBytecode _ bytecode).bytecodeByHash hash).isSome
      rw [bytecodeByHash_storeBytecode]
      split
      · rfl
      · exact hb
  | _ =>
    obtain rfl := Option.some.inj h
    exact hb

theorem AnvilState.stored_writeAll {st : AnvilState Bytecode} {hash : B256} (os : List Override)
    (hb : (st.bytecodeByHash hash).isSome) : ((st.writeAll os).bytecodeByHash hash).isSome := by
  induction os generalizing st with
  | nil => exact hb
  | cons o os ih =>
    simp only [writeAll]
    cases h : o.apply st with
    | none => exact hb
    | some st' => exact ih (stored_apply h hb)

variable [LawfulCode Bytecode]

theorem AnvilState.CodeSound.writeAll {st : AnvilState Bytecode} (hs : st.CodeSound codes)
    (hn : NoCollision Bytecode codes) (hnil : [] ∈ codes) {os : List Override}
    (hos : ∀ o ∈ os, o.codes ⊆ codes) : (st.writeAll os).CodeSound codes := by
  induction os generalizing st with
  | nil => exact hs
  | cons o os ih =>
    simp only [AnvilState.writeAll]
    cases h : o.apply st with
    | none => exact hs
    | some st' =>
      obtain ⟨-, hs'⟩ := overlay_apply (w := World.empty) hs hn hnil (hos o List.mem_cons_self) h
      exact ih hs' fun o ho => hos o (List.mem_cons_of_mem _ ho)

end Provider

/-- What a client reads of an account. -/
inductive Query where
  | field (f : Field)
  | code (address : Address)

abbrev Query.Value : Query → Type
  | field f => f.Value
  | code _ => Bytes

/-- The value of a field in a world. -/
def World.read (w : World) : (f : Field) → f.Value
  | .balance a => w.balance a
  | .nonce a => w.nonce a
  | .slot a k => w.storage a k

def World.answer (w : World) : (q : Query) → q.Value
  | .field f => w.read f
  | .code a => w.code a

namespace Reads

/-- How far a read is. A code read remembers the hash of its account. -/
inductive Phase where
  | idle
  | resolving (address : Address) (hash : B256)
  | answered (q : Query) (value : ProviderResult q.Value)

/-- The overrides next to the reads of any number of clients. -/
structure Node (Bytecode : Type) where
  anvilState : AnvilState Bytecode := {}
  reads : ℕ → Phase := fun _ => .idle

/-- A write section, the first lock of a read, or the second one of a code read. -/
inductive Event where
  | write (setters : List Override)
  | start (r : ℕ) (q : Query)
  | resolve (r : ℕ)

/-- The first lock of a read over the given layers. -/
def firstLock (p : StateProvider Bytecode) : Query → Phase
  | .field f => .answered (.field f) (p.read f)
  | .code a =>
    match p.basicAccount a with
    | .error e => .answered (.code a) (.error e)
    | .ok account =>
      match (account.getD default).bytecodeHash with
      | none => .answered (.code a) (.ok [])
      | some hash =>
        if hash = keccakEmpty Bytecode then .answered (.code a) (.ok []) else .resolving a hash

/-- The second lock. -/
def Phase.resolve (p : StateProvider Bytecode) : Phase → Phase
  | .resolving a hash =>
    .answered (.code a) ((p.bytecodeByHash hash).map fun found =>
      (found.map originalBytes).getD [])
  | phase => phase

variable (inner : ℕ → StateProvider Bytecode)

def Node.layered (s : Node Bytecode) (r : ℕ) : StateProvider Bytecode :=
  (AnvilStateProvider.mk s.anvilState (inner r)).toStateProvider

def Node.step (s : Node Bytecode) : Event → Node Bytecode
  | .write setters => { s with anvilState := s.anvilState.writeAll setters }
  | .start r q => { s with reads := Function.update s.reads r (firstLock (s.layered inner r) q) }
  | .resolve r =>
    { s with reads := Function.update s.reads r ((s.reads r).resolve (s.layered inner r)) }

/-- A code read with nothing between its locks is the provider's code read. -/
theorem resolve_firstLock (p : StateProvider Bytecode) (a : Address) :
    (firstLock p (.code a)).resolve p = .answered (.code a) (p.code a) := by
  cases h : p.basicAccount a with
  | error e =>
    simp only [firstLock, h, Phase.resolve, StateProvider.code]
    rfl
  | ok account =>
    rw [StateProvider.code_of_basicAccount h]
    cases hc : (account.getD default).bytecodeHash with
    | none => simp only [firstLock, h, hc, Phase.resolve, Option.elim_none]
    | some hash =>
      simp only [firstLock, h, hc, Option.elim_some]
      split <;> rfl

section Lookups

variable {p : StateProvider Bytecode} {w : World}

/-- The first lock answers with the shown world, or remembers the hash of the
code it shows. -/
theorem firstLock_cases (hw : p.Shows w) (hc : p.CodeSound codes) (q : Query) :
    firstLock p q = .answered q (.ok (w.answer q)) ∨
      ∃ a hash found, q = .code a ∧ firstLock p q = .resolving a hash ∧
        p.bytecodeByHash hash = .ok (some found) ∧ originalBytes found = w.code a := by
  cases q with
  | field f =>
    left
    cases f with
    | balance a => exact congrArg (Phase.answered (.field (.balance a))) (hw.balance a)
    | nonce a => exact congrArg (Phase.answered (.field (.nonce a))) (hw.nonce a)
    | slot a k => exact congrArg (Phase.answered (.field (.slot a k))) (hw.slot a k)
  | code a =>
    obtain ⟨account, h⟩ := StateProvider.basicAccount_of_balance (hw.balance a)
    have hcode := (StateProvider.code_of_basicAccount h).symm.trans (hw.code a)
    simp only [firstLock, h, World.answer]
    cases hb : (account.getD default).bytecodeHash with
    | none =>
      rw [hb, Option.elim_none] at hcode
      rw [← hcode]
      exact Or.inl rfl
    | some hash =>
      rw [hb, Option.elim_some] at hcode
      dsimp only
      by_cases he : hash = keccakEmpty Bytecode
      · rw [if_pos he] at hcode ⊢
        rw [← hcode]
        exact Or.inl rfl
      · obtain ⟨found, hf⟩ := hc.resolves h hb he
        rw [if_neg he, hf] at hcode
        rw [if_neg he]
        exact Or.inr ⟨a, hash, found, rfl, rfl, hf, Except.ok.inj hcode⟩

/-- Sound providers find the same code under one hash. -/
theorem originalBytes_unique {p' : StateProvider Bytecode} (hp : p.CodeSound codes)
    (hp' : p'.CodeSound codes) (hn : NoCollision Bytecode codes) {hash : B256}
    {found found' : Bytecode} (hf : p.bytecodeByHash hash = .ok (some found))
    (hf' : p'.bytecodeByHash hash = .ok (some found')) :
    originalBytes found' = originalBytes found := by
  obtain ⟨_, h, hstored⟩ := hp.stored hash
  obtain rfl := Except.ok.inj (h.symm.trans hf)
  obtain ⟨_, h', hstored'⟩ := hp'.stored hash
  obtain rfl := Except.ok.inj (h'.symm.trans hf')
  obtain ⟨hm, hk⟩ := hstored found rfl
  obtain ⟨hm', hk'⟩ := hstored' found' rfl
  exact hn hm' hm (hk'.trans hk.symm)

/-- What can be looked up can be looked up after every write. -/
theorem bytecodeByHash_writeAll {st : AnvilState Bytecode} {inner : StateProvider Bytecode}
    {hash : B256} {found : Bytecode} (os : List Override)
    (h : (AnvilStateProvider.mk st inner).bytecodeByHash hash = .ok (some found)) :
    ∃ found', (AnvilStateProvider.mk (st.writeAll os) inner).bytecodeByHash hash =
      .ok (some found') := by
  cases hl : (st.writeAll os).bytecodeByHash hash with
  | some found' => exact ⟨found', AnvilStateProvider.bytecodeByHash_of_stored hl⟩
  | none =>
    cases hst : st.bytecodeByHash hash with
    | some _ =>
      have hsome := AnvilState.stored_writeAll os (Option.isSome_iff_exists.mpr ⟨_, hst⟩)
      rw [hl] at hsome
      cases hsome
    | none =>
      simp only [AnvilStateProvider.bytecodeByHash, hst] at h
      exact ⟨found, by simp only [AnvilStateProvider.bytecodeByHash, hl, h]⟩

end Lookups

/-- The events that begin a read of a client. -/
def Event.Starts (r : ℕ) (e : Event) : Prop := ∃ q, e = .start r q

/-- The setters of a write section bring in codes of the set. -/
def Event.Brings (codes : Set Bytes) : Event → Prop
  | .write setters => ∀ o ∈ setters, o.codes ⊆ codes
  | _ => True

variable {inner : ℕ → StateProvider Bytecode} {w : ℕ → World} {s : Node Bytecode}

variable (inner w s) in
/-- What a read has is what its account held when the read last began. -/
def Phase.Current (es : List Event) (r : ℕ) : Phase → Prop
  | .idle => True
  | .resolving a hash => ∃ pre found, Since (Event.Starts r) pre (.start r (.code a)) es ∧
    ((run (Node.step inner) s es).layered inner r).bytecodeByHash hash = .ok (some found) ∧
      originalBytes found = ((run (Node.step inner) s pre).anvilState.overlay (w r)).code a
  | .answered q value => ∃ pre, Since (Event.Starts r) pre (.start r q) es ∧
    value = .ok (((run (Node.step inner) s pre).anvilState.overlay (w r)).answer q)

/-- An event that begins no read of the client and keeps what it can look up. -/
theorem Phase.Current.concat {es : List Event} {e : Event} {r : ℕ} {phase : Phase}
    (h : phase.Current inner w s es r) (he : ¬ e.Starts r)
    (hkeep : ∀ hash found,
      ((run (Node.step inner) s es).layered inner r).bytecodeByHash hash = .ok (some found) →
        ∃ found', ((run (Node.step inner) s (es ++ [e])).layered inner r).bytecodeByHash hash =
          .ok (some found') ∧ originalBytes found' = originalBytes found) :
    phase.Current inner w s (es ++ [e]) r := by
  cases phase with
  | idle => trivial
  | resolving a hash =>
    obtain ⟨pre, found, hsince, hfound, hbytes⟩ := h
    obtain ⟨found', hfound', heq⟩ := hkeep hash found hfound
    exact ⟨pre, found', hsince.concat he, hfound', heq.trans hbytes⟩
  | answered q value =>
    obtain ⟨pre, hsince, hvalue⟩ := h
    exact ⟨pre, hsince.concat he, hvalue⟩

variable [LawfulCode Bytecode] (hn : NoCollision Bytecode codes) (hnil : [] ∈ codes)
  (hw : ∀ r, (inner r).Shows (w r)) (hc : ∀ r, (inner r).CodeSound codes)

include hn hc in
omit [LawfulCode Bytecode] in
theorem layered_codeSound {t : Node Bytecode} (ht : t.anvilState.CodeSound codes) (r : ℕ) :
    (t.layered inner r).CodeSound codes :=
  AnvilStateProvider.codeSound (p := AnvilStateProvider.mk t.anvilState (inner r)) (hc r) ht hn

/-- The store is sound, and every read has something current. -/
structure Sound (codes : Set Bytes) (inner : ℕ → StateProvider Bytecode) (w : ℕ → World)
    (s : Node Bytecode) (es : List Event) (t : Node Bytecode) : Prop where
  anvilState : t.anvilState.CodeSound codes
  reads : ∀ r, (t.reads r).Current inner w s es r

variable {es : List Event} {r : ℕ}

include hn hw hc in
omit [LawfulCode Bytecode] in
/-- A read begins with what is current, or with the hash of it. -/
theorem current_start (h : Sound codes inner w s es (run (Node.step inner) s es)) (q : Query) :
    (firstLock ((run (Node.step inner) s es).layered inner r) q).Current inner w s
      (es ++ [.start r q]) r := by
  set t := run (Node.step inner) s es with ht
  have hrun : run (Node.step inner) s (es ++ [.start r q]) = Node.step inner t (.start r q) :=
    run_append [_]
  have hshows : (t.layered inner r).Shows (t.anvilState.overlay (w r)) :=
    AnvilStateProvider.shows_overlay (p := AnvilStateProvider.mk t.anvilState (inner r))
      (hw r) (hc r) h.anvilState hn
  have hsound : (t.layered inner r).CodeSound codes := layered_codeSound hn hc h.anvilState r
  rcases firstLock_cases hshows hsound q with hans | ⟨a, hash, found, rfl, hres, hf, hbytes⟩
  · rw [hans]
    exact ⟨es, since_concat, by rw [← ht]⟩
  · rw [hres]
    refine ⟨es, found, since_concat, ?_, by rw [← ht, hbytes]⟩
    rw [hrun]
    exact hf

omit [LawfulCode Bytecode] in
theorem current_resolve {phase : Phase} (h : phase.Current inner w s es r) (r' : ℕ) :
    (phase.resolve ((run (Node.step inner) s es).layered inner r)).Current inner w s
      (es ++ [.resolve r']) r := by
  have hnot : ¬ (Event.resolve r').Starts r := fun ⟨q, hq⟩ => nomatch hq
  cases phase with
  | idle => trivial
  | resolving a hash =>
    obtain ⟨pre, found, hsince, hfound, hbytes⟩ := h
    refine ⟨pre, hsince.concat hnot, ?_⟩
    rw [hfound]
    exact congrArg Except.ok hbytes
  | answered q value =>
    obtain ⟨pre, hsince, hvalue⟩ := h
    exact ⟨pre, hsince.concat hnot, hvalue⟩

include hn hnil hw hc in
theorem sound_step {e : Event}
    (h : Sound codes inner w s es (run (Node.step inner) s es)) (he : e.Brings codes) :
    Sound codes inner w s (es ++ [e]) (Node.step inner (run (Node.step inner) s es) e) := by
  have hrun : run (Node.step inner) s (es ++ [e]) =
      Node.step inner (run (Node.step inner) s es) e := run_append [e]
  cases e with
  | write setters =>
    have hsound := h.anvilState.writeAll hn hnil he
    refine ⟨hsound, fun r => (h.reads r).concat (fun ⟨q, hq⟩ => nomatch hq) ?_⟩
    intro hash found hfound
    rw [hrun]
    obtain ⟨found', hfound'⟩ := bytecodeByHash_writeAll setters hfound
    refine ⟨found', hfound', ?_⟩
    exact originalBytes_unique (layered_codeSound hn hc h.anvilState r)
      (AnvilStateProvider.codeSound (hc r) hsound hn) hn hfound hfound'
  | start r q =>
    refine ⟨h.anvilState, fun r' => ?_⟩
    simp only [Node.step, Function.update_apply]
    split
    · rename_i hr
      rw [hr]
      exact current_start hn hw hc h q
    · rename_i hr
      refine (h.reads r').concat (fun ⟨q', hq⟩ => hr ?_) fun hash found hfound => ?_
      · cases hq
        rfl
      · rw [hrun]
        exact ⟨found, hfound, rfl⟩
  | resolve r =>
    refine ⟨h.anvilState, fun r' => ?_⟩
    simp only [Node.step, Function.update_apply]
    split
    · rename_i hr
      rw [hr]
      exact current_resolve (h.reads r) r
    · refine (h.reads r').concat (fun ⟨q, hq⟩ => nomatch hq) fun hash found hfound => ?_
      rw [hrun]
      exact ⟨found, hfound, rfl⟩

include hn hnil hw hc in
/-- Whatever is written between the locks of a read, its answer is the value at
the moment it began. -/
theorem answer_current (hs : s.anvilState.CodeSound codes) (hidle : ∀ r, s.reads r = .idle)
    (hes : ∀ e ∈ es, e.Brings codes) {q : Query} {value : ProviderResult q.Value}
    (h : (run (Node.step inner) s es).reads r = .answered q value) :
    ∃ pre, Since (Event.Starts r) pre (.start r q) es ∧
      value = .ok (((run (Node.step inner) s pre).anvilState.overlay (w r)).answer q) := by
  have hinit : Sound codes inner w s [] s := ⟨hs, fun r => by rw [hidle r]; trivial⟩
  have hsound : Sound codes inner w s es (run (Node.step inner) s es) :=
    run_history hinit (fun es e h he => sound_step hn hnil hw hc h he) hes
  have hread := hsound.reads r
  rw [h] at hread
  exact hread

open RawBytecode in
/-- The code is replaced, and its account changed, between the two locks. -/
theorem answer_current_replaced :
    let node := (NodeProvider.ofDump RawBytecode oneContract 0).toStateProvider
    let es : List Event := [.write [.setCode 2 [0x00]], .start 0 (.code 1),
      .write [.setBalance 1 5, .setNonce 1 4, .setCode 1 [0x00]], .resolve 0, .start 1 (.code 1)]
    ∃ pre, Since (Event.Starts 0) pre (.start 0 (.code 1)) es ∧
      (.ok [0xfe] : ProviderResult Bytes) =
        .ok (((run (Node.step fun _ => node) {} pre).anvilState.overlay oneContract.world).answer
          (.code 1)) := by
  intro node es
  obtain ⟨hw, hc, -⟩ := oneContract_node
  have hes : ∀ e ∈ es, e.Brings knownCodes := by
    simp [es, Event.Brings, Override.codes, knownCodes]
  exact answer_current noCollision_knownCodes nil_mem_knownCodes (fun _ => hw) (fun _ => hc)
    (AnvilState.codeSound_empty _) (fun _ => rfl) hes rfl

end Reads

end AnvilReth
