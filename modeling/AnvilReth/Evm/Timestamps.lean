import AnvilReth.Evm.Production
import AnvilReth.Time.Attempts

/-! # Timestamps of the blocks built

A timestamp is taken when an attempt begins and counts as the last one from then
on, whether the attempt ends in a block or not. So the blocks' timestamps rise,
unless a request sets the time or asks for the last timestamp over again.
-/

namespace AnvilReth

/-- A pending exact timestamp is ahead of the last one. -/
def TimeManager.Ahead (m : TimeManager) : Prop :=
  ∀ t, m.nextExactTimestamp = some t → m.lastTimestamp < t

/-- Requests keep it ahead, but for those that set the time and one that asks
for the last timestamp. -/
theorem TimeManager.Ahead.handle {m : TimeManager} (h : m.Ahead) {r : TimeRequest} (now : U64)
    (hb : r.baseline = none) (hr : r ≠ .setNextBlockTimestamp m.lastTimestamp) :
    (r.handle m now).Ahead := by
  cases r with
  | setTime timestamp => cases hb
  | increaseTime seconds =>
    simp only [TimeRequest.handle, anvilIncreaseTime]
    split
    · exact h
    · exact h
  | setNextBlockTimestamp seconds =>
    simp only [TimeRequest.handle, anvilSetNextBlockTimestamp, setNextBlockTimestamp]
    split
    · rename_i heq
      split at heq <;> cases heq
      rename_i hle
      intro t ht
      obtain rfl := Option.some.inj ht
      refine BitVec.lt_of_le_ne (BitVec.not_lt.mp hle) fun hlast => hr ?_
      rw [hlast]
    · rename_i heq
      split at heq <;> cases heq
      exact h
  | _ => exact h

/-- The next timestamp is then above the last one, as long as there is one. -/
theorem TimeManager.Ahead.lt_next {m : TimeManager} (h : m.Ahead) {now : U64}
    (hmax : (m.nextTimestamp now).1 ≠ BitVec.allOnes 64) :
    m.lastTimestamp < (m.nextTimestamp now).1 := by
  rcases lastTimestamp_lt_next hmax with hlt | ⟨-, hexact⟩
  · exact hlt
  · exact absurd (h _ hexact) (BitVec.lt_irrefl _)

namespace Production

open Transition

variable {Header Rest Error : Type}

/-- The attributes of the attempt that is going on. -/
def Miner.attributes : Miner Rest → Option (PayloadAttributes Rest)
  | idle => none
  | stamped attributes | proposed attributes | limited attributes _ | priced attributes _ =>
    some attributes

/-- The timestamps along the chain, newest first. -/
def Node.timestamps (startTimestamp : U64) (s : Node Header Rest) : List U64 :=
  s.built.map (fun env => env.rest.timestamp) ++ [startTimestamp]

/-- No request sets the time or asks for the last timestamp. -/
def Ascends (s : Node Header Rest) (e : Event Header Rest) : Prop :=
  ∀ now request, e = .time now request →
    request.baseline = none ∧ request ≠ .setNextBlockTimestamp s.time.lastTimestamp

/-- The last timestamp is none below those of the chain, and that of the attempt
is above them. -/
structure Rising (startTimestamp : U64) (s : Node Header Rest) : Prop where
  ahead : s.time.Ahead
  env : ∀ attributes env,
    s.miner = .limited attributes env ∨ s.miner = .priced attributes env →
      env.rest.timestamp = attributes.timestamp
  attempt : ∀ attributes, s.miner.attributes = some attributes →
    attributes.timestamp ≤ s.time.lastTimestamp ∧
      (attributes.timestamp ≠ BitVec.allOnes 64 →
        ∀ t ∈ s.timestamps startTimestamp, t < attributes.timestamp)
  last : ∀ t ∈ s.timestamps startTimestamp, t ≤ s.time.lastTimestamp
  chain : (s.timestamps startTimestamp).Pairwise fun later earlier =>
    later ≠ BitVec.allOnes 64 → earlier < later

variable {inner : InnerEvm Header (PayloadAttributes Rest) BlockEnv Error}
variable {s t : Node Header Rest} {e : Event Header Rest} {startTimestamp : U64}

/-- Time and chain stay, and the attempt keeps its timestamp. -/
theorem Rising.of_attempt (h : Rising startTimestamp s) (htime : t.time = s.time)
    (hbuilt : t.built = s.built)
    (hattempt : ∀ attributes, t.miner.attributes = some attributes →
      ∃ before, s.miner.attributes = some before ∧ attributes.timestamp = before.timestamp)
    (henv : ∀ attributes env,
      t.miner = .limited attributes env ∨ t.miner = .priced attributes env →
        env.rest.timestamp = attributes.timestamp) :
    Rising startTimestamp t := by
  have hts : t.timestamps startTimestamp = s.timestamps startTimestamp := by
    rw [Node.timestamps, hbuilt]
    rfl
  refine ⟨?_, henv, ?_, ?_, ?_⟩
  · rw [htime]
    exact h.ahead
  · intro attributes hm
    obtain ⟨before, hbefore, heq⟩ := hattempt attributes hm
    rw [heq, htime, hts]
    exact h.attempt before hbefore
  · rw [htime, hts]
    exact h.last
  · rw [hts]
    exact h.chain

/-- A request may move the clock, but not the last timestamp. -/
theorem Rising.time (h : Rising startTimestamp s) {now : U64} {request : TimeRequest}
    (hb : request.baseline = none)
    (hr : request ≠ .setNextBlockTimestamp s.time.lastTimestamp) :
    Rising startTimestamp { s with time := request.handle s.time now } := by
  have hlast : (request.handle s.time now).lastTimestamp = s.time.lastTimestamp := by
    rw [Timeline.lastTimestamp_handle, hb]
    rfl
  refine ⟨h.ahead.handle now hb hr, h.env, ?_, ?_, h.chain⟩
  · rw [hlast]
    exact h.attempt
  · rw [hlast]
    exact h.last

/-- An attempt begins above the last timestamp, which it then is. -/
theorem Rising.stamp (h : Rising startTimestamp s) (now : U64) (given : PayloadAttributes Rest) :
    Rising startTimestamp
      { s with
        time := (s.time.nextTimestamp now).2
        miner := .stamped (given.stamp (s.time.nextTimestamp now).1) } := by
  refine ⟨?_, ?_, ?_, ?_, h.chain⟩
  · intro _ hexact
    cases hexact
  · rintro attributes env (hm | hm) <;> cases hm
  · intro attributes hm
    cases hm
    refine ⟨BitVec.le_refl _, fun hmax t ht => ?_⟩
    have hle := BitVec.le_def.mp (h.last t ht)
    exact BitVec.lt_def.mpr (lt_of_le_of_lt hle (BitVec.lt_def.mp (h.ahead.lt_next hmax)))
  · exact fun t ht => BitVec.le_trans (h.last t ht) TimeManager.lastTimestamp_le_next

/-- The block of an attempt has the attempt's timestamp, above the chain. -/
theorem Rising.mine (h : Rising startTimestamp s) {attributes : PayloadAttributes Rest}
    {env : EvmEnv BlockEnv} (hm : s.miner = .priced attributes env) (head : Header) :
    Rising startTimestamp
      ({ s with head, miner := .idle, built := env :: s.built } : Node Header Rest) := by
  obtain ⟨hle, habove⟩ := h.attempt attributes (by rw [hm]; rfl)
  have henv := h.env attributes env (Or.inr hm)
  refine ⟨h.ahead, ?_, ?_, ?_, ?_⟩
  · rintro attributes' env' (hm' | hm') <;> cases hm'
  · intro attributes' hm'
    cases hm'
  · intro t ht
    rcases List.mem_cons.mp ht with ht | ht
    · rw [ht]
      exact BitVec.le_trans (BitVec.le_of_eq henv) hle
    · exact h.last t ht
  · refine List.pairwise_cons.mpr ⟨fun t ht hmax => ?_, h.chain⟩
    dsimp only at hmax ⊢
    rw [henv] at hmax ⊢
    exact habove hmax t ht

theorem Miner.attributes_of_proposal {miner : Miner Rest} {attributes : PayloadAttributes Rest}
    (h : miner.proposal = some attributes) : miner.attributes = some attributes := by
  cases miner <;> cases h <;> rfl

theorem rising_step (hinner : Respects inner) (h : Rising startTimestamp s) (hc : Ascends s e)
    (he : s.step inner e = some t) : Rising startTimestamp t := by
  cases e with
  | time now request =>
    cases he
    obtain ⟨hb, hr⟩ := hc now request rfl
    exact h.time hb hr
  | stamp now given =>
    simp only [Node.step] at he
    split at he <;> cases he
    exact h.stamp now given
  | recipient =>
    simp only [Node.step] at he
    split at he <;> cases he
    rename_i stamped hm
    refine h.of_attempt rfl rfl ?_ ?_
    · rintro attributes ⟨⟩
      exact ⟨stamped, by rw [hm]; rfl, by rw [PayloadAttributes.withCoinbase_eq]⟩
    · rintro attributes env (hm' | hm') <;> cases hm'
  | limit gasLimit =>
    obtain ⟨attributes, hm, rfl⟩ := Option.map_eq_some_iff.mp he
    split
    · refine h.of_attempt rfl rfl ?_ ?_
      · rintro _ ⟨⟩
        exact ⟨attributes, Miner.attributes_of_proposal hm, rfl⟩
      · rintro _ _ (hm' | hm') <;> cases hm'
    · rename_i env henv
      refine h.of_attempt rfl rfl ?_ ?_
      · rintro _ ⟨⟩
        exact ⟨attributes, Miner.attributes_of_proposal hm, rfl⟩
      · rintro _ _ (hm' | hm') <;> cases hm'
        rw [BlockEnvOverrides.apply_eq] at henv
        exact congrArg BlockEnv.timestamp (hinner _ _ _ henv)
  | price =>
    simp only [Node.step] at he
    split at he <;> cases he
    rename_i attributes env hm
    refine h.of_attempt rfl rfl ?_ ?_
    · rintro _ ⟨⟩
      exact ⟨attributes, by rw [hm]; rfl, rfl⟩
    · rintro _ _ (hm' | hm') <;> cases hm'
      exact h.env attributes env (Or.inl hm)
  | mine head =>
    simp only [Node.step] at he
    split at he <;> cases he
    rename_i attributes env hm
    exact h.mine hm head
  | fail =>
    simp only [Node.step] at he
    split at he <;> cases he
    refine h.of_attempt rfl rfl ?_ ?_
    · rintro _ ⟨⟩
    · rintro _ _ (hm' | hm') <;> cases hm'
  | _ =>
    cases he
    exact h.of_attempt rfl rfl (fun attributes hm => ⟨attributes, hm, rfl⟩) h.env

theorem rising_init (now : U64) (head : Header) :
    Rising startTimestamp (Node.init now startTimestamp head : Node Header Rest) := by
  refine ⟨?_, ?_, ?_, ?_, List.pairwise_singleton _ _⟩
  · intro _ hexact
    cases hexact
  · rintro attributes env (hm | hm) <;> cases hm
  · intro attributes hm
    cases hm
  · intro t ht
    obtain rfl := List.mem_singleton.mp ht
    exact BitVec.le_refl _

/-- In a run in which no request sets the time or asks for the last timestamp,
the blocks' timestamps rise from that of the first head on, whichever attempts
fail and whatever comes between their stages. -/
theorem timestamps_rise (hinner : Respects inner) {es : List (Event Header Rest)}
    {now : U64} {head : Header}
    (hp : path (Node.step inner) (.init now startTimestamp head) es = some t)
    (hc : ∀ pre e s, pre ++ [e] <+: es →
      path (Node.step inner) (.init now startTimestamp head) pre = some s → Ascends s e)
    (hmax : BitVec.allOnes 64 ∉ t.timestamps startTimestamp) :
    (t.timestamps startTimestamp).Pairwise (· > ·) := by
  have hrising : Rising startTimestamp t := by
    refine path_history (I := fun es (t : Node Header Rest) =>
      (∀ pre e s, pre ++ [e] <+: es →
        path (Node.step inner) (.init now startTimestamp head) pre = some s → Ascends s e) →
      Rising startTimestamp t) (fun _ => rising_init now head) ?_ hp hc
    intro es r e t hr ih he hc
    refine rising_step hinner (ih fun pre d s hpre => hc pre d s ?_) ?_ he
    · exact hpre.trans (List.prefix_append es [e])
    · exact hc es e r List.prefix_rfl hr
  refine hrising.chain.imp_of_mem ?_
  intro later earlier hlater _ h
  exact h fun heq => hmax (heq ▸ hlater)

/-- An attempt fails and leaves a jump in time to the next one, which is behind
the second block. -/
def failing : List (Event Unit Unit) :=
  [.stamp 1000 ⟨0, 0, ()⟩, .recipient, .fail, .time 1000 (.increaseTime 5), .stamp 1000 ⟨0, 0, ()⟩,
    .recipient, .limit 30000000, .price, .mine (), .stamp 900 ⟨0, 0, ()⟩, .recipient,
    .limit 30000000, .price, .mine ()]

theorem timestamps_rise_failing :
    ∃ t, path (Node.step constantEnv) (.init 1000 1000 ()) failing = some t ∧
      t.timestamps 1000 = [1006, 1005, 1000] ∧ (t.timestamps 1000).Pairwise (· > ·) := by
  have hinner : Respects constantEnv := by
    rintro parent attributes env h
    cases h
    rfl
  have hc : ∀ e ∈ failing, ∀ s : Node Unit Unit, Ascends s e := by
    intro e he s now request hrequest
    subst hrequest
    simp only [failing, List.mem_cons, Event.time.injEq, reduceCtorEq, false_or, or_false,
      List.not_mem_nil] at he
    obtain ⟨-, rfl⟩ := he
    exact ⟨rfl, fun h => by cases h⟩
  obtain ⟨t, ht, hts⟩ : ∃ t, path (Node.step constantEnv) (.init 1000 1000 ()) failing = some t ∧
      t.timestamps 1000 = [1006, 1005, 1000] := ⟨_, rfl, rfl⟩
  refine ⟨t, ht, hts, timestamps_rise hinner ht (fun pre e s hpre _ => hc e ?_ s) ?_⟩
  · exact hpre.subset (List.mem_append_right _ (List.mem_singleton_self e))
  · rw [hts]
    decide

end Production

end AnvilReth
