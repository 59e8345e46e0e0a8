import AnvilReth.Mining.Leftover

/-! # Blocks at an interval

A request that runs alone gets its blocks at its interval, one after the other,
and the interval and the offset of the node are in the end what they were.
-/

namespace AnvilReth

namespace Mining

/-- A request for blocks at an interval, and the node it meets. -/
structure Plan where
  time : TimeManager
  head : U64
  r : ℕ
  blocks : U256
  interval : U256
  exact : time.nextExactTimestamp = none
  some_blocks : 1 ≤ blocks.toNat
  apart : 1 ≤ interval.toNat
  fits : time.lastTimestamp.toNat + blocks.toNat * interval.toNat < 2 ^ 64
  reaches : head.toNat + blocks.toNat < 2 ^ 64

namespace Plan

variable (p : Plan)

theorem interval_fits : p.interval.toNat < 2 ^ 64 := by
  have h := p.fits
  have hle : p.interval.toNat ≤ p.blocks.toNat * p.interval.toNat :=
    Nat.le_mul_of_pos_left _ p.some_blocks
  omega

/-- The interval as it is set. -/
def set : U64 := p.interval.setWidth 64

theorem toNat_set : p.set.toNat = p.interval.toNat := by
  rw [set, BitVec.toNat_setWidth, Nat.mod_eq_of_lt p.interval_fits]

/-- The timestamp of the block of a number. -/
def stamp (k : ℕ) : ℕ := p.time.lastTimestamp.toNat + k * p.interval.toNat

theorem stamp_lt {k : ℕ} (h : k ≤ p.blocks.toNat) : p.stamp k < 2 ^ 64 := by
  have hk : k * p.interval.toNat ≤ p.blocks.toNat * p.interval.toNat :=
    Nat.mul_le_mul_right _ h
  have hfits := p.fits
  rw [stamp]
  omega

/-- What the request remembers at each of its steps. -/
def Remembers (q : Request) : Prop :=
  match q.phase with
  | .idle => q.start = none
  | .readInterval interval =>
    q.timed ∧ q.blocks.toNat = p.blocks.toNat ∧ q.start = none ∧ interval = p.interval
  | .setInterval interval =>
    q.timed ∧ q.blocks.toNat = p.blocks.toNat ∧ q.start = none ∧ interval = p.interval ∧
      q.previousInterval = p.time.interval
  | .readHead =>
    q.timed ∧ q.blocks.toNat = p.blocks.toNat ∧ q.start = none ∧
      q.previousInterval = p.time.interval
  | .trigger _ | .poll _ =>
    q.timed ∧ q.blocks.toNat = p.blocks.toNat ∧ q.start = some p.head ∧
      q.previousInterval = p.time.interval
  | .restore _ => q.blocks.toNat = p.blocks.toNat ∧ q.previousInterval = p.time.interval
  | .returned _ => q.blocks.toNat = p.blocks.toNat
  | .panicked => False

/-- The interval of the node at each step of the request. -/
def intervalAt : Phase → Option U64
  | .readHead | .trigger _ | .poll _ | .restore _ => some p.set
  | _ => p.time.interval

end Plan

/-- The triggers the miner has come to. -/
def Node.taken (s : Node) : ℕ := s.finished + s.building.toList.length

/-- The blocks so far are the request's, and at the interval. -/
structure Stamped (p : Plan) (s : Node) : Prop where
  last : s.time.lastTimestamp.toNat = p.stamp s.taken
  building : ∀ block, s.building = some block →
    block.1 = some p.r ∧ block.2.toNat = p.stamp s.taken
  mined : s.mined.reverse.map (fun block => (block.1, block.2.toNat)) =
    (List.range s.finished).map fun k => (some p.r, p.stamp (k + 1))

structure Spaced (p : Plan) (s : Node) : Prop where
  queued : Queued 0 p.r s
  remembers : p.Remembers (s.requests p.r)
  interval : s.time.interval = p.intervalAt (s.requests p.r).phase
  exact : s.time.nextExactTimestamp = none
  offset : s.time.offset = p.time.offset
  head : s.head.toNat = p.head.toNat + s.finished
  /-- A request that is done has waited for all its blocks. -/
  done : (s.requests p.r).phase = .restore (.ok ()) ∨ (s.requests p.r).phase = .returned (.ok ()) →
    s.finished = p.blocks.toNat
  /-- Only after a failed request may blocks come at other intervals. -/
  stamped : (∀ error, (s.requests p.r).phase ≠ .returned (.error error)) → Stamped p s

namespace Spaced

variable {p : Plan} {s : Node}

theorem start (p : Plan) : Spaced p (.start p.time p.head 0) where
  queued := Queued.start _ _ _ _
  remembers := rfl
  interval := rfl
  exact := p.exact
  offset := rfl
  head := rfl
  done := by rintro (h | h) <;> cases h
  stamped _ := by
    refine ⟨?_, fun _ => nofun, rfl⟩
    change _ = _ + 0 * _
    rw [Nat.zero_mul]
    rfl

/-- All triggers are the request's. -/
theorem unserved (h : Spaced p s) :
    s.unserved = List.replicate ((s.requests p.r).issued - s.finished) (some p.r) := by
  rw [h.queued.unserved, List.replicate_zero, List.nil_append, List.drop_replicate]

theorem taken_le (h : Spaced p s) : s.taken + s.triggers.length = (s.requests p.r).issued := by
  have hserved := h.queued.served_add
  rw [Node.taken]
  omega

/-- A request issues at most as many triggers as it has blocks. -/
theorem issued_le (h : Spaced p s) : (s.requests p.r).issued ≤ p.blocks.toNat := by
  have hr := h.remembers
  have hle : (s.requests p.r).issued ≤ (s.requests p.r).blocks.toNat := Request.issued_le
  unfold Plan.Remembers at hr
  split at hr
  · rw [Request.issued_of_none hr]
    exact Nat.zero_le _
  · exact hr.2.1 ▸ hle
  · exact hr.2.1 ▸ hle
  · exact hr.2.1 ▸ hle
  · exact hr.2.1 ▸ hle
  · exact hr.2.1 ▸ hle
  · exact hr.1 ▸ hle
  · exact hr ▸ hle
  · exact hr.elim

/-- While the miner serves a request that has not failed, its interval is set. -/
theorem interval_of_serving (h : Spaced p s) (hissued : 0 < (s.requests p.r).issued)
    (hfinished : s.finished < p.blocks.toNat)
    (hp : ∀ error, (s.requests p.r).phase ≠ .returned (.error error)) :
    s.time.interval = some p.set := by
  have hr := h.remembers
  have hd := h.done
  have hstart : (s.requests p.r).start ≠ none := by
    intro hs
    rw [Request.issued_of_none hs] at hissued
    exact absurd hissued (Nat.lt_irrefl 0)
  rw [h.interval]
  unfold Plan.Remembers at hr
  cases hphase : (s.requests p.r).phase with
  | idle | readInterval interval | setInterval interval =>
    rw [hphase] at hr
    simp_all
  | readHead | trigger left | poll left | restore result => rfl
  | returned result =>
    rw [hphase] at hd hp
    cases result with
    | error error => exact absurd rfl (hp error)
    | ok u => exact absurd (hd (Or.inr rfl)) hfinished.ne
  | panicked =>
    rw [hphase] at hr
    exact hr.elim

theorem serve (h : Spaced p s) (now : U64) : Spaced p (s.serve now) := by
  have hqueued := h.queued.serve now
  revert hqueued
  unfold Node.serve
  cases hb : s.building with
  | some block => exact fun _ => h
  | none =>
    cases ht : s.triggers with
    | nil => exact fun _ => h
    | cons issuer triggers =>
      intro hqueued
      have htime : (s.time.nextTimestamp now).2 = _ := TimeManager.nextTimestamp_of_none h.exact
      have htaken : s.taken = s.finished := by rw [Node.taken, hb]; rfl
      have hle := h.taken_le
      rw [ht, htaken, List.length_cons] at hle
      have hissued := h.issued_le
      have hissuer : issuer = some p.r := by
        have hm : issuer ∈ s.unserved := by simp [Node.unserved, hb, ht]
        rw [h.unserved] at hm
        exact List.eq_of_mem_replicate hm
      refine ⟨hqueued, h.remembers, ?_, ?_, ?_, h.head, h.done, fun hp => ?_⟩
      · exact (congrArg TimeManager.interval htime).trans h.interval
      · exact (congrArg TimeManager.nextExactTimestamp htime).trans h.exact
      · exact (congrArg TimeManager.offset htime).trans h.offset
      · have hstamped := h.stamped hp
        have hinterval := h.interval_of_serving (by omega) (by omega) hp
        have hnext : (s.time.nextTimestamp now).1.toNat = p.stamp (s.finished + 1) := by
          have hlast := hstamped.last
          have hlt := p.stamp_lt (k := s.finished + 1) (by omega)
          have hset := p.toNat_set
          have hapart := p.apart
          rw [htaken] at hlast
          rw [Plan.stamp, Nat.succ_mul] at hlt ⊢
          rw [Plan.stamp] at hlast
          rw [TimeManager.toNat_nextTimestamp_of_interval h.exact hinterval (by omega)]
          omega
        have hlast := congrArg TimeManager.lastTimestamp htime
        refine ⟨?_, fun block hblock => ?_, hstamped.mined⟩
        · exact (congrArg BitVec.toNat hlast).trans hnext
        · obtain rfl := Option.some.inj hblock
          exact ⟨hissuer, hnext⟩

theorem finishBlock (h : Spaced p s) : Spaced p s.finishBlock := by
  unfold Node.finishBlock
  cases hb : s.building with
  | none => exact h
  | some block =>
    have htaken : s.taken = s.finished + 1 := by rw [Node.taken, hb]; rfl
    have hle := h.taken_le
    have hissued := h.issued_le
    have hreaches := p.reaches
    have hhead := h.head
    refine ⟨h.queued.finish hb rfl rfl rfl rfl, h.remembers, h.interval, h.exact, h.offset, ?_,
      fun hd => ?_, fun hp => ?_⟩
    · change (s.head + 1).toNat = _ + (s.finished + 1)
      rw [BitVec.toNat_add, hhead]
      change (_ + 1) % 2 ^ 64 = _
      rw [Nat.mod_eq_of_lt (by omega)]
      omega
    · have hd' := h.done hd
      omega
    · have hstamped := h.stamped hp
      obtain ⟨howner, hstamp⟩ := hstamped.building block hb
      refine ⟨?_, fun _ => nofun, ?_⟩
      · have hlast := hstamped.last
        rw [htaken] at hlast
        exact hlast
      · change List.map _ (block :: s.mined).reverse = (List.range (s.finished + 1)).map _
        rw [List.reverse_cons, List.map_append, hstamped.mined, List.range_succ, List.map_append,
          List.map_singleton, List.map_singleton, howner, hstamp, htaken]

/-- A step of the request that keeps the last timestamp. -/
theorem move (h : Spaced p s) {time : TimeManager} {triggers : List (Option ℕ)}
    {restored : Option ℕ} {q : Request}
    (hqueued : Queued 0 p.r ({ s with time, triggers, restored }.setRequest p.r q))
    (hq : p.Remembers q) (hi : time.interval = p.intervalAt q.phase)
    (hl : time.lastTimestamp = s.time.lastTimestamp)
    (he : time.nextExactTimestamp = s.time.nextExactTimestamp) (ho : time.offset = s.time.offset)
    (hd : q.phase = .restore (.ok ()) ∨ q.phase = .returned (.ok ()) →
      s.finished = p.blocks.toNat)
    (hp : ∀ error, (s.requests p.r).phase ≠ .returned (.error error)) :
    Spaced p ({ s with time, triggers, restored }.setRequest p.r q) := by
  have hself := Node.setRequest_self { s with time, triggers, restored } p.r q
  have hstamped := h.stamped hp
  refine ⟨hqueued, ?_, ?_, he.trans h.exact, ho.trans h.offset, h.head, ?_, fun _ => ?_⟩
  · rwa [hself]
  · rw [hself]
    exact hi
  · rwa [hself]
  · exact ⟨(congrArg BitVec.toNat hl).trans hstamped.last, hstamped.building, hstamped.mined⟩

theorem restore (h : Spaced p s) {result : RpcResult Unit}
    (hp : (s.requests p.r).phase = .restore result)
    (hqueued : Queued 0 p.r (s.restore p.r result)) : Spaced p (s.restore p.r result) := by
  have hr := h.remembers
  have hd := h.done
  rw [Plan.Remembers, hp] at hr
  rw [hp] at hd
  obtain ⟨hb, hprevious⟩ := hr
  refine h.move hqueued ?_ ?_ ?_ ?_ ?_ ?_ (by simp [hp])
  · exact hb
  · rw [hprevious]
    change _ = p.time.interval
    cases p.time.interval <;> rfl
  · cases (s.requests p.r).previousInterval <;> rfl
  · cases (s.requests p.r).previousInterval <;> rfl
  · cases (s.requests p.r).previousInterval <;> rfl
  · rintro (hres | hres)
    · cases hres
    · obtain rfl := Phase.returned.inj hres
      exact hd (Or.inl rfl)

/-- A wait that ends goes on to set the interval back. -/
theorem finish (h : Spaced p s) {result : RpcResult Unit} (ht : (s.requests p.r).timed)
    (hb : (s.requests p.r).blocks.toNat = p.blocks.toNat)
    (hprevious : (s.requests p.r).previousInterval = p.time.interval)
    (hi : s.time.interval = some p.set) (hd : result = .ok () → s.finished = p.blocks.toNat)
    (hp : ∀ error, (s.requests p.r).phase ≠ .returned (.error error))
    (hqueued : Queued 0 p.r (s.setRequest p.r ((s.requests p.r).finish result))) :
    Spaced p (s.setRequest p.r ((s.requests p.r).finish result)) := by
  have hphase : ((s.requests p.r).finish result).phase = .restore result := by
    rw [Request.finish, ht]
    rfl
  refine h.move hqueued ?_ ?_ rfl rfl rfl ?_ hp
  · rw [Plan.Remembers, hphase]
    exact ⟨hb, hprevious⟩
  · rw [hphase]
    exact hi
  · rw [hphase]
    rintro (hres | hres)
    · exact hd (Phase.restore.inj hres)
    · cases hres

/-- The wait ends well only when all blocks are there. -/
theorem pollHead (h : Spaced p s) {left : ℕ} (hp : (s.requests p.r).phase = .poll (left + 1))
    {read : ProviderResult U64} (hread : read = .ok s.head ∨ ∃ error, read = .error error)
    (hqueued : Queued 0 p.r (s.setRequest p.r ((s.requests p.r).pollHead left
      (mapProviderError "failed to read latest block number: " read)))) :
    Spaced p (s.setRequest p.r ((s.requests p.r).pollHead left
      (mapProviderError "failed to read latest block number: " read))) := by
  have hr := h.remembers
  have hi := h.interval
  rw [Plan.Remembers, hp] at hr
  rw [hp] at hi
  obtain ⟨ht, hb, hs, hprevious⟩ := hr
  revert hqueued
  rcases hread with rfl | ⟨error, rfl⟩
  · simp only [mapProviderError, Request.pollHead]
    split
    · rename_i hle
      refine h.finish ht hb hprevious hi (fun _ => ?_) (by simp [hp])
      have hreaches := p.reaches
      have hhead := h.head
      have hissued := h.issued_le
      have htaken := h.taken_le
      rw [BitVec.le_def, Request.target, hs, Option.getD_some, Saturating.toNat_add, hb] at hle
      rw [Node.taken] at htaken
      omega
    · intro hqueued
      refine h.move hqueued ?_ hi rfl rfl rfl ?_ (by simp [hp])
      · exact ⟨ht, hb, hs, hprevious⟩
      · rintro (hres | hres) <;> cases hres
  · exact h.finish ht hb hprevious hi nofun (by simp [hp])

theorem advance (h : Spaced p s) {read : ProviderResult U64}
    (hread : read = .ok s.head ∨ ∃ error, read = .error error) :
    Spaced p (s.advance p.r read) := by
  have hqueued := h.queued.advance read
  have hr := h.remembers
  have hi := h.interval
  unfold Plan.Remembers at hr
  revert hqueued hr hi
  unfold Node.advance
  dsimp only
  cases hp : (s.requests p.r).phase with
  | idle | returned result | panicked => exact fun _ _ _ => h
  | readInterval interval =>
    rintro hqueued ⟨ht, hb, hs, rfl⟩ hi
    refine h.move hqueued ?_ hi rfl rfl rfl ?_ (by simp [hp])
    · exact ⟨ht, hb, hs, rfl, hi⟩
    · rintro (hres | hres) <;> cases hres
  | setInterval interval =>
    rintro hqueued ⟨ht, hb, hs, rfl, hprevious⟩ hi
    have hne : (s.requests p.r).blocks ≠ 0 := by
      intro h0
      have hpos := p.some_blocks
      rw [← hb, h0] at hpos
      exact absurd hpos (by decide)
    revert hqueued
    dsimp only
    rw [Node.setInterval, if_pos p.interval_fits, Request.mineBlocks, if_neg hne]
    intro hqueued
    refine h.move hqueued ?_ rfl rfl rfl rfl ?_ (by simp [hp])
    · exact ⟨ht, hb, hs, hprevious⟩
    · rintro (hres | hres) <;> cases hres
  | readHead =>
    rintro hqueued ⟨ht, hb, hs, hprevious⟩ hi
    revert hqueued
    rcases hread with rfl | ⟨error, rfl⟩
    · have hissued := h.taken_le
      rw [Request.issued_of_none hs, Node.taken] at hissued
      have hhead : s.head = p.head := by
        refine BitVec.eq_of_toNat_eq ?_
        rw [h.head]
        omega
      intro hqueued
      refine h.move hqueued ?_ hi rfl rfl rfl ?_ (by simp [hp])
      · exact ⟨ht, hb, congrArg some hhead, hprevious⟩
      · rintro (hres | hres) <;> cases hres
    · exact h.finish ht hb hprevious hi nofun (by simp [hp])
  | trigger left =>
    rintro hqueued ⟨ht, hb, hs, hprevious⟩ hi
    cases left with
    | zero | succ left =>
      refine h.move hqueued ?_ hi rfl rfl rfl ?_ (by simp [hp])
      · exact ⟨ht, hb, hs, hprevious⟩
      · rintro (hres | hres) <;> cases hres
  | poll left =>
    rintro hqueued ⟨ht, hb, hs, hprevious⟩ hi
    cases left with
    | zero => exact h.finish ht hb hprevious hi nofun (by simp [hp]) hqueued
    | succ left => exact h.pollHead hp hread hqueued
  | restore result => exact fun hqueued _ _ => h.restore hp hqueued

end Spaced

/-- The events of a node with a single request. The head number is read as it
is, if it can be read, and every block that is begun is mined. -/
def Event.Alone (r : ℕ) (blocks interval : U256) (s : Node) : Event → Prop
  | .mine r' numBlocks' interval' => r' = r ∧ numBlocks' = some blocks ∧ interval' = some interval
  | .step r' read => r' = r ∧ (read = .ok s.head ∨ ∃ error, read = .error error)
  | .serve _ | .finishBlock => True
  | .trigger | .failBlock => False

theorem Spaced.step {p : Plan} {s : Node} (h : Spaced p s) (e : Event)
    (he : e.Alone p.r p.blocks p.interval s) : Spaced p (s.step e) := by
  cases e with
  | mine r numBlocks interval =>
    obtain ⟨rfl, rfl, rfl⟩ := he
    have hqueued := h.queued.step (.mine p.r (some p.blocks) (some p.interval)) rfl
    have hr := h.remembers
    have hi := h.interval
    revert hqueued
    simp only [Node.step]
    split
    · rename_i hp
      rw [hp] at hi
      have harrive : Request.arrive (some p.blocks) (some p.interval) =
          { blocks := p.blocks.setWidth 64, timed := true, phase := .readInterval p.interval } := by
        have hblocks : p.blocks.toNat < 2 ^ 64 := by
          have hreaches := p.reaches
          omega
        have hne : p.interval ≠ 0 := by
          intro h0
          have hapart := p.apart
          rw [h0] at hapart
          exact absurd hapart (by decide)
        have hfilter : (some p.interval).filter (· ≠ 0) = some p.interval :=
          if_pos (by simpa using hne)
        simp only [Request.arrive, Option.getD_some, if_pos hblocks, hfilter]
      rw [harrive]
      intro hqueued
      refine h.move hqueued ?_ hi rfl rfl rfl ?_ (by simp [hp])
      · refine ⟨rfl, ?_, rfl, rfl⟩
        rw [BitVec.toNat_setWidth, Nat.mod_eq_of_lt]
        have hreaches := p.reaches
        omega
      · rintro (hres | hres) <;> cases hres
    · exact fun _ => h
  | step r read =>
    obtain ⟨rfl, hread⟩ := he
    exact h.advance hread
  | trigger => exact he.elim
  | serve now => exact h.serve now
  | finishBlock => exact h.finishBlock
  | failBlock => exact he.elim

/-- A request for blocks at an interval that runs alone and returns well has
exactly its blocks mined, at its interval; and however it returns, the interval
and the offset of the node are what they were. The head number has room to
advance with every block. -/
theorem mine_spaces (time : TimeManager) (head : U64) (r : ℕ) (blocks interval : U256)
    (hexact : time.nextExactTimestamp = none) (hblocks : 1 ≤ blocks.toNat)
    (hinterval : 1 ≤ interval.toNat)
    (hfits : time.lastTimestamp.toNat + blocks.toNat * interval.toNat < 2 ^ 64)
    (hreaches : head.toNat + blocks.toNat < 2 ^ 64) (es : List Event)
    (hes : Transition.Each Node.step (fun s e => e.Alone r blocks interval s)
      (.start time head 0) es) {result : RpcResult Unit}
    (hresult : ((Transition.run Node.step (.start time head 0) es).requests r).phase =
      .returned result) :
    let s := Transition.run Node.step (.start time head 0) es
    (result = .ok () → s.mined.reverse.map (fun block => (block.1, block.2.toNat)) =
      (List.range blocks.toNat).map fun k =>
        (some r, time.lastTimestamp.toNat + (k + 1) * interval.toNat)) ∧
    s.time.interval = time.interval ∧ s.time.offset = time.offset := by
  intro s
  set p : Plan := ⟨time, head, r, blocks, interval, hexact, hblocks, hinterval, hfits, hreaches⟩
  have h : Spaced p s :=
    (Transition.always_of_each (Spaced.start p) (fun s e h he => h.step e he) hes).last
  have hphase : (s.requests p.r).phase = .returned result := hresult
  refine ⟨?_, ?_, h.offset⟩
  · rintro rfl
    have hdone := h.done (Or.inr hphase)
    rw [(h.stamped (by simp [hphase])).mined, hdone]
    rfl
  · rw [h.interval, hphase]
    rfl

/-- A request for two blocks five seconds apart, and the miner. -/
def twoBlocks : List Event :=
  [.mine 0 (some 2) (some 5), .step 0 (.ok 0), .step 0 (.ok 0), .step 0 (.ok 0),
    .step 0 (.ok 0), .serve 1000, .step 0 (.ok 0), .step 0 (.ok 0), .finishBlock,
    .serve 1000, .step 0 (.ok 1), .finishBlock, .step 0 (.ok 2), .step 0 (.ok 2)]

theorem mine_spaces_twoBlocks :
    let s := Transition.run Node.step (.start (.new 1000 1000) 0 0) twoBlocks
    s.mined.reverse.map (fun block => (block.1, block.2.toNat)) = [(some 0, 1005), (some 0, 1010)] ∧
      s.time.interval = none := by
  intro s
  have hes : Transition.Each Node.step (fun s e => e.Alone 0 2 5 s)
      (.start (.new 1000 1000) 0 0) twoBlocks := by
    simp only [twoBlocks, Transition.each_cons, Event.Alone, true_and, Transition.each_nil,
      and_true]
    exact ⟨Or.inl rfl, Or.inl rfl, Or.inl rfl, Or.inl rfl, Or.inl rfl, Or.inl rfl, Or.inl rfl,
      Or.inl rfl, Or.inl rfl⟩
  have hresult : (s.requests 0).phase = .returned (.ok ()) := rfl
  obtain ⟨hmined, hinterval, -⟩ := mine_spaces (.new 1000 1000) 0 0 2 5 rfl (by decide) (by decide)
    (by decide) (by decide) twoBlocks hes hresult
  exact ⟨hmined rfl, hinterval⟩

end Mining

end AnvilReth
