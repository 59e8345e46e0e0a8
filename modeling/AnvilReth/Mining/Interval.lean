import AnvilReth.Mining.Mine

/-! # The interval after overlapping mine requests

Every request with an interval reads the one it finds, sets its own, and sets
the old one back in the end. Once all requests are over the interval is the one
that was there when the last of them to set it back read it.
-/

namespace AnvilReth

namespace Mining

/-- The request has set its interval and will set the old one back. -/
def Request.Holds (q : Request) : Prop :=
  q.timed ∧ match q.phase with
    | .readHead | .trigger _ | .poll _ | .restore _ => True
    | _ => False

/-- Only requests with an interval read, set and restore it. -/
def Request.Sound (q : Request) : Prop :=
  match q.phase with
  | .readInterval _ | .setInterval _ | .restore _ => q.timed
  | _ => True

def Request.Over (q : Request) : Prop :=
  match q.phase with
  | .idle | .returned _ | .panicked => True
  | _ => False

namespace Request

variable {q : Request}

theorem Holds.not_over (h : q.Holds) : ¬ q.Over := by
  obtain ⟨-, h⟩ := h
  unfold Over
  split at h
  all_goals simp_all

theorem sound_finish (result : RpcResult Unit) : (q.finish result).Sound := by
  unfold finish Sound
  cases q.timed <;> simp

theorem holds_finish (h : q.timed) (result : RpcResult Unit) : (q.finish result).Holds := by
  simp [finish, Holds, h]

theorem sound_mineBlocks : q.mineBlocks.Sound := by
  unfold mineBlocks
  split
  · exact sound_finish _
  · trivial

theorem holds_mineBlocks (h : q.timed) : q.mineBlocks.Holds := by
  unfold mineBlocks
  split
  · exact holds_finish h _
  · exact ⟨h, trivial⟩

theorem sound_arrive (numBlocks interval : Option U256) : (arrive numBlocks interval).Sound := by
  unfold arrive
  dsimp only
  split
  · split
    · rfl
    · exact sound_mineBlocks
  · trivial

theorem sound_pollHead {left : ℕ} (read : RpcResult U64) : (q.pollHead left read).Sound := by
  unfold pollHead
  split
  · exact sound_finish _
  · split
    · exact sound_finish _
    · trivial

theorem holds_pollHead {left : ℕ} (h : q.timed) (read : RpcResult U64) :
    (q.pollHead left read).Holds := by
  unfold pollHead
  split
  · exact holds_finish h _
  · split
    · exact holds_finish h _
    · exact ⟨h, trivial⟩

end Request

/-- The interval that was found by the request that restored it last. -/
def Node.saved (initial : Option U64) (s : Node) : Option U64 :=
  s.restored.elim initial fun r => (s.requests r).previousInterval

structure Invariant (initial : Option U64) (s : Node) : Prop where
  sound : ∀ r, (s.requests r).Sound
  restored : ∀ r, s.restored = some r →
    (s.requests r).timed ∧ ∃ result, (s.requests r).phase = .returned result
  interval : (∃ r, (s.requests r).Holds) ∨ s.time.interval = s.saved initial

namespace Invariant

variable {initial : Option U64} {s t : Node} {r : ℕ}

theorem start (time : TimeManager) (head : U64) (pending : ℕ) :
    Invariant time.interval (.start time head pending) :=
  ⟨fun _ => trivial, fun _ => nofun, Or.inr rfl⟩

/-- The miner and other issuers of triggers leave requests and the interval alone. -/
theorem of_requests (h : Invariant initial s) (hq : t.requests = s.requests)
    (hr : t.restored = s.restored) (hi : t.time.interval = s.time.interval) :
    Invariant initial t := by
  have hsaved : t.saved initial = s.saved initial := by rw [Node.saved, Node.saved, hr, hq]
  exact ⟨hq ▸ h.sound, hr ▸ hq ▸ h.restored, hsaved ▸ hi ▸ hq ▸ h.interval⟩

/-- A request that has not returned goes on. -/
theorem requests_setRequest (h : Invariant initial s)
    (hp : ∀ result, (s.requests r).phase ≠ .returned result) {q : Request} (hs : q.Sound) :
    (∀ r', ((s.setRequest r q).requests r').Sound) ∧
      ∀ r', s.restored = some r' → (s.setRequest r q).requests r' = s.requests r' := by
  constructor
  · intro r'
    by_cases he : r' = r
    · rw [he, Node.setRequest_self]
      exact hs
    · rw [s.setRequest_of_ne he]
      exact h.sound r'
  · rintro r' hr'
    refine s.setRequest_of_ne ?_ q
    rintro rfl
    obtain ⟨-, result, hres⟩ := h.restored r' hr'
    exact hp result hres

theorem move (h : Invariant initial s) (hp : ∀ result, (s.requests r).phase ≠ .returned result)
    {q : Request} (hs : q.Sound) (hh : (s.requests r).Holds → q.Holds) :
    Invariant initial (s.setRequest r q) := by
  obtain ⟨hsound, hsame⟩ := h.requests_setRequest hp hs
  refine ⟨hsound, fun r' hr' => ?_, ?_⟩
  · rw [hsame r' hr']
    exact h.restored r' hr'
  · rcases h.interval with ⟨r', hr'⟩ | hi
    · by_cases he : r' = r
      · rw [he] at hr'
        exact Or.inl ⟨r, by rw [Node.setRequest_self]; exact hh hr'⟩
      · exact Or.inl ⟨r', by rwa [s.setRequest_of_ne he]⟩
    · refine Or.inr (hi.trans ?_)
      have hres : (s.setRequest r q).restored = s.restored := rfl
      rw [Node.saved, Node.saved, hres]
      cases hr' : s.restored with
      | none => rfl
      | some r' => rw [Option.elim_some, Option.elim_some, hsame r' hr']

/-- A request that holds the interval may have set it. -/
theorem hold (h : Invariant initial s) (hp : ∀ result, (s.requests r).phase ≠ .returned result)
    {q : Request} (hs : q.Sound) (hh : q.Holds) (time : TimeManager) :
    Invariant initial ({ s with time }.setRequest r q) := by
  obtain ⟨hsound, hsame⟩ := h.requests_setRequest hp hs
  refine ⟨hsound, fun r' hr' => ?_, Or.inl ⟨r, ?_⟩⟩
  · have hq : ({ s with time }.setRequest r q).requests r' = s.requests r' := hsame r' hr'
    rw [hq]
    exact h.restored r' hr'
  · rw [Node.setRequest_self]
    exact hh

theorem setInterval (h : Invariant initial s) {interval : U256}
    (hp : (s.requests r).phase = .setInterval interval) :
    Invariant initial (s.setInterval r interval) := by
  have hnot : ∀ result, (s.requests r).phase ≠ .returned result := by simp [hp]
  have htimed : (s.requests r).timed := by
    have hs := h.sound r
    rwa [Request.Sound, hp] at hs
  unfold Node.setInterval
  split
  · exact h.hold hnot Request.sound_mineBlocks (Request.holds_mineBlocks htimed) _
  · refine h.move hnot trivial fun hh => ?_
    exact absurd hh.2 (by rw [hp]; exact id)

theorem restore (h : Invariant initial s) {result : RpcResult Unit}
    (hp : (s.requests r).phase = .restore result) : Invariant initial (s.restore r result) := by
  have htimed : (s.requests r).timed := by
    have hs := h.sound r
    rwa [Request.Sound, hp] at hs
  refine ⟨fun r' => ?_, ?_, Or.inr ?_⟩
  · by_cases he : r' = r
    · rw [he, Node.restore, Node.setRequest_self]
      trivial
    · rw [Node.restore, Node.setRequest_of_ne _ he]
      exact h.sound r'
  · rintro r' hr'
    obtain rfl := Option.some.inj hr'
    rw [Node.restore, Node.setRequest_self]
    exact ⟨htimed, result, rfl⟩
  · have hsaved : (s.restore r result).saved initial = (s.requests r).previousInterval := by
      change ((s.restore r result).requests r).previousInterval = _
      rw [Node.restore, Node.setRequest_self]
    rw [hsaved]
    unfold Node.restore
    cases (s.requests r).previousInterval <;> rfl

theorem advance (h : Invariant initial s) (r : ℕ) (read : ProviderResult U64) :
    Invariant initial (s.advance r read) := by
  unfold Node.advance
  dsimp only
  split <;> rename_i hp
  · exact h
  · exact h
  · exact h
  · have hs := h.sound r
    rw [Request.Sound, hp] at hs
    refine h.move (by simp [hp]) hs fun hh => ?_
    exact absurd hh.2 (by rw [hp]; exact id)
  · exact h.setInterval hp
  · split
    · exact h.move (by simp [hp]) (Request.sound_finish _) fun hh => Request.holds_finish hh.1 _
    · exact h.move (by simp [hp]) trivial fun hh => ⟨hh.1, trivial⟩
  · exact h.move (by simp [hp]) trivial fun hh => ⟨hh.1, trivial⟩
  · rename_i left
    have ht : Invariant initial { s with triggers := s.triggers ++ [some r] } :=
      h.of_requests rfl rfl rfl
    refine ht.move ?_ trivial fun hh => ⟨hh.1, trivial⟩
    intro result hres
    exact nomatch hp.symm.trans hres
  · exact h.move (by simp [hp]) (Request.sound_finish _) fun hh => Request.holds_finish hh.1 _
  · exact h.move (by simp [hp]) (Request.sound_pollHead _) fun hh => Request.holds_pollHead hh.1 _
  · exact h.restore hp

theorem step (h : Invariant initial s) (e : Event) : Invariant initial (s.step e) := by
  cases e with
  | mine r numBlocks interval =>
    simp only [Node.step]
    split
    · rename_i hp
      refine h.move (by simp [hp]) (Request.sound_arrive _ _) fun hh => ?_
      exact absurd hh.2 (by rw [hp]; exact id)
    · exact h
  | step r read => exact h.advance r read
  | trigger => exact h.of_requests rfl rfl rfl
  | serve now =>
    simp only [Node.step, Node.serve]
    split
    · exact h.of_requests rfl rfl rfl
    · exact h
  | finishBlock =>
    simp only [Node.step, Node.finishBlock]
    split
    · exact h.of_requests rfl rfl rfl
    · exact h
  | failBlock =>
    simp only [Node.step, Node.failBlock]
    split
    · exact h.of_requests rfl rfl rfl
    · exact h

end Invariant

namespace Request

/-- The request has read the interval it will set back. -/
def HasRead (q : Request) : Prop :=
  q.timed ∧ q.phase ≠ .idle ∧ ∀ interval, q.phase ≠ .readInterval interval

/-- A step after which the request remembers what it did before, and waits for
nothing that comes before the interval is read. -/
structure Keeps (q q' : Request) : Prop where
  timed : q'.timed = q.timed
  previousInterval : q'.previousInterval = q.previousInterval
  started : q'.phase ≠ .idle
  read : ∀ interval, q'.phase ≠ .readInterval interval

variable {q : Request}

theorem keeps_finish (result : RpcResult Unit) : q.Keeps (q.finish result) := by
  refine ⟨rfl, rfl, ?_, fun interval => ?_⟩
  all_goals
    unfold finish
    cases q.timed <;> nofun

theorem keeps_mineBlocks : q.Keeps q.mineBlocks := by
  unfold mineBlocks
  split
  · exact keeps_finish _
  · exact ⟨rfl, rfl, nofun, fun _ => nofun⟩

theorem keeps_pollHead {left : ℕ} (read : RpcResult U64) : q.Keeps (q.pollHead left read) := by
  unfold pollHead
  split
  · exact keeps_finish _
  · split
    · exact keeps_finish _
    · exact ⟨rfl, rfl, nofun, fun _ => nofun⟩

theorem not_hasRead_arrive (numBlocks interval : Option U256) :
    ¬ (arrive numBlocks interval).HasRead := by
  unfold arrive
  dsimp only
  split
  · split
    · rintro ⟨-, -, hread⟩
      exact hread _ rfl
    · rintro ⟨htimed, -⟩
      rw [keeps_mineBlocks.timed] at htimed
      cases htimed
  · rintro ⟨htimed, -⟩
    cases htimed

end Request

namespace Node

variable {s : Node} {r : ℕ}

theorem keeps_advance (h0 : (s.requests r).phase ≠ .idle)
    (hr : ∀ interval, (s.requests r).phase ≠ .readInterval interval)
    (read : ProviderResult U64) : (s.requests r).Keeps ((s.advance r read).requests r) := by
  unfold Node.advance
  dsimp only
  split <;> rename_i hp
  · exact absurd hp h0
  · exact ⟨rfl, rfl, h0, hr⟩
  · exact ⟨rfl, rfl, h0, hr⟩
  · exact absurd hp (hr _)
  · unfold Node.setInterval
    split
    · rw [setRequest_self]
      exact Request.keeps_mineBlocks
    · rw [setRequest_self]
      exact ⟨rfl, rfl, nofun, fun _ => nofun⟩
  · split
    · rw [setRequest_self]
      exact Request.keeps_finish _
    · rw [setRequest_self]
      exact ⟨rfl, rfl, nofun, fun _ => nofun⟩
  · rw [setRequest_self]
    exact ⟨rfl, rfl, nofun, fun _ => nofun⟩
  · rw [setRequest_self]
    exact ⟨rfl, rfl, nofun, fun _ => nofun⟩
  · rw [setRequest_self]
    exact Request.keeps_finish _
  · rw [setRequest_self]
    exact Request.keeps_pollHead _
  · rw [Node.restore, setRequest_self]
    exact ⟨rfl, rfl, nofun, fun _ => nofun⟩

end Node

/-- The event is the step with which the request reads the interval it will set back. -/
def Event.Reads (r : ℕ) (s : Node) (e : Event) : Prop :=
  ∃ read interval, e = .step r read ∧ (s.requests r).phase = .readInterval interval

/-- What an event can do to a request. -/
theorem Node.step_cases (s : Node) (r : ℕ) (e : Event) :
    (s.step e).requests r = s.requests r ∨
    (∃ numBlocks interval, (s.step e).requests r = .arrive numBlocks interval) ∧
      (s.requests r).phase = .idle ∨
    (∃ interval, (s.step e).requests r = { s.requests r with
      previousInterval := s.time.interval, phase := .setInterval interval }) ∧ e.Reads r s ∨
    (s.requests r).Keeps ((s.step e).requests r) ∧ (s.requests r).phase ≠ .idle ∧
      ∀ interval, (s.requests r).phase ≠ .readInterval interval := by
  cases e with
  | mine r' numBlocks interval =>
    by_cases hr : r = r'
    · subst hr
      simp only [Node.step]
      split
      · rename_i hp
        refine Or.inr (Or.inl ⟨⟨numBlocks, interval, ?_⟩, hp⟩)
        exact s.setRequest_self r _
      · exact Or.inl rfl
    · refine Or.inl ?_
      simp only [Node.step]
      split
      · exact s.setRequest_of_ne hr _
      · rfl
  | step r' read =>
    by_cases hr : r = r'
    · subst hr
      by_cases h0 : (s.requests r).phase = .idle
      · refine Or.inl ?_
        simp only [Node.step, Node.advance, h0]
      · by_cases hread : ∃ interval, (s.requests r).phase = .readInterval interval
        · obtain ⟨interval, hp⟩ := hread
          refine Or.inr (Or.inr (Or.inl ⟨⟨interval, ?_⟩, read, interval, rfl, hp⟩))
          simp only [Node.step, Node.advance, hp, Node.setRequest_self]
        · have hnot : ∀ interval, (s.requests r).phase ≠ .readInterval interval :=
            fun interval hp => hread ⟨interval, hp⟩
          exact Or.inr (Or.inr (Or.inr ⟨Node.keeps_advance h0 hnot read, h0, hnot⟩))
    · exact Or.inl (s.requests_advance_of_ne hr read)
  | trigger => exact Or.inl rfl
  | serve now => exact Or.inl (congrFun (s.requests_serve now) r)
  | finishBlock => exact Or.inl (congrFun s.requests_finishBlock r)
  | failBlock => exact Or.inl (congrFun s.requests_failBlock r)

namespace Request.HasRead

variable {s : Node} {r : ℕ}

/-- What was read stays. -/
theorem step (h : (s.requests r).HasRead) (e : Event) : ((s.step e).requests r).HasRead ∧
    ((s.step e).requests r).previousInterval = (s.requests r).previousInterval := by
  rcases s.step_cases r e with heq | ⟨-, hp⟩ | ⟨-, read, interval, -, hp⟩ | ⟨hkeeps, -⟩
  · rw [heq]
    exact ⟨h, rfl⟩
  · exact absurd hp h.2.1
  · exact absurd hp (h.2.2 interval)
  · exact ⟨⟨hkeeps.timed.trans h.1, hkeeps.started, hkeeps.read⟩, hkeeps.previousInterval⟩

theorem begins {e : Event} (h : ((s.step e).requests r).HasRead)
    (hn : ¬ (s.requests r).HasRead) : e.Reads r s := by
  rcases s.step_cases r e with heq | ⟨⟨numBlocks, interval, heq⟩, -⟩ | ⟨-, hreads⟩ |
    ⟨hkeeps, h0, hread⟩
  · rw [heq] at h
    exact absurd h hn
  · rw [heq] at h
    exact absurd h (Request.not_hasRead_arrive numBlocks interval)
  · exact hreads
  · exact absurd ⟨hkeeps.timed.symm.trans h.1, h0, hread⟩ hn

end Request.HasRead

/-- A request remembers the interval that was there when it read it. -/
theorem previousInterval_of_reads {s : Node} {r : ℕ} {pre : List Event} {e : Event}
    {es : List Event} (hsound : ((Transition.run Node.step s pre).requests r).Sound)
    (hreads : e.Reads r (Transition.run Node.step s pre)) (hp : pre ++ [e] <+: es) :
    ((Transition.run Node.step s es).requests r).previousInterval =
      (Transition.run Node.step s pre).time.interval := by
  obtain ⟨rest, rfl⟩ := hp
  obtain ⟨read, interval, rfl, hphase⟩ := hreads
  rw [Request.Sound, hphase] at hsound
  rw [Transition.run_append, Transition.run_append]
  set t := Transition.run Node.step s pre
  have hread : (t.step (.step r read)).requests r = { t.requests r with
      previousInterval := t.time.interval, phase := .setInterval interval } := by
    simp only [Node.step, Node.advance, hphase, Node.setRequest_self]
  have hkeep : Transition.Always Node.step (fun u => (u.requests r).HasRead ∧
      (u.requests r).previousInterval = t.time.interval) (t.step (.step r read)) rest := by
    refine Transition.always_of_step ?_ fun u d hu => ?_
    · rw [hread]
      exact ⟨⟨hsound, nofun, fun _ => nofun⟩, rfl⟩
    · obtain ⟨hd, heq⟩ := hu.1.step d
      exact ⟨hd, heq.trans hu.2⟩
  exact hkeep.last.2

/-- Once all requests are over, the interval is the initial one exactly if the
request that set it back last had read it when it was the initial one. -/
theorem interval_restored_iff (time : TimeManager) (head : U64) (pending : ℕ) (es : List Event)
    (hover : ∀ r, ((Transition.run Node.step (.start time head pending) es).requests r).Over) :
    let s := Transition.run Node.step (.start time head pending) es
    s.time.interval = time.interval ↔
      ∀ r, s.restored = some r → Transition.Each Node.step
        (fun t e => e.Reads r t → t.time.interval = time.interval)
        (.start time head pending) es := by
  intro s
  have hinv : Transition.Always Node.step (Invariant time.interval) (.start time head pending) es :=
    Transition.always_of_step (Invariant.start time head pending) fun _ e h => h.step e
  have hi : s.time.interval = s.saved time.interval := by
    refine hinv.last.interval.resolve_left ?_
    rintro ⟨r, hr⟩
    exact hr.not_over (hover r)
  have hfound : ∀ r pre e, pre ++ [e] <+: es →
      e.Reads r (Transition.run Node.step (.start time head pending) pre) →
      (s.requests r).previousInterval =
        (Transition.run Node.step (.start time head pending) pre).time.interval := by
    intro r pre e hp hreads
    have hsound := (hinv pre ((List.prefix_append pre [e]).trans hp)).sound r
    exact previousInterval_of_reads hsound hreads hp
  rw [hi, Node.saved]
  constructor
  · intro hsaved r hr pre e hp hreads
    rw [← hfound r pre e hp hreads, ← hsaved, hr, Option.elim_some]
  · intro h
    cases hr : s.restored with
    | none => rfl
    | some r =>
      obtain ⟨htimed, result, hres⟩ := hinv.last.restored r hr
      have hread : (s.requests r).HasRead := by
        refine ⟨htimed, ?_, fun interval => ?_⟩
        all_goals
          rw [hres]
          nofun
      obtain ⟨pre, e, hp, hnot, hbegins⟩ := Transition.exists_begins
        (P := fun t : Node => (t.requests r).HasRead) (fun h0 => h0.2.1 rfl) hread
      have hreads := Request.HasRead.begins hbegins hnot
      rw [Option.elim_some, hfound r pre e hp hreads]
      exact h r hr pre e hp hreads

/-- Two requests for no blocks, one within the other. -/
theorem interval_restored_iff_nested :
    (Transition.run Node.step (.start (.new 1000 1000) 0 0)
      [.mine 0 (some 0) (some 5), .step 0 (.ok 0), .step 0 (.ok 0), .mine 1 (some 0) (some 7),
        .step 1 (.ok 0), .step 1 (.ok 0), .step 1 (.ok 0), .step 0 (.ok 0)]).time.interval =
      none := by
  refine (interval_restored_iff (.new 1000 1000) 0 0 _ fun r => ?_).mpr fun r hr => ?_
  · match r with
    | 0 | 1 | _ + 2 => trivial
  · obtain rfl : 0 = r := Option.some.inj hr
    simp only [Transition.each_cons, Transition.each_nil, and_true]
    refine ⟨?_, fun _ => rfl, ?_, ?_, ?_, ?_, ?_, ?_⟩
    all_goals rintro ⟨read, interval, he, hp⟩
    · cases he
    · have hsets : Phase.setInterval 5 = .readInterval interval := hp
      cases hsets
    · cases he
    · cases he
    · cases he
    · cases he
    · have hrestores : Phase.restore (.ok ()) = .readInterval interval := hp
      cases hrestores

/-- Two crossing requests leave the interval of one of them behind. -/
theorem interval_left_behind :
    ¬ ∀ (time : TimeManager) (head : U64) (es : List Event),
      (∀ r numBlocks interval, .mine r numBlocks interval ∈ es →
        ∃ i : U256, interval = some i ∧ i ≠ 0) →
      let s := Transition.run Node.step (.start time head 0) es
      (∀ r, (s.requests r).phase = .idle ∨ ∃ result, (s.requests r).phase = .returned result) →
      s.time.interval = time.interval := by
  intro h
  have hleft := h (.new 1000 1000) 0
    [.mine 0 (some 0) (some 5), .step 0 (.ok 0), .step 0 (.ok 0), .mine 1 (some 0) (some 7),
      .step 1 (.ok 0), .step 1 (.ok 0), .step 0 (.ok 0), .step 1 (.ok 0)]
  refine absurd (hleft ?_ fun r => ?_) (by decide)
  · intro r numBlocks interval hm
    simp only [List.mem_cons, Event.mine.injEq, reduceCtorEq, List.not_mem_nil, or_false,
      false_or] at hm
    rcases hm with ⟨rfl, rfl, rfl⟩ | ⟨rfl, rfl, rfl⟩
    · exact ⟨5, rfl, by decide⟩
    · exact ⟨7, rfl, by decide⟩
  · match r with
    | 0 | 1 => exact Or.inr ⟨.ok (), rfl⟩
    | _ + 2 => exact Or.inl rfl

end Mining

end AnvilReth
