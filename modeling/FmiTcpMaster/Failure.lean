import FmiTcpMaster.History
import FmiTcpMaster.Schedule

/-! Failing answers. No callback looks at the status of its answer, so the master goes on as
after a success; only an answer to the last step of all has nothing after it. -/
namespace FmiTcpMaster

def Control.Last (g : Control) : Prop := (g.state = .steppingSlaves ∧ g.continues = false) ∨ g.state = .done

def Environment.succeeding : Environment :=
  ⟨fun g _ _ a => a.failing = true → g.state = .steppingSlaves ∧ g.continues = false,fun _ _ => True,fun _ _ => True⟩

instance (m : Master) (e : Event) : Decidable (Environment.succeeding.Allows m e) :=
  have : ∀ g c r a, Decidable (Environment.succeeding.answers g c r a) := fun g _ _ a =>
    inferInstanceAs (Decidable (a.failing = true → g.state = .steppingSlaves ∧ g.continues = false))
  have : ∀ m c, Decidable (Environment.succeeding.leaves m c) := fun _ _ => .isTrue trivial
  have : ∀ m c, Decidable (Environment.succeeding.fails m c) := fun _ _ => .isTrue trivial
  inferInstance

def Initialized (xs : List Exchange) : Prop :=
  ∃ x ∈ xs, ∃ status, x.response = .initializeSlave status ∧ status.failing = false

def Faultless (xs : List Exchange) : Prop := ∀ x ∈ xs, x.response.failing = false

structure SucceedsSoFar (g : Control) (c : FMIClient) : Prop where
  initialized : c.initialized = true → Initialized c.answered
  answers : Faultless c.answered ∨
    (g.Last ∧ c.pending = [] ∧ ∃ xs t h new a, c.answered = xs ++ [⟨.doStep t h new,a⟩] ∧ Faultless xs)

theorem initializedMore {xs : List Exchange} (x : Exchange) (held : Initialized xs) : Initialized (xs ++ [x]) := by
  obtain ⟨y,mem,rest⟩ := held
  exact ⟨y,List.mem_append_left _ mem,rest⟩

theorem initializedNow {g : Control} {c c' : FMIClient} {r : Request} {a : Response} (at_ : g.state = .initializingSlaves)
    (asks : g.state.asks r = true) (fits : a.answers r = true) (success : a.failing = false)
    (absorbed : Absorbed g.state r a c c') : Initialized c'.answered := by
  rw [at_] at asks
  cases r <;> simp only [MasterState.asks,Bool.false_eq_true] at asks
  cases a <;> simp only [Response.answers,Bool.false_eq_true] at fits
  rw [absorbed.answered]
  exact ⟨_,List.mem_append_right _ List.mem_cons_self,_,rfl,success⟩

theorem succeedsMove {g : Control} {c c' : FMIClient} (phase : InPhase g.state c) (moved : moves .succeeding g c c')
    (held : SucceedsSoFar g c) : SucceedsSoFar g c' := by
  rcases moveCases phase moved with ⟨_,rfl⟩ | ⟨r,a,_,pending,asks,_,fits,allowed,absorbed⟩
  · exact ⟨held.initialized,held.answers⟩
  · have before : Faultless c.answered := by
      rcases held.answers with before | ⟨_,idle,_⟩
      · exact before
      · simp [idle] at pending
    constructor
    · intro now
      rcases absorbed.initialized now with already | initializing
      · rw [absorbed.answered]
        exact initializedMore _ (held.initialized already)
      · have success : a.failing = false := by
          cases failing : a.failing with
          | false => rfl
          | true => exact absurd ((allowed failing).1.symm.trans initializing) (by decide)
        exact initializedNow initializing asks fits success absorbed
    · rw [absorbed.answered]
      cases failing : a.failing with
      | false =>
        left
        intro x mem
        rcases List.mem_append.mp mem with old | new
        · exact before x old
        · cases List.mem_singleton.mp new
          exact failing
      | true =>
        obtain ⟨stepping,last⟩ := allowed failing
        rw [stepping] at asks absorbed
        cases r <;> simp only [MasterState.asks,Bool.false_eq_true] at asks
        right
        refine ⟨Or.inl ⟨stepping,last⟩,?_,c.answered,_,_,_,_,rfl,before⟩
        rcases absorbed.rest with ⟨_,idle,_⟩ | ⟨derivative,_⟩
        · exact idle
        · cases derivative

theorem lastAdvance {g : Control} (last : g.Last) (turning : g.state = .connectingSlaves ∨ g.state.awaited.isSome = true) :
    g.next = .done := by
  rcases last with ⟨stepping,stop⟩ | ended
  · rw [Control.next,stepping]
    exact if_neg (by simp [stop])
  · simp [ended,MasterState.awaited] at turning

theorem enterDone {K : Coupling} {g : Control} {ps : List FMIClient} (last : g.Last) (next : g.next = .done)
    (c : FMIClient) : entered K g ps c = c := by
  have other : g.state ≠ .getStrongConnectorStates := by
    rintro strong
    rcases last with ⟨stepping,_⟩ | ended
    · simp [strong] at stepping
    · simp [strong] at ended
  rw [entered,if_neg other,Control.enter,next]
  rfl

theorem succeedsKept (K : Coupling) :
    Rounds.KeepsUnder (rounds K .succeeding) (fun g => g.state.resting = true) (fun g c => InPhase g.state c)
      (fun _ : Unit => fun _ => True) fun _ => SucceedsSoFar where
  move _ phase _ _ held moved := succeedsMove phase moved held
  turn := by
    intro _ g ps g' ps' _ phases _ held all turned
    refine turnHolds () phases all turned trivial fun c mem => ?_
    have kept := enteredKept K g ps c
    refine ⟨?_,?_⟩
    · rw [kept.initialized,kept.answered]
      exact (held c mem).initialized
    · rcases (held c mem).answers with before | ⟨last,idle,answered⟩
      · rw [kept.answered]
        exact Or.inl before
      · have next := lastAdvance last turned.1
        rw [enterDone last next]
        exact Or.inr ⟨Or.inr next,idle,answered⟩
  disturb := by
    intro _ g ps g' ps' _ _ _ held disturbed
    exact disturbHolds () disturbed (fun _ => trivial) fun _ c mem => ⟨(held c mem).initialized,(held c mem).answers⟩

theorem freshSucceeds {m₀ : Master} (fresh : m₀.Fresh) :
    Rounds.Holds (fun _ : Unit => fun _ => True) (fun _ => SucceedsSoFar) m₀.parts := by
  refine ⟨(),trivial,fun c mem => ?_⟩
  have client := fresh.clients c mem
  refine ⟨fun now => ?_,Or.inl ?_⟩
  · simp [client.initialized] at now
  · rw [client.answered]
    exact fun x inside => absurd inside List.not_mem_nil

theorem lastKept (K : Coupling) (E : Environment) (t : ℚ) (cs : List FMIClient) :
    Rounds.KeepsUnder (rounds K E) (fun g => g.state.resting = true) (fun g c => InPhase g.state c)
      (fun _ : Unit => fun g => g.Last ∧ g.time = t)
      fun _ _ c => ∃ d ∈ cs, d.self = c.self ∧ c.requests = d.requests where
  move := by
    intro _ g c c' _ phase _ last old moved
    rcases moveCases phase moved with ⟨_,rfl⟩ | ⟨r,a,reply⟩
    · exact old
    · rw [absorbedRequests reply.pending reply.absorbed,reply.absorbed.self]
      rcases reply.absorbed.rest with ⟨_,idle,_⟩ | ⟨derivative,_⟩
      · rwa [idle,List.append_nil]
      · rcases last.1 with ⟨stepping,_⟩ | ended
        · cases stepping.symm.trans derivative
        · cases ended.symm.trans derivative
  turn := by
    intro _ g ps g' ps' _ phases last old all turned
    have next := lastAdvance last.1 turned.1
    refine turnHolds () phases all turned ⟨Or.inr next,?_⟩ fun c mem => ?_
    · simp only [Control.advance,next,reduceCtorEq,if_false]
      exact last.2
    · rw [enterDone last.1 next]
      exact old c mem
  disturb := by
    intro _ g ps g' ps' _ _ last old disturbed
    exact disturbHolds () disturbed (fun _ => last) fun _ => old

def finalAnswers (xs : List Exchange) : List Exchange := finals Exchange.request false xs

section Finals
variable {α : Type} {f : α → Request}

theorem finalsMap (b : Bool) (xs : List α) : (finals f b xs).map f = finals id b (xs.map f) := by
  induction xs generalizing b with
  | nil => rfl
  | cons x xs ih =>
    simp only [finals,List.map_cons,id_eq]
    cases at_ : f x <;> simp only [ih]
    split
    · exact ih b
    · rw [List.map_cons,at_,ih]

theorem finalsSnoc (b : Bool) (xs : List α) (x : α) :
    finals f b (xs ++ [x]) = finals f b xs ∨ finals f b (xs ++ [x]) = finals f b xs ++ [x] := by
  induction xs generalizing b with
  | nil =>
    simp only [List.nil_append,finals]
    cases f x <;> simp
  | cons y ys ih =>
    simp only [List.cons_append,finals]
    cases f y <;> simp only [] <;> try exact ih _
    split
    · exact ih _
    · rcases ih b with same | more
      · exact Or.inl (by rw [same])
      · exact Or.inr (by rw [more]; rfl)

theorem finalsSubset (b : Bool) (xs : List α) : finals f b xs ⊆ xs := by
  induction xs generalizing b with
  | nil => exact List.Subset.refl _
  | cons x xs ih =>
    simp only [finals]
    cases f x <;> simp only [] <;> try exact List.subset_cons_of_subset _ (ih _)
    split
    · exact List.subset_cons_of_subset _ (ih _)
    · exact List.cons_subset_cons _ (ih _)

end Finals

theorem finalsAnswered {g : Control} {refs : List Int} {n : Nat} {s : MasterState} {c : FMIClient}
    (short : c.pending.length ≤ 1) (sent : g.cycle.Sent refs n s c.requests) :
    (if s = .steppingSlaves ∨ s = .done then n+1 else n)-1 ≤ (finalAnswers c.answered).length ∧
    (c.pending = [] → (finalAnswers c.answered).length = if s = .steppingSlaves ∨ s = .done then n+1 else n) := by
  have count := finalsSent sent
  rw [← count]
  have same : (finalAnswers c.answered).length = (finalSteps (c.answered.map Exchange.request)).length := by
    rw [finalSteps,← finalsMap,List.length_map,finalAnswers]
  rw [FMIClient.requests,same]
  rcases FMIClient.noneOrOne short with none | ⟨r,one⟩
  · simp [none]
  · rw [one]
    constructor
    · rcases finalsSnoc (f := id) false (c.answered.map Exchange.request) r with h | h <;>
        simp only [finalSteps,h,List.length_append,List.length_singleton] <;> omega
    · simp

theorem faultlessTake {g : Control} {c : FMIClient} {k : Nat} (held : SucceedsSoFar g c)
    (count : c.pending = [] → (finalAnswers c.answered).length = k) : Faultless ((finalAnswers c.answered).take (k-1)) := by
  rcases held.answers with all | ⟨_,idle,xs,t,h,new,a,answered,all⟩
  · exact fun x mem => all x (finalsSubset _ _ (List.mem_of_mem_take mem))
  · have length := count idle
    have inside : Faultless (finalAnswers xs) := fun x mem => all x (finalsSubset _ _ mem)
    rw [answered] at length ⊢
    rcases finalsSnoc (f := Exchange.request) false xs ⟨.doStep t h new,a⟩ with same | more
    · rw [finalAnswers,same]
      exact fun x mem => inside x (List.mem_of_mem_take mem)
    · rw [finalAnswers,more,List.length_append,List.length_singleton] at length
      rw [finalAnswers,more,List.take_left' (by omega)]
      exact inside

theorem failureStops {K : Coupling} {m₀ m : Master} (configured : Master.Configured m₀) (step : 0 < m₀.timeStep)
    (run : Run K .succeeding m₀ m) :
    ((∃ c ∈ m.slaves, ∃ x ∈ c.answered, x.response.failing = true) → ∀ E m', Run K E m m' → m'.time = m.time ∧
      ∀ c' ∈ m'.slaves, ∃ c ∈ m.slaves, c.self = c'.self ∧ c'.requests = c.requests) ∧
    (∀ c ∈ m.slaves, c.isInitialized = true → Initialized c.answered) ∧
    ∀ k : Nat, m.time = k*m.timeStep → ∀ c ∈ m.slaves,
      k-1 ≤ (finalAnswers c.answered).length ∧ Faultless ((finalAnswers c.answered).take (k-1)) := by
  have lock := reachLockstep configured run
  obtain ⟨_,_,held⟩ := reachKeeps configured (succeedsKept K) (freshSucceeds (Master.configuredFresh configured)) run
  refine ⟨?_,fun c mem => (held c mem).initialized,?_⟩
  · rintro ⟨c,mem,x,inside,failing⟩ E m' later
    have last : m.toControl.Last := by
      rcases (held c mem).answers with all | ⟨last,_⟩
      · exact absurd (failing.symm.trans (all x inside)) (by decide)
      · exact last
    obtain ⟨_,stands,old⟩ := lockKeeps lock (lastKept K E m.time m.slaves)
      ⟨(),⟨last,rfl⟩,fun d inside => ⟨d,inside,rfl,rfl⟩⟩ later
    exact ⟨stands.2,old⟩
  · intro k time c mem
    obtain ⟨n,scheduled⟩ := reachScheduled configured run
    have same : m.timeStep = m₀.timeStep := by rw [scheduled.clock.kept]
    have count : k = m.toControl.elapsed n := by
      have both := time.symm.trans scheduled.clock.time
      rw [same] at both
      exact_mod_cast mul_right_cancel₀ step.ne' both
    obtain ⟨enough,exact_⟩ := finalsAnswered (inPhasePending (lock.phases c mem)).1 (scheduled.sent c mem)
    rw [count]
    exact ⟨enough,faultlessTake (held c mem) exact_⟩

theorem failureStopsPair :
    let m := Master.pair.after .perConstraint
      (Event.startup ++ Event.both (.initializeSlave .ok) ++ [.response 1 (.doStep .error)])
    (∃ c ∈ m.slaves, ∃ x ∈ c.answered, x.response.failing = true) ∧ ∀ E m', Run .perConstraint E m m' →
      m'.time = m.time ∧ ∀ c' ∈ m'.slaves, ∃ c ∈ m.slaves, c.self = c'.self ∧ c'.requests = c.requests := by
  intro m
  have failed : ∃ c ∈ m.slaves, ∃ x ∈ c.answered, x.response.failing = true := by decide +kernel
  have run : Run .perConstraint .succeeding .pair m := Master.afterPermitted (by decide +kernel) (by decide +kernel)
  exact ⟨failed,(failureStops Master.pairConfigured (by decide) run).1 failed⟩

/- Slave 1 answers initialize with an error. It counts as initialized, and as soon as slave 2 has
answered both are stepped. -/
theorem failureIgnored :
    (¬ ∀ m, Run .perConstraint .anything .pair m → (∃ c ∈ m.slaves, ∃ x ∈ c.answered, x.response.failing = true) →
      ∀ m', Run .perConstraint .anything m m' → m'.time = m.time) ∧
    ¬ ∀ m, Run .perConstraint .anything .pair m → ∀ c ∈ m.slaves, c.isInitialized = true → Initialized c.answered := by
  have failed := Master.afterRun (K := .perConstraint) (m := .pair)
    (Event.startup ++ [.response 1 (.initializeSlave .error)]) (fun e _ => anythingAlways e) (by decide +kernel)
  constructor
  · intro stops
    have stepped := Master.afterRun (K := .perConstraint) (m := Master.pair.after .perConstraint
      (Event.startup ++ [.response 1 (.initializeSlave .error)])) [.response 2 (.initializeSlave .ok)]
      (fun e _ => anythingAlways e) (by decide +kernel)
    exact absurd (stops _ failed (by decide +kernel) _ stepped) (by decide +kernel)
  · intro initialized
    have erred : ∃ c ∈ (Master.pair.after .perConstraint (Event.startup ++ [.response 1 (.initializeSlave .error)])).slaves,
        c.isInitialized = true ∧ ∀ x ∈ c.answered, ∀ status, status.failing = false →
          x.response ≠ .initializeSlave status := by
      refine ⟨_,List.mem_cons_self,by decide +kernel,fun x mem status => ?_⟩
      revert x
      cases status <;> decide +kernel
    obtain ⟨c,mem,now,none⟩ := erred
    obtain ⟨x,inside,status,same,success⟩ := initialized _ failed c mem now
    exact none x inside status success same

end FmiTcpMaster
