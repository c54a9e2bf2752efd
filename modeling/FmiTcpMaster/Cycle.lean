import FmiTcpMaster.Reach
import Mathlib.Tactic.Ring

/-! The simulation cycle, as the header comment of MasterState documents it for one slave, and
the run of the master as a walk along it: every slave has been sent a prefix of the cycle. -/
namespace FmiTcpMaster

structure Cycle where
  strong : Prop
  weak : Prop
  timeStep : ℚ
  initialization : Request

def Control.cycle (g : Control) : Cycle where
  strong := g.strongConnections ≠ []
  weak := g.weakConnections ≠ []
  timeStep := g.timeStep
  initialization := .initializeSlave true g.relativeTolerance g.startTime g.endTimeDefined g.endTime

namespace Cycle

def startup (C : Cycle) : List Request := [.getXml,.instantiate,C.initialization]

def strongRequests (C : Cycle) (refs : List Int) (t : ℚ) (ds : List DerivativeRequest) : List Request :=
  [.getFmuState,.doStep t C.timeStep true,.getReal refs,.setFmuState 0,.getReal refs] ++
    ds.map .getDirectionalDerivative ++ [.setReal [] []]

def weakRequests : List Request := [.getReal [],.setReal [] []]

inductive StrongPart (C : Cycle) (refs : List Int) (t : ℚ) : List Request → Prop where
  | absent (none : ¬ C.strong) : StrongPart C refs t []
  | present (some : C.strong) (ds : List DerivativeRequest) : StrongPart C refs t (C.strongRequests refs t ds)

inductive WeakPart (C : Cycle) : List Request → Prop where
  | absent (none : ¬ C.weak) : WeakPart C []
  | present (some : C.weak) : WeakPart C weakRequests

inductive Iteration (C : Cycle) (refs : List Int) (t : ℚ) : List Request → Prop where
  | mk {a b} (strong : StrongPart C refs t a) (weak : WeakPart C b) :
      Iteration C refs t (a ++ b ++ [.doStep t C.timeStep true])

inductive Iterations (C : Cycle) (refs : List Int) : Nat → List Request → Prop where
  | none : Iterations C refs 0 []
  | next {n rs it} (before : Iterations C refs n rs) (last : Iteration C refs (n*C.timeStep) it) :
      Iterations C refs (n+1) (rs ++ it)

/- The part of an iteration that has been sent when the master is in the given state. -/
inductive Begun (C : Cycle) (refs : List Int) (t : ℚ) : MasterState → List Request → Prop where
  | save (strong : C.strong) : Begun C refs t .gettingStates [.getFmuState]
  | speculate (strong : C.strong) :
      Begun C refs t .steppingSlavesForFutureVelo [.getFmuState,.doStep t C.timeStep true]
  | future (strong : C.strong) :
      Begun C refs t .gettingFutureVelo [.getFmuState,.doStep t C.timeStep true,.getReal refs]
  | restore (strong : C.strong) :
      Begun C refs t .settingStates [.getFmuState,.doStep t C.timeStep true,.getReal refs,.setFmuState 0]
  | present (strong : C.strong) : Begun C refs t .getStrongConnectorStates
      [.getFmuState,.doStep t C.timeStep true,.getReal refs,.setFmuState 0,.getReal refs]
  | derive (strong : C.strong) (ds : List DerivativeRequest) : Begun C refs t .gettingDirectionalDerivatives
      ([.getFmuState,.doStep t C.timeStep true,.getReal refs,.setFmuState 0,.getReal refs] ++
        ds.map .getDirectionalDerivative)
  | forces (strong : C.strong) (ds : List DerivativeRequest) :
      Begun C refs t .settingStrongCouplingForces (C.strongRequests refs t ds)
  | getWeak {a} (strong : StrongPart C refs t a) (weak : C.weak) : Begun C refs t .getWeakReals (a ++ [.getReal []])
  | setWeak {a} (strong : StrongPart C refs t a) (weak : C.weak) : Begun C refs t .setWeakReals (a ++ weakRequests)
  | step {it} (all : Iteration C refs t it) : Begun C refs t .steppingSlaves it

inductive Sent (C : Cycle) (refs : List Int) : Nat → MasterState → List Request → Prop where
  | connecting : Sent C refs 0 .connectingSlaves []
  | xml : Sent C refs 0 .gettingXml [.getXml]
  | instantiate : Sent C refs 0 .instantiatingSlaves [.getXml,.instantiate]
  | initialization : Sent C refs 0 .initializingSlaves C.startup
  | iterate {k rs s part} (before : Iterations C refs k rs) (begun : Begun C refs (k*C.timeStep) s part) :
      Sent C refs k s (C.startup ++ rs ++ part)
  | ended {k rs} (all : Iterations C refs (k+1) rs) : Sent C refs k .done (C.startup ++ rs)

theorem weakPartExists (C : Cycle) : ∃ b, C.WeakPart b := by
  by_cases weak : C.weak
  · exact ⟨_,.present weak⟩
  · exact ⟨_,.absent weak⟩

theorem strongIteration {C : Cycle} {refs : List Int} {t : ℚ} (strong : C.strong) (ds : List DerivativeRequest) :
    ∃ rest, C.Iteration refs t (C.strongRequests refs t ds ++ rest) := by
  obtain ⟨b,weak⟩ := C.weakPartExists
  refine ⟨b ++ [.doStep t C.timeStep true],?_⟩
  rw [← List.append_assoc]
  exact .mk (.present strong ds) weak

theorem begunPrefix {C : Cycle} {refs : List Int} {t : ℚ} {s : MasterState} {part : List Request}
    (begun : C.Begun refs t s part) : ∃ rest, C.Iteration refs t (part ++ rest) := by
  have strongRest : C.strong → ∀ {part} ds rest, part ++ rest = C.strongRequests refs t ds →
      ∃ rest, C.Iteration refs t (part ++ rest) := by
    intro strong part ds rest split
    obtain ⟨more,it⟩ : ∃ more, C.Iteration refs t (C.strongRequests refs t ds ++ more) := strongIteration strong ds
    exact ⟨rest ++ more,by rw [← List.append_assoc,split]; exact it⟩
  cases begun with
  | save strong => exact strongRest strong [] _ rfl
  | speculate strong => exact strongRest strong [] _ rfl
  | future strong => exact strongRest strong [] _ rfl
  | restore strong => exact strongRest strong [] _ rfl
  | present strong => exact strongRest strong [] _ rfl
  | derive strong ds => exact strongRest strong ds _ rfl
  | forces strong ds => exact strongIteration strong ds
  | @getWeak a strong weak =>
    refine ⟨[.setReal [] [],.doStep t C.timeStep true],?_⟩
    have it := Iteration.mk strong (.present weak)
    simpa [weakRequests] using it
  | @setWeak a strong weak => exact ⟨[.doStep t C.timeStep true],.mk strong (.present weak)⟩
  | step all => exact ⟨[],by simpa using all⟩

theorem sentPrefix {C : Cycle} {refs : List Int} {k : Nat} {s : MasterState} {rs : List Request}
    (sent : C.Sent refs k s rs) : ∃ n all rest, C.Iterations refs n all ∧ rs ++ rest = C.startup ++ all := by
  cases sent with
  | connecting => exact ⟨0,[],C.startup,.none,by simp⟩
  | xml => exact ⟨0,[],[.instantiate,C.initialization],.none,rfl⟩
  | instantiate => exact ⟨0,[],[C.initialization],.none,rfl⟩
  | initialization => exact ⟨0,[],[],.none,rfl⟩
  | @iterate k rs s part before begun =>
    obtain ⟨rest,it⟩ := begunPrefix begun
    exact ⟨k+1,rs ++ (part ++ rest),rest,.next before it,by simp⟩
  | ended all => exact ⟨_,_,[],all,by simp⟩

inductive Item (C : Cycle) (refs : List Int) (t : ℚ) : Request → Prop where
  | save : Item C refs t .getFmuState
  | step : Item C refs t (.doStep t C.timeStep true)
  | read : Item C refs t (.getReal refs)
  | restore : Item C refs t (.setFmuState 0)
  | derive (d : DerivativeRequest) : Item C refs t (.getDirectionalDerivative d)
  | readWeak : Item C refs t (.getReal [])
  | write : Item C refs t (.setReal [] [])

theorem iterationItems {C : Cycle} {refs : List Int} {t : ℚ} {it : List Request} (iteration : C.Iteration refs t it) :
    ∀ r ∈ it, C.Item refs t r := by
  obtain ⟨strong,weak⟩ := iteration
  intro r mem
  rcases List.mem_append.mp mem with earlier | last
  · rcases List.mem_append.mp earlier with inStrong | inWeak
    · cases strong with
      | absent => cases inStrong
      | present _ ds =>
        simp only [strongRequests,List.mem_append,List.mem_cons,List.mem_map,List.not_mem_nil,or_false] at inStrong
        rcases inStrong with ((rfl | rfl | rfl | rfl | rfl) | ⟨d,_,rfl⟩) | rfl
        · exact .save
        · exact .step
        · exact .read
        · exact .restore
        · exact .read
        · exact .derive d
        · exact .write
    · cases weak with
      | absent => cases inWeak
      | present =>
        simp only [weakRequests,List.mem_cons,List.not_mem_nil,or_false] at inWeak
        rcases inWeak with rfl | rfl
        · exact .readWeak
        · exact .write
  · cases List.mem_singleton.mp last
    exact .step

theorem iterationsItems {C : Cycle} {refs : List Int} {n : Nat} {all : List Request} (its : C.Iterations refs n all) :
    ∀ r ∈ all, ∃ j < n, C.Item refs (j*C.timeStep) r := by
  intro r mem
  induction its with
  | none => cases mem
  | @next n rs it _ last ih =>
    rcases List.mem_append.mp mem with earlier | now
    · obtain ⟨j,less,item⟩ := ih earlier
      exact ⟨j,by omega,item⟩
    · exact ⟨n,by omega,iterationItems last r now⟩

theorem sentItems {C : Cycle} {refs : List Int} {k : Nat} {s : MasterState} {rs : List Request}
    (sent : C.Sent refs k s rs) : ∀ r ∈ rs, r ∈ C.startup ∨ ∃ j ≤ k, C.Item refs (j*C.timeStep) r := by
  intro r mem
  cases sent with
  | connecting => cases mem
  | xml => exact Or.inl (by simp [startup] at mem ⊢; exact Or.inl mem)
  | instantiate => exact Or.inl (by simp [startup] at mem ⊢; tauto)
  | initialization => exact Or.inl mem
  | @iterate k all s part before begun =>
    rcases List.mem_append.mp mem with earlier | now
    · rcases List.mem_append.mp earlier with first | inside
      · exact Or.inl first
      · obtain ⟨j,less,item⟩ := iterationsItems before r inside
        exact Or.inr ⟨j,by omega,item⟩
    · obtain ⟨rest,it⟩ := begunPrefix begun
      exact Or.inr ⟨k,by omega,iterationItems it r (List.mem_append_left _ now)⟩
  | ended all =>
    rcases List.mem_append.mp mem with first | inside
    · exact Or.inl first
    · obtain ⟨j,less,item⟩ := iterationsItems all r inside
      exact Or.inr ⟨j,by omega,item⟩

end Cycle

namespace Control

def elapsed (g : Control) (k : Nat) : Nat :=
  if g.state = .steppingSlaves ∨ g.state = .done then k+1 else k

def nextIteration (g : Control) (k : Nat) : Nat :=
  if g.state = .steppingSlaves ∧ g.continues = true then k+1 else k

end Control

structure Clock (g₀ : Control) (k : Nat) (g : Control) : Prop where
  kept : g = {g₀ with state := g.state, time := g.time, exits := g.exits}
  time : g.time = g.elapsed k*g₀.timeStep

theorem clockCycle {g₀ g : Control} {k : Nat} (clock : Clock g₀ k g) : g.cycle = g₀.cycle := by
  rw [clock.kept]
  rfl

theorem clockConstraints {g₀ g : Control} {k : Nat} (clock : Clock g₀ k g) : g.constraints = g₀.constraints := by
  rw [clock.kept]

theorem clockExits {g₀ g : Control} {k : Nat} (clock : Clock g₀ k g) (n : Nat) : Clock g₀ k {g with exits := n} := by
  obtain ⟨kept,time⟩ := clock
  exact ⟨by rw [kept],time⟩

theorem loopHeadCases (g : Control) :
    g.loopHead = .gettingStates ∨ g.loopHead = .getWeakReals ∨ g.loopHead = .steppingSlaves := by
  unfold Control.loopHead
  split
  · exact Or.inl rfl
  · split
    · exact Or.inr (Or.inl rfl)
    · exact Or.inr (Or.inr rfl)

theorem elapsedNext {g : Control} (k : Nat) (resting : g.state.resting = true) :
    g.advance.elapsed (g.nextIteration k) =
      if g.next = .steppingSlaves then g.elapsed k+1 else g.elapsed k := by
  have head := loopHeadCases g
  unfold Control.elapsed Control.nextIteration Control.advance Control.next
  cases at_ : g.state <;> simp only [at_,MasterState.resting,Bool.false_eq_true] at resting <;>
    try simp
  case initializingSlaves => rcases head with h | h | h <;> simp [h]
  case settingStrongCouplingForces => split <;> simp
  case steppingSlaves =>
    cases more : g.continues with
    | true => rcases head with h | h | h <;> simp [h]
    | false => simp

theorem clockAdvance {g₀ g : Control} {k : Nat} (clock : Clock g₀ k g) (resting : g.state.resting = true) :
    Clock g₀ (g.nextIteration k) g.advance := by
  have step : g.timeStep = g₀.timeStep := by rw [clock.kept]
  refine ⟨?_,?_⟩
  · rw [Control.advance,clock.kept]
  · rw [elapsedNext k resting]
    simp only [Control.advance,step,clock.time]
    split
    · push_cast; ring
    · rfl

theorem begunHead {g : Control} {refs : List Int} {c : FMIClient} :
    g.cycle.Begun refs g.time g.loopHead (g.request g.loopHead c).toList := by
  unfold Control.loopHead
  split
  · rename_i strong
    exact .save fun none => strong (by rw [none]; rfl)
  · rename_i noStrong
    have none : ¬ g.cycle.strong := fun some => some (List.eq_nil_of_length_eq_zero (not_not.mp noStrong))
    split
    · rename_i weak
      exact .getWeak (.absent none) fun empty => weak (by rw [empty]; rfl)
    · rename_i noWeak
      exact .step (.mk (.absent none) (.absent fun some => some (List.eq_nil_of_length_eq_zero (not_not.mp noWeak))))

theorem begunEnter {g : Control} {s : MasterState} {part : List Request} {c : FMIClient}
    (begun : g.cycle.Begun c.getStrongConnectorValueReferences g.time s part) (at_ : g.state = s)
    (inside : s ≠ .steppingSlaves) (other : s ≠ .getStrongConnectorStates) :
    g.cycle.Begun c.getStrongConnectorValueReferences g.time g.next (part ++ (g.request g.next c).toList) := by
  cases begun with
  | save strong => simp only [Control.next,at_]; exact .speculate strong
  | speculate strong => simp only [Control.next,at_]; exact .future strong
  | future strong => simp only [Control.next,at_]; exact .restore strong
  | restore strong => simp only [Control.next,at_]; exact .present strong
  | present => exact absurd rfl other
  | derive strong ds => simp only [Control.next,at_]; exact .forces strong ds
  | forces strong ds =>
    simp only [Control.next,at_]
    split
    · rename_i weak
      exact .getWeak (.present strong ds) (List.ne_nil_of_length_pos weak)
    · rename_i noWeak
      have it : g.cycle.Iteration c.getStrongConnectorValueReferences g.time (_ ++ [] ++ _) :=
        .mk (.present strong ds) (.absent fun weak => noWeak (List.length_pos_iff.mpr weak))
      rw [List.append_nil] at it
      exact .step it
  | getWeak strong weak =>
    simp only [Control.next,at_]
    rw [List.append_assoc]
    exact .setWeak strong weak
  | setWeak strong weak => simp only [Control.next,at_]; exact .step (.mk strong (.present weak))
  | step => exact absurd rfl inside

section Entering
variable {g₀ g : Control} {k : Nat} {c : FMIClient} {rs part : List Request}

theorem sentLoop (cycle : g.cycle = g₀.cycle) (before : g₀.cycle.Iterations c.getStrongConnectorValueReferences k rs)
    (now : g.time = k*g₀.timeStep) : g₀.cycle.Sent c.getStrongConnectorValueReferences k g.loopHead
      (g₀.cycle.startup ++ rs ++ (g.request g.loopHead c).toList) := by
  have head : g.cycle.Begun c.getStrongConnectorValueReferences g.time g.loopHead _ := begunHead (c := c)
  rw [cycle,now] at head
  exact .iterate before head

theorem sentLast (cycle : g.cycle = g₀.cycle) (stepping : g.state = .steppingSlaves)
    (all : g₀.cycle.Iterations c.getStrongConnectorValueReferences (k+1) rs) (now : g.time = (k+1 : Nat)*g₀.timeStep) :
    g₀.cycle.Sent c.getStrongConnectorValueReferences (g.nextIteration k) g.next
      (g₀.cycle.startup ++ rs ++ (g.request g.next c).toList) := by
  cases more : g.continues with
  | true =>
    simp only [Control.next,Control.nextIteration,stepping,more,and_self,if_true]
    exact sentLoop cycle all now
  | false =>
    simp only [Control.next,Control.nextIteration,stepping,more,Bool.false_eq_true,and_false,if_false]
    simpa [Control.request] using Cycle.Sent.ended all

theorem sentWithin (cycle : g.cycle = g₀.cycle) (inside : g.state ≠ .steppingSlaves)
    (other : g.state ≠ .getStrongConnectorStates) (now : g.time = k*g₀.timeStep)
    (before : g₀.cycle.Iterations c.getStrongConnectorValueReferences k rs)
    (begun : g₀.cycle.Begun c.getStrongConnectorValueReferences (k*g₀.timeStep) g.state part) :
    g₀.cycle.Sent c.getStrongConnectorValueReferences (g.nextIteration k) g.next
      (g₀.cycle.startup ++ rs ++ part ++ (g.request g.next c).toList) := by
  have same : g.nextIteration k = k := if_neg fun h => inside h.1
  rw [← cycle,← now] at begun
  have next := begunEnter begun rfl inside other
  rw [cycle,now] at next
  rw [same,List.append_assoc]
  exact .iterate before next

theorem sentEnter (clock : Clock g₀ k g) (other : g.state ≠ .getStrongConnectorStates)
    (turning : g.state = .connectingSlaves ∨ g.state.awaited.isSome = true)
    (sent : g₀.cycle.Sent c.getStrongConnectorValueReferences k g.state c.requests) :
    g₀.cycle.Sent c.getStrongConnectorValueReferences (g.nextIteration k) g.next
      (c.requests ++ (g.request g.next c).toList) := by
  have cycle := clockCycle clock
  have time := clock.time
  have initialization : .initializeSlave true g.relativeTolerance g.startTime g.endTimeDefined g.endTime =
    g₀.cycle.initialization := congrArg Cycle.initialization cycle
  generalize at_ : g.state = s at sent
  generalize c.requests = rs at sent
  cases sent with
  | connecting => simp only [Control.next,Control.nextIteration,at_]; exact .xml
  | xml => simp only [Control.next,Control.nextIteration,at_]; exact .instantiate
  | instantiate =>
    simp only [Control.next,Control.nextIteration,at_,Control.request,initialization]
    exact .initialization
  | initialization =>
    simp only [Control.elapsed,at_,reduceCtorEq,or_self,if_false] at time
    simp only [Control.next,Control.nextIteration,at_,reduceCtorEq,false_and,if_false]
    have first := sentLoop (c := c) cycle .none time
    rwa [List.append_nil] at first
  | ended => simp [at_,MasterState.awaited] at turning
  | @iterate k rs s part before begun =>
    by_cases last : s = .steppingSlaves
    · subst last
      simp only [Control.elapsed,at_,true_or,if_true] at time
      cases begun with
      | step it =>
        rw [List.append_assoc _ rs]
        exact sentLast cycle at_ (.next before it) time
    · have notDone : s ≠ .done := by rintro rfl; cases begun
      have now : g.time = k*g₀.timeStep := by
        rw [time,Control.elapsed,at_,if_neg (by rintro (h | h); exacts [last h,notDone h])]
      subst at_
      exact sentWithin cycle last other now before begun

end Entering

theorem updatedReferences (c : FMIClient) (s : MasterState) (a : Response) :
    (c.updatedConnectors s a).flatMap FMIClient.kinematicValueReferences = c.getStrongConnectorValueReferences := by
  have mapped : ∀ f : StrongConnector → StrongConnector, (∀ k, (f k).layout = k.layout) →
      (c.strongConnectors.map f).flatMap FMIClient.kinematicValueReferences =
        c.getStrongConnectorValueReferences := by
    intro f same
    rw [List.flatMap_map]
    exact List.flatMap_congr fun k _ => FMIClient.kinematicLayout (same k)
  unfold FMIClient.updatedConnectors
  split
  · exact mapped _ fun k => k.layoutAssign _
  · exact mapped _ fun k => k.layoutAssignFuture _
  · rfl

theorem absorbedReferences {s : MasterState} {r : Request} {a : Response} {c c' : FMIClient}
    (absorbed : Absorbed s r a c c') :
    c'.getStrongConnectorValueReferences = c.getStrongConnectorValueReferences := by
  rw [FMIClient.getStrongConnectorValueReferences,absorbed.connectors]
  exact updatedReferences c s a

theorem absorbedRequests {s : MasterState} {r : Request} {a : Response} {c c' : FMIClient}
    (pending : c.pending = [r]) (absorbed : Absorbed s r a c c') : c'.requests = c.requests ++ c'.pending := by
  rw [FMIClient.requests,FMIClient.requests,absorbed.answered,pending]
  simp

theorem requestWaits {g : Control} {s : MasterState} {c : FMIClient} {r : Request} (request : g.request s c = some r) :
    ∃ w, s.waiting = some w := by
  cases s <;> simp only [Control.request,reduceCtorEq] at request <;> exact ⟨_,rfl⟩

theorem enterRequests (g : Control) (c : FMIClient) :
    (g.enter c).requests = c.requests ++ (g.request g.next c).toList := by
  unfold Control.enter
  cases request : g.request g.next c with
  | none => simp
  | some r =>
    obtain ⟨w,waiting⟩ := requestWaits request
    simp [waiting,FMIClient.send,FMIClient.requests]

theorem deriveRequests (K : Coupling) (eqs : List Equation) (c : FMIClient) :
    ∃ ds : List DerivativeRequest, (K.derive eqs c).requests = c.requests ++ ds.map .getDirectionalDerivative := by
  rcases List.eq_nil_or_concat' (K.pushed eqs c.self) with none | ⟨q,d,some⟩
  · exact ⟨[],by rw [deriveNone none]; simp [FMIClient.requests]⟩
  · exact ⟨[d],by rw [deriveSome some]; simp [FMIClient.requests,FMIClient.send,FMIClient.withQueue]⟩

theorem enteredReferences (K : Coupling) (g : Control) (ps : List FMIClient) (c : FMIClient) :
    (entered K g ps c).getStrongConnectorValueReferences = c.getStrongConnectorValueReferences :=
  congrArg (List.flatMap FMIClient.kinematicValueReferences) (enteredKept K g ps c).connectors

theorem sentMore {C : Cycle} {refs : List Int} {k : Nat} {rs : List Request} (ds : List DerivativeRequest)
    (sent : C.Sent refs k .gettingDirectionalDerivatives rs) :
    C.Sent refs k .gettingDirectionalDerivatives (rs ++ ds.map .getDirectionalDerivative) := by
  cases sent with
  | iterate before begun =>
    cases begun with
    | derive strong es =>
      have more : C.Begun refs (k*C.timeStep) _ _ := .derive strong (es ++ ds)
      rw [List.map_append,← List.append_assoc] at more
      have all := Cycle.Sent.iterate before more
      rwa [← List.append_assoc] at all

theorem sentDerive {C : Cycle} {refs : List Int} {k : Nat} {rs : List Request}
    (sent : C.Sent refs k .getStrongConnectorStates rs) : C.Sent refs k .gettingDirectionalDerivatives rs := by
  cases sent with
  | iterate before begun =>
    cases begun with
    | present strong => exact .iterate before (.derive strong [])

theorem sentMove {E : Environment} {C : Cycle} {g : Control} {k : Nat} {c c' : FMIClient} (phase : InPhase g.state c)
    (moved : moves E g c c') (sent : C.Sent c.getStrongConnectorValueReferences k g.state c.requests) :
    C.Sent c'.getStrongConnectorValueReferences k g.state c'.requests := by
  rcases moveCases phase moved with ⟨_,rfl⟩ | ⟨r,a,reply⟩
  · exact sent
  · rw [absorbedReferences reply.absorbed,absorbedRequests reply.pending reply.absorbed]
    rcases reply.absorbed.rest with ⟨_,pending,_⟩ | ⟨derivative,_,d,_,pending,_⟩
    · rwa [pending,List.append_nil]
    · rw [pending]
      rw [derivative] at sent ⊢
      exact sentMore [d] sent

theorem sentEntered {K : Coupling} {g₀ g : Control} {ps : List FMIClient} {k : Nat} {c : FMIClient}
    (clock : Clock g₀ k g) (turning : g.state = .connectingSlaves ∨ g.state.awaited.isSome = true)
    (sent : g₀.cycle.Sent c.getStrongConnectorValueReferences k g.state c.requests) :
    g₀.cycle.Sent (entered K g ps c).getStrongConnectorValueReferences (g.nextIteration k) g.next
      (entered K g ps c).requests := by
  rw [enteredReferences]
  unfold entered
  split
  · rename_i strong
    obtain ⟨ds,requests⟩ := deriveRequests K (Master.equations K ⟨g,ps⟩) c
    rw [requests]
    simp only [Control.next,Control.nextIteration,strong,reduceCtorEq,false_and,if_false] at sent ⊢
    exact sentMore ds (sentDerive sent)
  · rename_i other
    rw [enterRequests]
    exact sentEnter clock other turning sent

theorem scheduleKept (K : Coupling) (E : Environment) (g₀ : Control) :
    Rounds.KeepsUnder (rounds K E) (fun g => g.state.resting = true) (fun g c => InPhase g.state c) (Clock g₀)
      fun k g c => g₀.cycle.Sent c.getStrongConnectorValueReferences k g.state c.requests where
  move _ phase _ _ sent moved := sentMove phase moved sent
  turn := by
    intro k g ps g' ps' resting phases clock sent all turned
    exact turnHolds (g.nextIteration k) phases all turned (clockAdvance clock resting) fun c mem =>
      sentEntered clock turned.1 (sent c mem)
  disturb := by
    intro k g ps g' ps' _ _ clock sent disturbed
    exact disturbHolds k disturbed (clockExits clock) fun _ => sent

structure Scheduled (g₀ : Control) (k : Nat) (g : Control) (ps : List FMIClient) : Prop where
  clock : Clock g₀ k g
  sent : ∀ c ∈ ps, g₀.cycle.Sent c.getStrongConnectorValueReferences k g.state c.requests

theorem freshClock {m₀ : Master} (fresh : m₀.Fresh) : Clock m₀.toControl 0 m₀.toControl :=
  ⟨rfl,by simp [fresh.time,Control.elapsed,fresh.state]⟩

theorem freshSent {m₀ : Master} (fresh : m₀.Fresh) (c : FMIClient) (mem : c ∈ m₀.slaves) :
    m₀.toControl.cycle.Sent c.getStrongConnectorValueReferences 0 m₀.state c.requests := by
  have client := fresh.clients c mem
  have none : c.requests = [] := by simp [FMIClient.requests,client.answered,client.pending]
  rw [fresh.state,none]
  exact .connecting

theorem freshSchedule {m₀ : Master} (fresh : m₀.Fresh) : Rounds.Holds (Clock m₀.toControl)
    (fun k g c => m₀.toControl.cycle.Sent c.getStrongConnectorValueReferences k g.state c.requests) m₀.parts :=
  ⟨0,freshClock fresh,freshSent fresh⟩

theorem reachScheduled {K : Coupling} {E : Environment} {m₀ m : Master} (configured : Master.Configured m₀)
    (run : Run K E m₀ m) : ∃ k, Scheduled m₀.toControl k m.toControl m.slaves := by
  obtain ⟨k,clock,sent⟩ := reachKeeps configured (scheduleKept K E m₀.toControl)
    (freshSchedule (Master.configuredFresh configured)) run
  exact ⟨k,clock,sent⟩

theorem tickedScheduled {K : Coupling} {E : Environment} {m₀ m : Master} (configured : Master.Configured m₀)
    (ticked : Master.Ticked K E m₀ m) : ∃ k, Scheduled m₀.toControl k m.toControl m.slaves := by
  obtain ⟨k,clock,sent⟩ := tickedKeeps configured (scheduleKept K E m₀.toControl)
    (freshSchedule (Master.configuredFresh configured)) ticked
  exact ⟨k,clock,sent⟩

/- Each slave has been sent a prefix of the startup requests and some number of iterations. The
k-th iteration, for all slaves alike, is at time k*h. -/
theorem documentedCycle {K : Coupling} {E : Environment} {m₀ m : Master} (configured : Master.Configured m₀)
    (run : Run K E m₀ m) : ∀ c ∈ m.slaves, ∃ n all rest,
      m₀.toControl.cycle.Iterations c.getStrongConnectorValueReferences n all ∧
      c.requests ++ rest = m₀.toControl.cycle.startup ++ all := by
  obtain ⟨k,scheduled⟩ := reachScheduled configured run
  exact fun c mem => Cycle.sentPrefix (scheduled.sent c mem)

theorem documentedCycleCoupled :
    let m := Master.coupled.after (.source fun _ => [.between 1 2 1]) [.connect 2,.connect 1,.response 2 .getXml,
      .response 1 .getXml,.response 1 (.instantiate .success),.response 2 (.instantiate .success),
      .response 2 (.initializeSlave .ok),.response 1 (.initializeSlave .ok),.response 1 (.getFmuState 0 .ok)]
    m.state = .gettingStates ∧ ∀ c ∈ m.slaves, ∃ n all rest,
      Master.coupled.toControl.cycle.Iterations c.getStrongConnectorValueReferences n all ∧
      c.requests ++ rest = Master.coupled.toControl.cycle.startup ++ all :=
  ⟨rfl,documentedCycle Master.coupledConfigured (Master.afterRun _ (fun e _ => anythingAlways e) rfl)⟩

end FmiTcpMaster
