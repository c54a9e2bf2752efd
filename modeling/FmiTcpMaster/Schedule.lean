import FmiTcpMaster.Progress
import Mathlib.Data.Rat.Floor
import Mathlib.Tactic.Linarith
import Mathlib.Tactic.FieldSimp

/-! How many steps are taken, and when the run ends. Time advances when a final step is sent
and is compared with the end time once every slave has answered it. -/
namespace FmiTcpMaster

/- The do_step requests that are not taken back: those outside get_fmu_state .. set_fmu_state. -/
def finals {α : Type} (request : α → Request) : Bool → List α → List α
  | _, [] => []
  | saved, x :: xs =>
    match request x with
    | .getFmuState => finals request true xs
    | .setFmuState _ => finals request false xs
    | .doStep .. => if saved then finals request saved xs else x :: finals request saved xs
    | _ => finals request saved xs

def finalSteps (rs : List Request) : List Request := finals id false rs

namespace Cycle

theorem finalsDerivatives (ds : List DerivativeRequest) (b : Bool) (rs : List Request) :
    finals id b (ds.map .getDirectionalDerivative ++ rs) = finals id b rs := by
  induction ds with
  | nil => rfl
  | cons d ds ih => exact ih

theorem finalsWeak {C : Cycle} {b : List Request} (weak : C.WeakPart b) (rs : List Request) :
    finalSteps (b ++ rs) = finalSteps rs := by
  cases weak <;> rfl

theorem finalsStrong {C : Cycle} {refs : List Int} {t : ℚ} {a : List Request} (strong : C.StrongPart refs t a)
    (rs : List Request) : finalSteps (a ++ rs) = finalSteps rs := by
  cases strong with
  | absent => rfl
  | present _ ds =>
    rw [strongRequests,List.append_assoc,List.append_assoc]
    exact finalsDerivatives ds false ([.setReal [] []] ++ rs)

theorem finalsIteration {C : Cycle} {refs : List Int} {t : ℚ} {it : List Request} (iteration : C.Iteration refs t it)
    (rs : List Request) : finalSteps (it ++ rs) = .doStep t C.timeStep true :: finalSteps rs := by
  obtain ⟨strong,weak⟩ := iteration
  rw [List.append_assoc,List.append_assoc,finalsStrong strong,finalsWeak weak]
  rfl

theorem finalsIterations {C : Cycle} {refs : List Int} {n : Nat} {all : List Request} (its : C.Iterations refs n all)
    (rs : List Request) :
    finalSteps (all ++ rs) = (List.range n).map (fun k => .doStep (k*C.timeStep) C.timeStep true) ++ finalSteps rs := by
  induction its generalizing rs with
  | none => rfl
  | next _ last ih =>
    rw [List.append_assoc,ih,finalsIteration last,List.range_succ]
    simp

end Cycle

theorem finalsStartup (g : Control) (rs : List Request) : finalSteps (g.cycle.startup ++ rs) = finalSteps rs := rfl

theorem finalsAll {g : Control} {refs : List Int} {n : Nat} {all : List Request} (its : g.cycle.Iterations refs n all) :
    finalSteps (g.cycle.startup ++ all) = (List.range n).map fun k => .doStep (k*g.timeStep) g.timeStep true := by
  have counted := Cycle.finalsIterations its []
  rw [List.append_nil] at counted
  rw [finalsStartup,counted]
  exact List.append_nil _

theorem finalsBegun {C : Cycle} {refs : List Int} {t : ℚ} {s : MasterState} {part : List Request}
    (begun : C.Begun refs t s part) : (finalSteps part).length = if s = .steppingSlaves ∨ s = .done then 1 else 0 := by
  have derivatives : ∀ ds : List DerivativeRequest, ∀ rs, finalSteps rs = [] → finalSteps ([.getFmuState,
      .doStep t C.timeStep true,.getReal refs,.setFmuState 0,.getReal refs] ++ ds.map .getDirectionalDerivative ++ rs) =
      [] := by
    intro ds rs none
    rw [List.append_assoc]
    exact (Cycle.finalsDerivatives ds false rs).trans none
  cases begun with
  | derive _ ds =>
    have none := derivatives ds [] rfl
    rw [List.append_nil] at none
    rw [none]; rfl
  | forces _ ds => rw [Cycle.strongRequests,derivatives ds _ rfl]; rfl
  | getWeak strong => rw [Cycle.finalsStrong strong]; rfl
  | setWeak strong => rw [Cycle.finalsStrong strong]; rfl
  | step it =>
    have one := Cycle.finalsIteration it []
    rw [List.append_nil] at one
    rw [one]; rfl
  | _ => rfl

theorem finalsSent {g : Control} {refs : List Int} {n : Nat} {s : MasterState} {rs : List Request}
    (sent : g.cycle.Sent refs n s rs) :
    (finalSteps rs).length = if s = .steppingSlaves ∨ s = .done then n+1 else n := by
  cases sent with
  | @iterate n all s part before begun =>
    rw [List.append_assoc,finalsStartup,Cycle.finalsIterations before,List.length_append,finalsBegun begun]
    split <;> simp
  | ended all =>
    rw [finalsAll all]
    simp
  | _ => rfl

structure Bounds (g : Control) : Prop where
  positive : 0 < g.timeStep
  enabled : g.endTimeDefined = true
  before : g.state ≠ .steppingSlaves → g.state ≠ .done → g.time < g.endTime
  last : g.state = .steppingSlaves ∨ g.state = .done → g.time-g.timeStep < g.endTime
  ended : g.state = .done → g.endTime ≤ g.time
  exits : g.exits = if g.state = .done then 1 else 0

theorem nextDone {g : Control} (turning : g.state = .connectingSlaves ∨ g.state.awaited.isSome = true)
    (done : g.next = .done) : g.state = .steppingSlaves ∧ g.continues = false := by
  have head := loopHeadCases g
  unfold Control.next at done
  cases at_ : g.state <;> simp only [at_,reduceCtorEq,MasterState.awaited,Option.isSome_none,Bool.false_eq_true,
    or_self] at done turning
  case initializingSlaves => rcases head with h | h | h <;> simp [h] at done
  case settingStrongCouplingForces => split at done <;> contradiction
  case steppingSlaves =>
    refine ⟨rfl,?_⟩
    cases more : g.continues with
    | false => rfl
    | true => rcases head with h | h | h <;> simp [h,more] at done

theorem stillBefore {g : Control} (bounds : Bounds g)
    (turning : g.state = .connectingSlaves ∨ g.state.awaited.isSome = true) (running : g.next ≠ .done) :
    g.time < g.endTime := by
  by_cases stepping : g.state = .steppingSlaves
  · have more : g.continues = true := by
      by_contra stop
      exact running (by rw [Control.next,stepping]; exact if_neg stop)
    simpa [Control.continues,bounds.enabled] using more
  · refine bounds.before stepping ?_
    intro done
    simp [done,MasterState.awaited] at turning

theorem boundsAdvance {g : Control} (bounds : Bounds g)
    (turning : g.state = .connectingSlaves ∨ g.state.awaited.isSome = true) : Bounds g.advance := by
  have alive : g.state ≠ .done := fun done => by simp [done,MasterState.awaited] at turning
  have exits : g.exits = 0 := by rw [bounds.exits,if_neg alive]
  refine ⟨bounds.positive,bounds.enabled,?_,?_,?_,?_⟩
  · intro notStep running
    simp only [Control.advance,if_neg (show ¬ g.next = .steppingSlaves from notStep)]
    exact stillBefore bounds turning running
  · rintro (step | done)
    · have now := stillBefore bounds turning (by rw [show g.next = .steppingSlaves from step]; decide)
      simp only [Control.advance,if_pos (show g.next = .steppingSlaves from step)]
      linarith
    · obtain ⟨stepping,_⟩ := nextDone turning done
      simp only [Control.advance,show g.next = .done from done,reduceCtorEq,if_false]
      exact bounds.last (Or.inl stepping)
  · intro done
    obtain ⟨_,stop⟩ := nextDone turning done
    simp only [Control.advance,show g.next = .done from done,reduceCtorEq,if_false]
    simpa [Control.continues,bounds.enabled] using stop
  · simp only [Control.advance,exits]

theorem lastingCalm (K : Coupling) (answers) : Rounds.Calm (rounds K (.lasting answers)) := by
  rintro g ps g' ps' (⟨allowed⟩ | ⟨_,allowed⟩) <;> exact allowed

theorem boundsKept (K : Coupling) (answers) :
    Rounds.KeepsUnder (rounds K (.lasting answers)) (fun g => g.state.resting = true) (fun g c => InPhase g.state c)
      (fun _ : Unit => Bounds) fun _ _ _ => True where
  move _ _ _ _ _ _ := trivial
  turn := by
    intro _ g ps g' ps' _ phases bounds _ all turned
    exact turnHolds () phases all turned (boundsAdvance bounds turned.1) fun _ _ => trivial
  disturb _ _ _ _ disturbed := absurd disturbed (lastingCalm K answers _ _ _ _)

theorem unlimitedKept (K : Coupling) (E : Environment) :
    Rounds.KeepsUnder (rounds K E) (fun g => g.state.resting = true) (fun g c => InPhase g.state c)
      (fun _ : Unit => fun g => g.endTimeDefined = false ∧ g.state ≠ .done) fun _ _ _ => True where
  move _ _ _ _ _ _ := trivial
  turn := by
    intro _ g ps g' ps' _ phases unlimited _ all turned
    refine turnHolds () phases all turned ⟨unlimited.1,fun done => ?_⟩ fun _ _ => trivial
    have stop := (nextDone turned.1 done).2
    simp [Control.continues,unlimited.1] at stop
  disturb := by
    intro _ g ps g' ps' _ _ unlimited _ disturbed
    exact disturbHolds () disturbed (fun _ => unlimited) fun _ _ _ => trivial

def MasterState.position : MasterState → Nat
  | .connectingSlaves => 19
  | .gettingXml => 18
  | .instantiatingSlaves => 17
  | .initializingSlaves => 16
  | .steppingSlaves => 15
  | .gettingStates => 14
  | .steppingSlavesForFutureVelo => 13
  | .gettingFutureVelo => 12
  | .settingStates => 11
  | .getStrongConnectorStates => 10
  | .gettingDirectionalDerivatives => 9
  | .settingStrongCouplingForces => 8
  | .getWeakReals => 7
  | .setWeakReals => 6
  | .start | .startSimloop | .gettingVersion | .transferringWeak | .done => 0

theorem positionNext {g : Control} (turning : g.state = .connectingSlaves ∨ g.state.awaited.isSome = true)
    (same : g.next ≠ .steppingSlaves) : g.next.position < g.state.position := by
  have head := loopHeadCases g
  unfold Control.next at same ⊢
  cases at_ : g.state <;> simp only [at_,MasterState.awaited,Option.isSome_none,Bool.false_eq_true,reduceCtorEq,
    or_self] at same turning ⊢ <;> try (simp only [MasterState.position]; omega)
  case initializingSlaves => rcases head with h | h | h <;> simp [h,MasterState.position] at same ⊢
  case settingStrongCouplingForces => split <;> simp_all [MasterState.position]
  case steppingSlaves => split <;> rcases head with h | h | h <;> simp_all [MasterState.position]
  case setWeakReals => exact absurd rfl same

def Control.rank (g : Control) : Nat := 20*⌈(g.endTime-g.time)/g.timeStep⌉₊+g.state.position

theorem rankAdvance {g : Control} (bounds : Bounds g)
    (turning : g.state = .connectingSlaves ∨ g.state.awaited.isSome = true) : g.advance.rank < g.rank := by
  by_cases step : g.next = .steppingSlaves
  · have now := stillBefore bounds turning (by rw [step]; decide)
    have left : 0 < (g.endTime-g.time)/g.timeStep := div_pos (by linarith) bounds.positive
    have nonzero := bounds.positive.ne'
    have one : (g.endTime-(g.time+g.timeStep))/g.timeStep = (g.endTime-g.time)/g.timeStep-1 := by
      field_simp
      ring
    have some : 0 < ⌈(g.endTime-g.time)/g.timeStep⌉₊ := Nat.ceil_pos.mpr left
    simp only [Control.rank,Control.advance,step,if_true,one,Nat.ceil_sub_one,MasterState.position]
    omega
  · have less := positionNext turning step
    simp only [Control.rank,Control.advance,if_neg step]
    omega

def workLeft (g : Control) (c : FMIClient) : Nat :=
  if g.state = .connectingSlaves then (if c.connected then 0 else 1) else c.pending.length+c.ddVRefs.length

theorem workMove {E : Environment} {g : Control} {c c' : FMIClient} (phase : InPhase g.state c)
    (moved : moves E g c c') : workLeft g c' < workLeft g c := by
  rcases moveCases phase moved with ⟨connecting,rfl⟩ | ⟨r,a,reply⟩
  · have down : c.connected = false := by simpa [Control.finished,connecting] using moved.1
    simp [workLeft,connecting,down]
  · simp only [workLeft,if_neg reply.begun,reply.pending]
    rcases reply.absorbed.rest with ⟨_,pending,_,queue⟩ | ⟨_,q,d,before,pending,_,queue⟩
    · simp [pending,queue.vRefs]
    · simp [pending,queue.vRefs,before.vRefs]

theorem roundsTerminate {K : Coupling} {answers} {m : Master} (lock : m.Lockstep) (bounds : Bounds m.toControl) :
    Acc (fun y x => Rounds.Step (rounds K (.lasting answers)) x y) m.parts := by
  refine Rounds.terminates (Rounds.keepsBoth (lockstepKept K _) (boundsKept K answers)) (lastingCalm K answers)
    Control.rank workLeft (fun _ parties moved => workMove parties.1 moved) ?_
    ⟨(),⟨lock.resting,bounds⟩,fun c mem => ⟨lock.phases c mem,trivial⟩⟩
  intro _ g ps g' ps' control parties all turned
  obtain ⟨rfl,_,_⟩ := turnSource (fun c mem => (parties c mem).1) all turned
  exact rankAdvance control.2 turned.1

theorem stepsTerminate {K : Coupling} {E : Environment} {m : Master} (lock : m.Lockstep)
    (rounds : Acc (fun y x => Rounds.Step (rounds K E) x y) m.parts) :
    Acc (fun m' m => ∃ e, Step K E m e m') m := by
  generalize here : m.parts = x at rounds
  induction rounds generalizing m with
  | intro x _ ih =>
    subst here
    exact Acc.intro m fun m' ⟨e,step⟩ => ih _ (stepRounds lock step) (stepLockstep lock step) rfl

theorem lastingAddresses {K : Coupling} {answers} {m₀ m : Master} (configured : Master.Configured m₀)
    (run : Run K (.lasting answers) m₀ m) : m.addresses = m₀.addresses := by
  induction run with
  | refl => rfl
  | @tail m m' run step ih =>
    obtain ⟨e,step⟩ := step
    have lock := reachLockstep configured run
    refine Eq.trans ?_ ih
    rcases roundsAddresses lock.resting lock.phases (stepRounds lock step) with same | disturbed
    · exact same
    · exact absurd disturbed (lastingCalm K answers _ _ _ _)

theorem stuckOver {K : Coupling} {m : Master} (lock : m.Lockstep) (nonempty : m.slaves ≠ [])
    (exits : m.state ≠ .done → m.exits = 0) (opened : ¬ m.toControl.Blocked m.slaves)
    (within : m.state = .getStrongConnectorStates → ∀ m', m'.addresses = m.addresses →
      m'.constraints = m.constraints → Equation.within (K.getEquations m') m.addresses)
    (stuck : ∀ e m', ¬ Step K .reliable m e m') : m.state = .done := by
  by_contra running
  apply opened
  refine ⟨nonempty,running,exits running,fun c mem => ?_⟩
  by_contra waiting
  have go : ∀ e : Event, m.possible e = true → Environment.reliable.Allows m e → False := by
    intro e possible allows
    obtain ⟨m',ok⟩ := handled lock possible within
    exact stuck e m' (Master.possibleStep possible allows ok)
  rcases (unfinishedOwes (lock.phases c mem) running).mp waiting with down | owes
  · exact go (.connect c.self) (by simpa [Master.possible] using ⟨c,mem,rfl,down⟩) trivial
  · obtain ⟨r,rest,oldest⟩ := List.exists_cons_of_ne_nil owes
    obtain ⟨a,fits⟩ := everyRequestHasAnswer r
    exact go (.response c.self a) (by simpa [Master.possible] using ⟨c,mem,rfl,by simp [oldest,fits]⟩)
      fun _ _ _ _ _ _ => trivial

theorem reachBounds {K : Coupling} {answers} {m₀ m : Master} (configured : Master.Configured m₀)
    (step : 0 < m₀.timeStep) (enabled : m₀.endTimeDefined = true) (end_ : 0 < m₀.endTime)
    (run : Run K (.lasting answers) m₀ m) : Bounds m.toControl := by
  have fresh := Master.configuredFresh configured
  have bounds : Bounds m₀.toControl := by
    refine ⟨step,enabled,fun _ _ => by rw [fresh.time]; exact end_,?_,?_,?_⟩
    · simp [fresh.state]
    · simp [fresh.state]
    · simp [fresh.state,fresh.exits]
  obtain ⟨_,kept,_⟩ := reachKeeps configured (boundsKept K answers) ⟨(),bounds,fun _ _ => trivial⟩ run
  exact kept

theorem reachUnlimited {K : Coupling} {E : Environment} {m₀ m : Master} (configured : Master.Configured m₀)
    (unlimited : m₀.endTimeDefined = false) (run : Run K E m₀ m) : m.state ≠ .done := by
  have begun : m₀.state ≠ .done := by rw [(Master.configuredFresh configured).state]; decide
  obtain ⟨_,kept,_⟩ := reachKeeps configured (unlimitedKept K E) ⟨(),⟨unlimited,begun⟩,fun _ _ => trivial⟩ run
  exact kept.2

theorem iterationsOver {g₀ g : Control} {k : Nat} (clock : Clock g₀ k g) (bounds : Bounds g) (ended : g.state = .done) :
    k+1 = ⌈g₀.endTime/g₀.timeStep⌉₊ := by
  have time := clock.time
  have late := bounds.ended ended
  have early := bounds.last (Or.inr ended)
  have positive := bounds.positive
  have sameStep : g.timeStep = g₀.timeStep := by rw [clock.kept]
  have sameEnd : g.endTime = g₀.endTime := by rw [clock.kept]
  rw [sameStep] at early positive
  rw [sameEnd] at late early
  rw [Control.elapsed,if_pos (Or.inr ended)] at time
  refine ((Nat.ceil_eq_iff k.succ_ne_zero).mpr ⟨?_,?_⟩).symm
  · rw [lt_div_iff₀ positive,Nat.succ_eq_add_one,Nat.add_sub_cancel]
    push_cast at time
    linarith
  · rw [div_le_iff₀ positive]
    linarith

theorem overWithin {K : Coupling} {E : Environment} {m₀ m : Master} (configured : Master.Configured m₀)
    (solver : K.Over m₀.addresses) (run : Run K E m₀ m) (addresses : m.addresses = m₀.addresses)
    (nonempty : m.slaves ≠ []) (strong : m.state = .getStrongConnectorStates) (m' : Master)
    (same : m'.addresses = m.addresses) (constraints : m'.constraints = m.constraints) :
    Equation.within (K.getEquations m') m.addresses := by
  have fresh := Master.configuredFresh configured
  obtain ⟨k,scheduled⟩ := reachScheduled configured run
  obtain ⟨c,mem⟩ := List.exists_mem_of_ne_nil _ nonempty
  have sent := scheduled.sent c mem
  rw [strong] at sent
  have kept : m'.constraints = m₀.constraints :=
    constraints.trans (clockConstraints scheduled.clock)
  have ends : m'.strongEnds = m₀.strongEnds := by rw [Master.strongEnds,Master.strongEnds,kept]
  rw [addresses] at same ⊢
  exact solver m' same (kept ▸ freshSolver fresh (sentStrong sent)) (ends ▸ fresh.strong)

theorem stuckDone {K : Coupling} {m₀ m : Master} (configured : Master.Configured m₀) (nonempty : m₀.slaves ≠ [])
    (couples : K.Couples) (solver : K.Over m₀.addresses) (run : Run K .reliable m₀ m) (bounds : Bounds m.toControl)
    (stuck : ∀ e m', ¬ Step K .reliable m e m') : m.state = .done := by
  have addresses := lastingAddresses configured run
  have slaves : m.slaves ≠ [] := by
    intro none
    rw [Master.addresses,none] at addresses
    exact nonempty (List.map_eq_nil_iff.mp addresses.symm)
  have opened := runOpens configured couples (fun _ _ _ _ disturbed =>
    absurd disturbed (lastingCalm K _ _ _ _ _)) run
  exact stuckOver (reachLockstep configured run) slaves (fun running => by rw [bounds.exits,if_neg running]) opened
    (overWithin configured solver run addresses slaves) stuck

theorem doneIdle {c : FMIClient} (phase : InPhase .done c) : c.pending = [] := by
  cases phase with
  | asked _ asks => simp [MasterState.asks] at asks
  | finished _ pending => exact pending
  | ended _ pending => exact pending

theorem finalsDone {g : Control} {refs : List Int} {k : Nat} {rs : List Request} (sent : g.cycle.Sent refs k .done rs) :
    finalSteps rs = (List.range (k+1)).map fun k => .doStep (k*g.timeStep) g.timeStep true := by
  cases sent with
  | ended all => exact finalsAll all
  | iterate _ begun => cases begun

theorem stepSchedule {K : Coupling} {m₀ : Master} (configured : Master.Configured m₀) (nonempty : m₀.slaves ≠ [])
    (couples : K.Couples) (solver : K.Over m₀.addresses) :
    (m₀.endTimeDefined = true → 0 < m₀.timeStep → 0 < m₀.endTime →
      (¬ ∃ run : Nat → Master, run 0 = m₀ ∧ ∀ n, ∃ e, Step K .reliable (run n) e (run (n+1))) ∧
      ∀ m, Run K .reliable m₀ m → (∀ e m', ¬ Step K .reliable m e m') →
        m.state = .done ∧ m.exits = 1 ∧ m.addresses = m₀.addresses ∧ m.time = ⌈m₀.endTime/m₀.timeStep⌉₊*m₀.timeStep ∧
        ∀ c ∈ m.slaves, c.pending = [] ∧ finalSteps c.requests =
          (List.range ⌈m₀.endTime/m₀.timeStep⌉₊).map fun k => .doStep (k*m₀.timeStep) m₀.timeStep true) ∧
    (m₀.endTimeDefined = false → ∀ E m, Run K E m₀ m → m.state ≠ .done) := by
  refine ⟨fun enabled step end_ => ⟨?_,?_⟩,fun unlimited E m run => reachUnlimited configured unlimited run⟩
  · have lock := freshLockstep (Master.configuredFresh configured)
    have bounds := reachBounds configured step enabled end_ (.refl : Run K .reliable m₀ m₀)
    exact Rounds.noInfiniteRun (stepsTerminate lock (roundsTerminate lock bounds))
  · intro m run stuck
    have lock := reachLockstep configured run
    have bounds := reachBounds configured step enabled end_ run
    have done := stuckDone configured nonempty couples solver run bounds stuck
    obtain ⟨k,scheduled⟩ := reachScheduled configured run
    have count := iterationsOver scheduled.clock bounds done
    refine ⟨done,by rw [bounds.exits,if_pos done],lastingAddresses configured run,?_,fun c mem => ⟨?_,?_⟩⟩
    · rw [← count,scheduled.clock.time,Control.elapsed,if_pos (Or.inr done)]
    · exact doneIdle (done ▸ lock.phases c mem)
    · rw [← count]
      exact finalsDone (done ▸ scheduled.sent c mem)

theorem stepScheduleCoupled :
    ¬ ∃ run : Nat → Master, run 0 = .coupled ∧ ∀ n, ∃ e, Step .perConstraint .reliable (run n) e (run (n+1)) :=
  ((stepSchedule Master.coupledConfigured (by decide) perConstraintCouples (perConstraintOver _)).1 rfl
    (by decide) (by decide)).1

end FmiTcpMaster
