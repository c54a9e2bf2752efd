import FmiTcpMaster.System

/-! What one call of tick() does, said once: it does nothing while some slave has not reached
the state the phase waits for, and otherwise enters the next phase for all slaves at once. -/
namespace FmiTcpMaster

namespace MasterState

def waiting : MasterState → Option FMIClientState
  | .gettingXml => some .waitingGetXml
  | .instantiatingSlaves => some .waitingInstantiateSlave
  | .initializingSlaves => some .waitingInitializeSlave
  | .gettingStates => some .waitingGetState
  | .steppingSlavesForFutureVelo | .steppingSlaves => some .waitingDoStep
  | .gettingFutureVelo | .getStrongConnectorStates | .getWeakReals => some .waitingGetReal
  | .settingStates => some .waitingSetState
  | .gettingDirectionalDerivatives => some .waitingDirectionalDerivatives
  | .settingStrongCouplingForces | .setWeakReals => some .waitingSetReal
  | .start | .connectingSlaves | .startSimloop | .gettingVersion | .transferringWeak | .done => none

def awaited : MasterState → Option FMIClientState
  | .gettingXml => some .doneGetXml
  | .instantiatingSlaves => some .doneInstantiateSlave
  | .initializingSlaves => some .doneInitializeSlave
  | .gettingStates => some .doneGetState
  | .steppingSlavesForFutureVelo | .steppingSlaves => some .doneDoStep
  | .gettingFutureVelo | .getStrongConnectorStates | .getWeakReals => some .doneGetReal
  | .settingStates => some .doneSetState
  | .gettingDirectionalDerivatives => some .doneDirectionalDerivatives
  | .settingStrongCouplingForces | .setWeakReals => some .doneSetReal
  | .start | .connectingSlaves | .startSimloop | .gettingVersion | .transferringWeak | .done => none

def asks : MasterState → Request → Bool
  | .gettingXml, .getXml
  | .instantiatingSlaves, .instantiate
  | .initializingSlaves, .initializeSlave ..
  | .gettingStates, .getFmuState
  | .steppingSlavesForFutureVelo, .doStep ..
  | .gettingFutureVelo, .getReal _
  | .settingStates, .setFmuState _
  | .getStrongConnectorStates, .getReal _
  | .gettingDirectionalDerivatives, .getDirectionalDerivative _
  | .settingStrongCouplingForces, .setReal ..
  | .getWeakReals, .getReal _
  | .setWeakReals, .setReal ..
  | .steppingSlaves, .doStep .. => true
  | _, _ => false

def resting : MasterState → Bool
  | .start | .startSimloop | .gettingVersion | .transferringWeak => false
  | _ => true

end MasterState

namespace Control

def finished (g : Control) (c : FMIClient) : Prop :=
  match g.state with
  | .connectingSlaves => c.connected = true
  | s => s.awaited = some c.state

instance (g c) : Decidable (finished g c) := by unfold finished; split <;> infer_instance

def loopHead (g : Control) : MasterState :=
  if g.strongConnections.length ≠ 0 then .gettingStates
  else if g.weakConnections.length ≠ 0 then .getWeakReals
  else .steppingSlaves

def continues (g : Control) : Bool := g.endTimeDefined && decide (g.time < g.endTime) || !g.endTimeDefined

def next (g : Control) : MasterState :=
  match g.state with
  | .connectingSlaves => .gettingXml
  | .gettingXml => .instantiatingSlaves
  | .instantiatingSlaves => .initializingSlaves
  | .initializingSlaves | .startSimloop => g.loopHead
  | .gettingStates => .steppingSlavesForFutureVelo
  | .steppingSlavesForFutureVelo => .gettingFutureVelo
  | .gettingFutureVelo => .settingStates
  | .settingStates => .getStrongConnectorStates
  | .getStrongConnectorStates => .gettingDirectionalDerivatives
  | .gettingDirectionalDerivatives => .settingStrongCouplingForces
  | .settingStrongCouplingForces => if g.weakConnections.length > 0 then .getWeakReals else .steppingSlaves
  | .getWeakReals => .setWeakReals
  | .setWeakReals => .steppingSlaves
  | .steppingSlaves => if g.continues then g.loopHead else .done
  | s => s

def advance (g : Control) : Control :=
  {g with
    state := g.next
    time := if g.next = .steppingSlaves then g.time+g.timeStep else g.time
    exits := if g.next = .done then g.exits+1 else g.exits}

def request (g : Control) (s : MasterState) (c : FMIClient) : Option Request :=
  match s with
  | .gettingXml => some .getXml
  | .instantiatingSlaves => some .instantiate
  | .initializingSlaves =>
    some (.initializeSlave true g.relativeTolerance g.startTime g.endTimeDefined g.endTime)
  | .gettingStates => some .getFmuState
  | .steppingSlavesForFutureVelo | .steppingSlaves => some (.doStep g.time g.timeStep true)
  | .gettingFutureVelo => some (.getReal c.getStrongSeedOutputValueReferences)
  | .settingStates => some (.setFmuState 0)
  | .getStrongConnectorStates => some (.getReal c.getStrongConnectorValueReferences)
  | .settingStrongCouplingForces | .setWeakReals => some (.setReal [] [])
  | .getWeakReals => some (.getReal [])
  | .start | .connectingSlaves | .startSimloop | .gettingVersion | .transferringWeak
  | .gettingDirectionalDerivatives | .done => none

def enter (g : Control) (c : FMIClient) : FMIClient :=
  match g.request g.next c, g.next.waiting with
  | some r, some w => FMIClient.send {c with state := w} r
  | _, _ => c

end Control

theorem finishedBarrier {g : Control} {d : FMIClientState} (phase : g.state.awaited = some d) (c : FMIClient) :
    g.finished c ↔ c.state = d := by
  unfold Control.finished
  split
  · rename_i connecting
    simp [connecting,MasterState.awaited] at phase
  · rw [phase,Option.some.injEq,eq_comm]

theorem advanceOther {g : Control} {s : MasterState} (next : g.next = s) (notStep : s ≠ .steppingSlaves)
    (notDone : s ≠ .done) : g.advance = {g with state := s} := by
  simp only [Control.advance,next,if_neg notStep,if_neg notDone]

namespace Master

theorem barrierOpen {m : Master} {d : FMIClientState} (phase : m.state.awaited = some d) :
    m.allClientsHaveState d = true ↔ ∀ c ∈ m.slaves, m.toControl.finished c := by
  simp only [allClientsHaveState,List.all_eq_true,decide_eq_true_eq,finishedBarrier phase]

theorem connectOpen {m : Master} (phase : m.state = .connectingSlaves) :
    m.allConnected = true ↔ ∀ c ∈ m.slaves, m.toControl.finished c := by
  simp only [allConnected,List.all_eq_true,FMIClient.isConnected,Control.finished,phase]

theorem requestAllEnters {m : Master} {s : MasterState} {w : FMIClientState} {r : FMIClient → Request}
    (next : m.toControl.next = s) (waiting : s.waiting = some w)
    (request : ∀ c, m.toControl.request s c = some (r c)) :
    m.requestAll s w r = ⟨{m.toControl with state := s},m.slaves.map m.toControl.enter⟩ := by
  have enters : m.toControl.enter = fun c => FMIClient.send {c with state := w} (r c) :=
    funext fun c => by simp only [Control.enter,next,waiting,request]
  rw [enters]
  rfl

theorem stepSlavesEnters {m : Master} (next : m.toControl.next = .steppingSlaves) :
    m.stepSlaves false = ⟨m.toControl.advance,m.slaves.map m.toControl.enter⟩ := by
  have loop := requestAllEnters (r := fun _ => .doStep m.time m.timeStep true) next rfl fun _ => rfl
  simp only [stepSlaves,Bool.false_eq_true,if_false,loop,Control.advance,next,if_true,reduceCtorEq]

theorem loopEnters {m : Master} (phase : m.toControl.next = m.toControl.loopHead) :
    m.startSimloop = ⟨m.toControl.advance,m.slaves.map m.toControl.enter⟩ := by
  unfold Control.loopHead at phase
  unfold startSimloop
  split
  · rename_i strong
    rw [if_pos strong] at phase
    rw [advanceOther phase (by decide) (by decide)]
    exact requestAllEnters phase rfl fun _ => rfl
  · rename_i noStrong
    rw [if_neg noStrong] at phase
    split
    · rename_i weak
      rw [if_pos weak] at phase
      rw [advanceOther phase (by decide) (by decide)]
      exact requestAllEnters phase rfl fun _ => rfl
    · rename_i noWeak
      rw [if_neg noWeak] at phase
      exact stepSlavesEnters phase

theorem loopRestarts {m : Master} (stepping : m.state = .steppingSlaves) (more : m.toControl.continues = true) :
    (m.setState .startSimloop).startSimloop = ⟨m.toControl.advance,m.slaves.map m.toControl.enter⟩ := by
  have next : m.toControl.next = m.toControl.loopHead := by simp [Control.next,stepping,more]
  have same : (m.setState .startSimloop).toControl.next = m.toControl.next := next.symm
  rw [loopEnters rfl]
  simp only [Control.advance,same]
  exact congrArg (Master.mk _) (List.map_congr_left fun c _ => by simp only [Control.enter,same]; rfl)

theorem tickStays {K : Coupling} {m : Master} (resting : m.state.resting = true)
    (waiting : ¬ ∀ c ∈ m.slaves, m.toControl.finished c) : m.tick K = .ok m := by
  have closed : ∀ {d}, m.state.awaited = some d → m.allClientsHaveState d = false := fun phase =>
    Bool.eq_false_iff.mpr fun all => waiting ((barrierOpen phase).mp all)
  unfold tick
  cases phase : m.state <;> simp only [phase,MasterState.resting,Bool.false_eq_true] at resting ⊢
  case connectingSlaves =>
    rw [if_neg fun all => waiting ((connectOpen phase).mp all)]
  all_goals
    have shut := closed (by rw [phase]; rfl)
    simp only [shut,Bool.false_eq_true,if_false]

theorem tickFetches {K : Coupling} {m : Master} (strong : m.state = .getStrongConnectorStates)
    (all : ∀ c ∈ m.slaves, m.toControl.finished c) : m.tick K = m.fetchDirectionalDerivatives K := by
  have opened : m.allClientsHaveState .doneGetReal = true := (barrierOpen (by rw [strong]; rfl)).mpr all
  simp only [tick,strong,opened,if_true]

theorem tickEnters {K : Coupling} {m : Master} (phase : m.state = .connectingSlaves ∨ m.state.awaited.isSome = true)
    (all : ∀ c ∈ m.slaves, m.toControl.finished c) (other : m.state ≠ .getStrongConnectorStates) :
    m.tick K = .ok ⟨m.toControl.advance,m.slaves.map m.toControl.enter⟩ := by
  have entry : ∀ {s w r}, m.toControl.next = s → s.waiting = some w → s ≠ .steppingSlaves → s ≠ .done →
      (∀ c, m.toControl.request s c = some (r c)) →
      m.requestAll s w r = ⟨m.toControl.advance,m.slaves.map m.toControl.enter⟩ :=
    fun next waiting notStep notDone request =>
      (requestAllEnters next waiting request).trans (by rw [advanceOther next notStep notDone])
  have opened : ∀ {d}, m.state.awaited = some d → m.allClientsHaveState d = true := fun h => (barrierOpen h).mpr all
  unfold tick
  cases at_ : m.state <;> simp only [at_,MasterState.awaited,reduceCtorEq,Option.isSome_none,or_self,
    Bool.false_eq_true,ne_eq,not_true_eq_false] at phase other ⊢
  case connectingSlaves =>
    rw [if_pos ((connectOpen at_).mpr all)]
    exact congrArg _ (entry (by rw [Control.next,at_]) rfl (by decide) (by decide) fun _ => rfl)
  all_goals rw [if_pos (opened (by rw [at_]; rfl))]
  case initializingSlaves => exact congrArg _ (loopEnters (by rw [Control.next,at_]))
  case gettingStates =>
    have speculative : m.stepSlaves true =
      m.requestAll .steppingSlavesForFutureVelo .waitingDoStep fun _ => .doStep m.time m.timeStep true := rfl
    rw [speculative]
    exact congrArg _ (entry (by rw [Control.next,at_]) rfl (by decide) (by decide) fun _ => rfl)
  case settingStrongCouplingForces =>
    split
    · rename_i weak
      exact congrArg _ (entry (by rw [Control.next,at_]; exact if_pos weak) rfl (by decide) (by decide) fun _ => rfl)
    · rename_i noWeak
      exact congrArg _ (stepSlavesEnters (by rw [Control.next,at_]; exact if_neg noWeak))
  case setWeakReals => exact congrArg _ (stepSlavesEnters (by rw [Control.next,at_]))
  case steppingSlaves =>
    split
    · rename_i more
      exact congrArg _ (loopRestarts at_ more)
    · rename_i last
      have next : m.toControl.next = .done := by rw [Control.next,at_]; exact if_neg last
      have same : m.slaves.map m.toControl.enter = m.slaves :=
        (List.map_congr_left fun c _ => by simp only [Control.enter,next,MasterState.waiting]; rfl).trans (List.map_id _)
      rw [same]
      simp only [Control.advance,next]
      rfl
  all_goals exact congrArg _ (entry (by rw [Control.next,at_]) rfl (by decide) (by decide) fun _ => rfl)

end Master

end FmiTcpMaster
