import FmiTcpMaster.Client
import FmiTcpMaster.Keyed

/-! The Master class: its phases, the big switch of tick() and the callbacks that end in it.
sc::Solver is outside the repository; what the master uses of it is a parameter. A double is an exact
rational number here: no sum is rounded, and nothing is infinite or not a number. -/
namespace FmiTcpMaster

inductive MasterState where
  | start | connectingSlaves | startSimloop | gettingVersion | gettingXml | instantiatingSlaves
  | initializingSlaves | transferringWeak | gettingStates | steppingSlavesForFutureVelo
  | gettingFutureVelo | settingStates | gettingDirectionalDerivatives
  | settingStrongCouplingForces | steppingSlaves | getWeakReals | setWeakReals
  | getStrongConnectorStates | done
  deriving DecidableEq, Repr

inductive WeakCouplingAlgorithm where
  | serial | parallel
  deriving DecidableEq, Repr

structure WeakConnection where
  slaveA : ClientPtr
  slaveB : ClientPtr
  valueRefA : Int
  valueRefB : Int
  deriving DecidableEq, Repr

/- An sc::Constraint, as far as the master can tell two of them apart: the m_userData of its
two connectors, written once by the constructor of StrongConnector. -/
structure Constraint where
  userDataA : ClientPtr
  userDataB : ClientPtr
  deriving DecidableEq, Repr

structure StrongConnection where
  constraint : Constraint
  deriving DecidableEq, Repr

/- An sc::Equation: eq->getConnA()->m_userData, eq->getConnB()->m_userData and the Jacobian
seeds, which fetchDirectionalDerivatives() reads for each end. -/
structure Equation where
  connA : ClientPtr
  connB : ClientPtr
  spatialJacobianSeedA : Fin 3 → ℚ
  rotationalJacobianSeedA : Fin 3 → ℚ
  spatialJacobianSeedB : Fin 3 → ℚ
  rotationalJacobianSeedB : Fin 3 → ℚ
  deriving DecidableEq, Repr

/- Every member of Master but m_slaves. `constraints` is what m_strongCouplingSolver was
given, `exits` counts the calls of m_pump->exitEventLoop(), and no method is one never set. -/
structure Control where
  state : MasterState
  slaveIdCounter : Nat
  weakConnections : List WeakConnection
  strongConnections : List StrongConnection
  constraints : List Constraint
  relativeTolerance : ℚ
  timeStep : ℚ
  startTime : ℚ
  endTime : ℚ
  endTimeDefined : Bool
  method : Option WeakCouplingAlgorithm
  time : ℚ
  exits : Nat
  deriving DecidableEq, Repr

structure Master extends Control where
  slaves : List FMIClient
  deriving DecidableEq, Repr

/- getEquations may depend on anything the solver was given or can reach through its
connectors. requestA and requestB are the triples pushed for the two ends of an equation. -/
structure Coupling where
  getEquations : Master → List Equation
  requestA : Equation → DerivativeRequest
  requestB : Equation → DerivativeRequest

/- fetchDirectionalDerivatives() declares v_ref, z_ref and dv and pushes them as they are. -/
def Coupling.source (getEquations : Master → List Equation) : Coupling :=
  ⟨getEquations,fun _ => ⟨[],[],[]⟩,fun _ => ⟨[],[],[]⟩⟩

namespace Master

def addresses (m : Master) : List ClientPtr := m.slaves.map FMIClient.self

def setState (m : Master) (s : MasterState) : Master := {m with state := s}

def exitEventLoop (m : Master) : Master := {m with exits := m.exits+1}

/- Access through a client pointer; the live clients are the ones in m_slaves. -/
def deref (m : Master) (p : ClientPtr) (f : FMIClient → Except Fault FMIClient) : Except Fault Master := do
  let slaves ← Keyed.update FMIClient.self .deletedClient p f m.slaves
  .ok {m with slaves := slaves}

def requestAll (m : Master) (s : MasterState) (waiting : FMIClientState) (request : FMIClient → Request) : Master :=
  {m with state := s, slaves := m.slaves.map fun c => FMIClient.send {c with state := waiting} (request c)}

def getXmlForSlaves (m : Master) : Master := m.requestAll .gettingXml .waitingGetXml fun _ => .getXml

def instantiateSlaves (m : Master) : Master :=
  m.requestAll .instantiatingSlaves .waitingInstantiateSlave fun _ => .instantiate

def initializeSlaves (m : Master) : Master :=
  m.requestAll .initializingSlaves .waitingInitializeSlave fun _ =>
    .initializeSlave true m.relativeTolerance m.startTime m.endTimeDefined m.endTime

def getSlaveStates (m : Master) : Master := m.requestAll .gettingStates .waitingGetState fun _ => .getFmuState

def setSlaveStates (m : Master) : Master := m.requestAll .settingStates .waitingSetState fun _ => .setFmuState 0

def stepSlaves (m : Master) (forFutureVelocities : Bool) : Master :=
  let s := if forFutureVelocities then .steppingSlavesForFutureVelo else .steppingSlaves
  let m := m.requestAll s .waitingDoStep fun _ => .doStep m.time m.timeStep true
  if forFutureVelocities then m else {m with time := m.time+m.timeStep}

def getFutureVelocities (m : Master) : Master :=
  m.requestAll .gettingFutureVelo .waitingGetReal fun c => .getReal c.getStrongSeedOutputValueReferences

def getStrongCouplingReals (m : Master) : Master :=
  m.requestAll .getStrongConnectorStates .waitingGetReal fun c => .getReal c.getStrongConnectorValueReferences

def setStrongCouplingForces (m : Master) : Master :=
  m.requestAll .settingStrongCouplingForces .waitingSetReal fun _ => .setReal [] []

def getWeakConnectionReals (m : Master) : Master := m.requestAll .getWeakReals .waitingGetReal fun _ => .getReal []

def setWeakConnectionReals (m : Master) : Master := m.requestAll .setWeakReals .waitingSetReal fun _ => .setReal [] []

def pushEquation (K : Coupling) (m : Master) (eq : Equation) : Except Fault Master := do
  let m ← m.deref eq.connB fun c => .ok {c with state := .waitingDirectionalDerivatives}
  let m ← m.deref eq.connA fun c => .ok {c with state := .waitingDirectionalDerivatives}
  let m ← m.deref eq.connA fun c => .ok (c.pushDirectionalDerivativeRequest (K.requestA eq))
  m.deref eq.connB fun c => .ok (c.pushDirectionalDerivativeRequest (K.requestB eq))

def startRequests (c : FMIClient) : Except Fault FMIClient :=
  if c.numDirectionalDerivativeRequests = 0 then .ok {c with state := .doneDirectionalDerivatives}
  else c.shiftExecuteDirectionalDerivativeRequest

def fetchDirectionalDerivatives (K : Coupling) (m : Master) : Except Fault Master := do
  let m := m.setState .gettingDirectionalDerivatives
  let eqs := K.getEquations m
  let m := {m with slaves := m.slaves.map fun c => {c with numDirectionalDerivativesLeft := 0}}
  let m ← eqs.foldlM (pushEquation K) m
  let slaves ← m.slaves.mapM startRequests
  .ok {m with slaves := slaves}

def allClientsHaveState (m : Master) (s : FMIClientState) : Bool := m.slaves.all fun c => c.state = s

def allConnected (m : Master) : Bool := m.slaves.all (·.isConnected)

def startSimloop (m : Master) : Master :=
  if m.strongConnections.length ≠ 0 then m.getSlaveStates
  else if m.weakConnections.length ≠ 0 then m.getWeakConnectionReals
  else m.stepSlaves false

/- The call of tick() from within the case MASTER_STATE_STEPPING_SLAVES, made right after
setState(MASTER_STATE_START_SIMLOOP), is that state's case. -/
def tick (K : Coupling) (m : Master) : Except Fault Master :=
  match m.state with
  | .connectingSlaves => .ok (if m.allConnected then m.getXmlForSlaves else m)
  | .gettingXml => .ok (if m.allClientsHaveState .doneGetXml then m.instantiateSlaves else m)
  | .instantiatingSlaves => .ok (if m.allClientsHaveState .doneInstantiateSlave then m.initializeSlaves else m)
  | .initializingSlaves => .ok (if m.allClientsHaveState .doneInitializeSlave then m.startSimloop else m)
  | .startSimloop => .ok m.startSimloop
  | .gettingStates => .ok (if m.allClientsHaveState .doneGetState then m.stepSlaves true else m)
  | .steppingSlavesForFutureVelo => .ok (if m.allClientsHaveState .doneDoStep then m.getFutureVelocities else m)
  | .gettingFutureVelo => .ok (if m.allClientsHaveState .doneGetReal then m.setSlaveStates else m)
  | .settingStates => .ok (if m.allClientsHaveState .doneSetState then m.getStrongCouplingReals else m)
  | .getStrongConnectorStates =>
    if m.allClientsHaveState .doneGetReal then m.fetchDirectionalDerivatives K else .ok m
  | .gettingDirectionalDerivatives =>
    .ok (if m.allClientsHaveState .doneDirectionalDerivatives then m.setStrongCouplingForces else m)
  | .settingStrongCouplingForces =>
    .ok (if m.allClientsHaveState .doneSetReal then
      if m.weakConnections.length > 0 then m.getWeakConnectionReals else m.stepSlaves false
    else m)
  | .getWeakReals => .ok (if m.allClientsHaveState .doneGetReal then m.setWeakConnectionReals else m)
  | .setWeakReals => .ok (if m.allClientsHaveState .doneSetReal then m.stepSlaves false else m)
  | .steppingSlaves =>
    .ok (if m.allClientsHaveState .doneDoStep then
      if m.endTimeDefined && decide (m.time < m.endTime) || !m.endTimeDefined then
        (m.setState .startSimloop).startSimloop
      else (m.setState .done).exitEventLoop
    else m)
  | .start | .gettingVersion | .transferringWeak | .done => .ok m

example (K : Coupling) (m : Master) :
    (m.setState .startSimloop).tick K = .ok (m.setState .startSimloop).startSimloop := rfl

def onSlave (K : Coupling) (m : Master) (slave : ClientPtr) (f : FMIClient → Except Fault FMIClient) :
    Except Fault Master := do
  let m ← m.deref slave f
  m.tick K

def onSlaveGetXML (K : Coupling) (m : Master) (slave : ClientPtr) :=
  m.onSlave K slave fun c => .ok {c with state := .doneGetXml}
def onSlaveInstantiated (K : Coupling) (m : Master) (slave : ClientPtr) :=
  m.onSlave K slave fun c => .ok {c with state := .doneInstantiateSlave, isInstantiated := true}
def onSlaveInitialized (K : Coupling) (m : Master) (slave : ClientPtr) :=
  m.onSlave K slave fun c => .ok {c with state := .doneInitializeSlave}
def onSlaveTerminated (K : Coupling) (m : Master) (slave : ClientPtr) :=
  m.onSlave K slave fun c => .ok {c with state := .doneTerminateSlave}
def onSlaveFreed (K : Coupling) (m : Master) (_slave : ClientPtr) := m.tick K
def onSlaveStepped (K : Coupling) (m : Master) (slave : ClientPtr) :=
  m.onSlave K slave fun c => .ok {c with state := .doneDoStep}
def onSlaveGotVersion (K : Coupling) (m : Master) (_slave : ClientPtr) := m.tick K
def onSlaveSetReal (K : Coupling) (m : Master) (slave : ClientPtr) :=
  m.onSlave K slave fun c => .ok {c with state := .doneSetReal}

def onSlaveGotReal (K : Coupling) (m : Master) (slave : ClientPtr) :=
  m.onSlave K slave fun c =>
    let c := {c with state := .doneGetReal}
    match m.state with
    | .getStrongConnectorStates => c.setConnectorValues c.getStrongConnectorValueReferences c.getRealValues
    | .gettingFutureVelo =>
      c.setConnectorFutureVelocities c.getStrongSeedOutputValueReferences c.getRealValues
    | _ => .ok c

def onSlaveGotState (K : Coupling) (m : Master) (slave : ClientPtr) :=
  m.onSlave K slave fun c => .ok {c with state := .doneGetState}
def onSlaveSetState (K : Coupling) (m : Master) (slave : ClientPtr) :=
  m.onSlave K slave fun c => .ok {c with state := .doneSetState}
def onSlaveFreedState (K : Coupling) (m : Master) (slave : ClientPtr) :=
  m.onSlave K slave fun c => .ok {c with state := .doneFreeState}

def onSlaveDirectionalDerivative (K : Coupling) (m : Master) (slave : ClientPtr) :=
  m.onSlave K slave fun c =>
    let c := {c with numDirectionalDerivativesLeft := c.numDirectionalDerivativesLeft-1}
    if c.numDirectionalDerivativeRequests = 0 then .ok {c with state := .doneDirectionalDerivatives}
    else c.shiftExecuteDirectionalDerivativeRequest

def slaveConnected (K : Coupling) (m : Master) (_client : ClientPtr) := m.tick K
def slaveError (m : Master) (_client : ClientPtr) : Master := m.exitEventLoop

def slaveDisconnected (m : Master) (client : ClientPtr) : Master :=
  let m := {m with slaves := m.slaves.eraseP fun c => c.self = client}
  if m.slaves.length = 0 then m.exitEventLoop else m

/- The FMIClient::on_*_res methods. None of them looks at the status it is given, and
get_fmu_state's stateId is dropped. -/
def receive (K : Coupling) (m : Master) (slave : ClientPtr) (a : Response) : Except Fault Master := do
  let m ← m.deref slave fun c => .ok (c.deliver a)
  match a with
  | .getXml => m.onSlaveGetXML K slave
  | .instantiate _ => m.onSlaveInstantiated K slave
  | .initializeSlave _ => do
    let m ← m.deref slave fun c => .ok {c with initialized := true}
    m.onSlaveInitialized K slave
  | .terminate _ => m.onSlaveTerminated K slave
  | .freeInstance => m.onSlaveFreed K slave
  | .doStep _ => m.onSlaveStepped K slave
  | .getVersion => m.onSlaveGotVersion K slave
  | .setReal _ => m.onSlaveSetReal K slave
  | .getReal values _ => do
    let m ← m.deref slave fun c => .ok {c with getRealValues := values}
    m.onSlaveGotReal K slave
  | .getFmuState _ _ => m.onSlaveGotState K slave
  | .setFmuState _ => m.onSlaveSetState K slave
  | .freeFmuState _ => m.onSlaveFreedState K slave
  | .getDirectionalDerivative _ _ => m.onSlaveDirectionalDerivative K slave

end Master
end FmiTcpMaster
