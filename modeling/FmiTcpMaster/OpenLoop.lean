import FmiTcpMaster.Erasure
import FmiTcpMaster.Conformance

/-! What the master makes of the payloads that it receives: nothing. Values, statuses and ids are
stored or dropped, and the requests that follow are the same whatever they were. -/
namespace FmiTcpMaster
open Erasure

def Response.erase : Response → Response
  | .getXml => .getXml
  | .instantiate _ => .instantiate .success
  | .initializeSlave _ => .initializeSlave .ok
  | .terminate _ => .terminate .ok
  | .freeInstance => .freeInstance
  | .doStep _ => .doStep .ok
  | .getVersion => .getVersion
  | .setReal _ => .setReal .ok
  | .getReal values _ => .getReal (values.map fun _ => 0) .ok
  | .getFmuState _ _ => .getFmuState 0 .ok
  | .setFmuState _ => .setFmuState .ok
  | .freeFmuState _ => .freeFmuState .ok
  | .getDirectionalDerivative _ _ => .getDirectionalDerivative [] .ok

theorem answersErased (a : Response) (r : Request) : a.erase.answers r = a.answers r := by
  cases a <;> cases r <;> simp [Response.erase,Response.answers]

def Event.erase : Event → Event
  | .response p a => .response p a.erase
  | e => e

def Exchange.erase (x : Exchange) : Exchange := ⟨x.request,x.response.erase⟩

namespace StrongConnector

theorem scatterZero {n : Nat} (vref : Fin n → Int) (vr : Int) : scatter vref vr 0 (fun _ => 0) = fun _ => 0 :=
  funext fun _ => ite_self 0

theorem assignZero (c : StrongConnector) (refs : List Int) (values : List ℚ) :
    c.layout.assignValues (refs.zip (values.map fun _ => 0)) = c.layout := by
  induction refs generalizing values with
  | nil => rfl
  | cons vr refs ih =>
    cases values with
    | nil => rfl
    | cons v values =>
      have still : c.layout.setValue vr 0 = c.layout := by simp only [setValue,layout,scatterZero]
      rw [List.map_cons,List.zip_cons_cons,assignValues,List.foldl_cons,still]
      exact ih values

theorem assignFutureZero (c : StrongConnector) (refs : List Int) (values : List ℚ) :
    c.layout.assignFutureValues (refs.zip (values.map fun _ => 0)) = c.layout := by
  induction refs generalizing values with
  | nil => rfl
  | cons vr refs ih =>
    cases values with
    | nil => rfl
    | cons v values =>
      have still : c.layout.setFutureValue vr 0 = c.layout := by simp only [setFutureValue,layout,scatterZero]
      rw [List.map_cons,List.zip_cons_cons,assignFutureValues,List.foldl_cons,still]
      exact ih values

theorem setValuesErased (refs : List Int) (values : List ℚ) (c : StrongConnector) :
    (c.setValues refs values).map layout = c.layout.setValues refs (values.map fun _ => 0) := by
  unfold setValues
  rw [List.length_map]
  split
  · exact congrArg Except.ok ((layoutAssign c _).trans (assignZero c refs values).symm)
  · rfl

theorem setFutureValuesErased (refs : List Int) (values : List ℚ) (c : StrongConnector) :
    (c.setFutureValues refs values).map layout = c.layout.setFutureValues refs (values.map fun _ => 0) := by
  unfold setFutureValues
  rw [List.length_map]
  split
  · exact congrArg Except.ok ((layoutAssignFuture c _).trans (assignFutureZero c refs values).symm)
  · rfl

end StrongConnector

namespace FMIClient

def erase (c : FMIClient) : FMIClient :=
  {c with
    answered := c.answered.map Exchange.erase
    strongConnectors := c.strongConnectors.map StrongConnector.layout
    getRealValues := c.getRealValues.map fun _ => 0}

theorem requestsErased (c : FMIClient) : c.erase.requests = c.requests := by
  simp [requests,erase,Exchange.erase,Function.comp_def]

theorem referencesErased (c : FMIClient) :
    c.erase.getStrongConnectorValueReferences = c.getStrongConnectorValueReferences := by
  rw [getStrongConnectorValueReferences,getStrongConnectorValueReferences,erase,List.flatMap_map]
  rfl

theorem getRealErased (c : FMIClient) :
    Request.getReal c.erase.getStrongConnectorValueReferences = .getReal c.getStrongConnectorValueReferences := by
  rw [referencesErased]

theorem deliverErased (c : FMIClient) (a : Response) : (c.deliver a).erase = c.erase.deliver a.erase := by
  unfold deliver
  have same : c.erase.pending = c.pending := rfl
  rw [same]
  split
  · rfl
  · rw [answersErased]
    split
    · simp [erase,Exchange.erase]
    · rfl

theorem storeErased (c : FMIClient) :
    (c.setConnectorValues c.getStrongConnectorValueReferences c.getRealValues).map erase =
      c.erase.setConnectorValues c.erase.getStrongConnectorValueReferences c.erase.getRealValues := by
  rw [referencesErased]
  exact bindErased (mapMErased (StrongConnector.setValuesErased _ _) _) fun _ => rfl

theorem storeFutureErased (c : FMIClient) :
    (c.setConnectorFutureVelocities c.getStrongSeedOutputValueReferences c.getRealValues).map erase =
      c.erase.setConnectorFutureVelocities c.erase.getStrongSeedOutputValueReferences c.erase.getRealValues := by
  rw [show c.erase.getStrongSeedOutputValueReferences = c.getStrongSeedOutputValueReferences from referencesErased c]
  exact bindErased (mapMErased (StrongConnector.setFutureValuesErased _ _) _) fun _ => rfl

theorem shiftErased (c : FMIClient) : c.shiftExecuteDirectionalDerivativeRequest.map erase =
    c.erase.shiftExecuteDirectionalDerivativeRequest := by
  unfold shiftExecuteDirectionalDerivativeRequest
  have same : c.erase.ddVRefs = c.ddVRefs ∧ c.erase.ddZRefs = c.ddZRefs ∧ c.erase.ddDvs = c.ddDvs := ⟨rfl,rfl,rfl⟩
  rw [same.1,same.2.1,same.2.2]
  split <;> rfl

end FMIClient

/- What the master reads of an equation; the solver must not let it depend on stored values. -/
def Coupling.ends (K : Coupling) (e : Equation) : ClientPtr × ClientPtr × DerivativeRequest × DerivativeRequest :=
  (e.connA,e.connB,K.requestA e,K.requestB e)

namespace Master

def erase (m : Master) : Master :=
  {m with
    weakConnections := (m.weakConnections.take 1).map fun _ => ⟨0,0,0,0⟩
    slaves := m.slaves.map FMIClient.erase}

end Master

def Coupling.Fixed (K : Coupling) : Prop := ∀ m : Master, (K.getEquations m.erase).map K.ends = (K.getEquations m).map K.ends

namespace Master

theorem weakErased (m : Master) : m.erase.weakConnections.length = 0 ↔ m.weakConnections.length = 0 := by
  cases weak : m.weakConnections <;> simp [erase,weak]

theorem allErased (m : Master) (s : FMIClientState) : m.erase.allClientsHaveState s = m.allClientsHaveState s := by
  rw [allClientsHaveState,allClientsHaveState,erase,List.all_map]
  rfl

theorem connectedErased (m : Master) : m.erase.allConnected = m.allConnected := by
  rw [allConnected,allConnected,erase,List.all_map]
  rfl

theorem requestAllErased (m : Master) (s : MasterState) (w : FMIClientState) {r : FMIClient → Request}
    (same : ∀ c : FMIClient, r c.erase = r c) : (m.requestAll s w r).erase = m.erase.requestAll s w r := by
  simp only [requestAll,erase,List.map_map,Function.comp_def,same]
  rfl

theorem derefErased (m : Master) (p : ClientPtr) {f g : FMIClient → Except Fault FMIClient}
    (each : ∀ c : FMIClient, (f c).map FMIClient.erase = g c.erase) : (m.deref p f).map erase = m.erase.deref p g := by
  have updated : (Keyed.update FMIClient.self .deletedClient p f m.slaves).map (List.map FMIClient.erase) =
      Keyed.update FMIClient.self .deletedClient p g m.erase.slaves := updateErased _ FMIClient.self (fun _ => rfl) each m.slaves
  exact bindErased updated fun _ => rfl

theorem stepSlavesErased (m : Master) (b : Bool) : (m.stepSlaves b).erase = m.erase.stepSlaves b := by
  have sent := fun s => m.requestAllErased s .waitingDoStep (r := fun _ => .doStep m.time m.timeStep true) fun _ => rfl
  cases b with
  | true => exact sent _
  | false =>
    have same := sent .steppingSlaves
    simp only [stepSlaves,Bool.false_eq_true,if_false]
    rw [show m.erase.time = m.time from rfl,show m.erase.timeStep = m.timeStep from rfl,← same]
    rfl

theorem startSimloopErased (m : Master) : m.startSimloop.erase = m.erase.startSimloop := by
  have weak := not_congr m.weakErased
  unfold startSimloop
  rw [show m.erase.strongConnections = m.strongConnections from rfl]
  by_cases strong : m.strongConnections.length ≠ 0
  · rw [if_pos strong,if_pos strong]
    exact m.requestAllErased _ _ fun _ => rfl
  · rw [if_neg strong,if_neg strong]
    by_cases some : m.weakConnections.length ≠ 0
    · rw [if_pos some,if_pos (weak.mpr some)]
      exact m.requestAllErased _ _ fun _ => rfl
    · rw [if_neg some,if_neg fun h => some (weak.mp h)]
      exact m.stepSlavesErased false

def pushEnds (m : Master) (e : ClientPtr × ClientPtr × DerivativeRequest × DerivativeRequest) : Except Fault Master := do
  let m ← m.deref e.2.1 fun c => .ok {c with state := .waitingDirectionalDerivatives}
  let m ← m.deref e.1 fun c => .ok {c with state := .waitingDirectionalDerivatives}
  let m ← m.deref e.1 fun c => .ok (c.pushDirectionalDerivativeRequest e.2.2.1)
  m.deref e.2.1 fun c => .ok (c.pushDirectionalDerivativeRequest e.2.2.2)

theorem pushEndsErased (m : Master) (e : ClientPtr × ClientPtr × DerivativeRequest × DerivativeRequest) :
    (m.pushEnds e).map erase = m.erase.pushEnds e :=
  bindErased (m.derefErased _ fun _ => rfl) fun m => bindErased (m.derefErased _ fun _ => rfl) fun m =>
    bindErased (m.derefErased _ fun _ => rfl) fun m => m.derefErased _ fun _ => rfl

theorem startRequestsErased (c : FMIClient) : (startRequests c).map FMIClient.erase = startRequests c.erase := by
  unfold startRequests
  rw [show c.erase.numDirectionalDerivativeRequests = c.numDirectionalDerivativeRequests from rfl]
  split
  · rfl
  · exact c.shiftErased

theorem startErased (m : Master) :
    (do let slaves ← m.slaves.mapM startRequests; Except.ok {m with slaves := slaves}).map erase =
      (do let slaves ← m.erase.slaves.mapM startRequests; Except.ok {m.erase with slaves := slaves}) :=
  bindErased (mapMErased startRequestsErased m.slaves) fun _ => rfl

theorem fetchErased {K : Coupling} (fixed : K.Fixed) (m : Master) :
    (m.fetchDirectionalDerivatives K).map erase = m.erase.fetchDirectionalDerivatives K := by
  have pushed : ∀ m n : Master, (K.getEquations n).foldlM (pushEquation K) m =
      ((K.getEquations n).map K.ends).foldlM pushEnds m := fun m n => by
    rw [List.foldlM_map]
    rfl
  unfold fetchDirectionalDerivatives
  simp only [pushed]
  rw [show m.erase.setState .gettingDirectionalDerivatives = (m.setState .gettingDirectionalDerivatives).erase from rfl,
    fixed (m.setState .gettingDirectionalDerivatives)]
  refine bindErased ?_ startErased
  have reset : ∀ n : Master, erase {n with slaves := n.slaves.map fun c => {c with numDirectionalDerivativesLeft := 0}} =
      {n.erase with slaves := n.erase.slaves.map fun c => {c with numDirectionalDerivativesLeft := 0}} := by
    intro n
    simp only [erase,List.map_map,Function.comp_def]
    rfl
  rw [foldlMErased pushEndsErased,reset]

theorem tickErased {K : Coupling} (fixed : K.Fixed) (m : Master) : (m.tick K).map erase = m.erase.tick K := by
  have barrier : ∀ {s : FMIClientState} {n : Master}, (if m.allClientsHaveState s then n else m).erase =
      if m.erase.allClientsHaveState s then n.erase else m.erase := by
    intro s n
    rw [m.allErased]
    exact apply_ite erase _ _ _
  unfold tick
  rw [show m.erase.state = m.state from rfl]
  cases m.state
  case connectingSlaves =>
    refine congrArg Except.ok ?_
    rw [m.connectedErased,apply_ite erase]
    exact if_congr Iff.rfl (m.requestAllErased _ _ fun _ => rfl) rfl
  case getStrongConnectorStates =>
    simp only [m.allErased]
    rw [apply_ite (Except.map erase)]
    exact if_congr Iff.rfl (fetchErased fixed m) rfl
  case startSimloop => exact congrArg Except.ok m.startSimloopErased
  case start | gettingVersion | transferringWeak | done => rfl
  all_goals refine congrArg Except.ok (barrier.trans (if_congr Iff.rfl ?_ rfl))
  case initializingSlaves => exact m.startSimloopErased
  case gettingStates => exact m.stepSlavesErased true
  case setWeakReals => exact m.stepSlavesErased false
  case gettingFutureVelo | gettingXml | instantiatingSlaves => exact m.requestAllErased _ _ fun _ => rfl
  case gettingDirectionalDerivatives | getWeakReals => exact m.requestAllErased _ _ fun _ => rfl
  case steppingSlavesForFutureVelo | settingStates => exact m.requestAllErased _ _ FMIClient.getRealErased
  case settingStrongCouplingForces =>
    rw [apply_ite erase]
    exact if_congr (Nat.pos_iff_ne_zero.trans ((not_congr m.weakErased).symm.trans Nat.pos_iff_ne_zero.symm))
      (m.requestAllErased _ _ fun _ => rfl) (m.stepSlavesErased false)
  case steppingSlaves =>
    rw [apply_ite erase]
    exact if_congr Iff.rfl (startSimloopErased _) rfl

section Handlers
variable {K : Coupling} (fixed : K.Fixed)
include fixed

theorem onSlaveErased (m : Master) (p : ClientPtr) {f g : FMIClient → Except Fault FMIClient}
    (each : ∀ c : FMIClient, (f c).map FMIClient.erase = g c.erase) : (m.onSlave K p f).map erase = m.erase.onSlave K p g :=
  bindErased (m.derefErased p each) (tickErased fixed)

theorem onSlaveGotRealErased (m : Master) (p : ClientPtr) : (m.onSlaveGotReal K p).map erase = m.erase.onSlaveGotReal K p := by
  refine onSlaveErased fixed m p fun c => ?_
  rw [show m.erase.state = m.state from rfl]
  split
  · exact FMIClient.storeErased {c with state := .doneGetReal}
  · exact FMIClient.storeFutureErased {c with state := .doneGetReal}
  · rfl

theorem receiveErased (m : Master) (p : ClientPtr) (a : Response) : (m.receive K p a).map erase = m.erase.receive K p a.erase := by
  refine bindErased (m.derefErased p fun c => congrArg Except.ok (c.deliverErased a)) fun m => ?_
  cases a with
  | initializeSlave status =>
    exact bindErased (m.derefErased p fun _ => rfl) fun m => onSlaveErased fixed m p fun _ => rfl
  | getReal values status => exact bindErased (m.derefErased p fun _ => rfl) fun m => onSlaveGotRealErased fixed m p
  | freeInstance | getVersion => exact tickErased fixed m
  | getDirectionalDerivative dz status =>
    refine onSlaveErased fixed m p fun c => ?_
    exact (apply_ite (Except.map FMIClient.erase) _ _ _).trans (if_congr Iff.rfl rfl (FMIClient.shiftErased _))
  | _ => exact onSlaveErased fixed m p fun _ => rfl

theorem handleErased (m : Master) (e : Event) : (m.handle K e).map erase = m.erase.handle K e.erase := by
  cases e with
  | connect p => exact bindErased (m.derefErased p fun _ => rfl) (tickErased fixed)
  | response p a => exact receiveErased fixed m p a
  | disconnect p =>
    refine congrArg Except.ok ?_
    have rest : m.erase.slaves.eraseP (fun c => c.self = p) = (m.slaves.eraseP fun c => c.self = p).map FMIClient.erase :=
      List.eraseP_map
    simp only [slaveDisconnected,rest,List.length_map]
    exact apply_ite erase _ _ _
  | error p => rfl

theorem overhearErased (m : Master) (es : List Event) :
    (m.overhear K es).map erase = m.erase.overhear K (es.map Event.erase) := by
  induction es generalizing m with
  | nil => rfl
  | cons e es ih =>
    have slave : e.erase.slave = e.slave := by cases e <;> rfl
    have addresses : m.erase.addresses = m.addresses := by
      simp only [Master.addresses,erase,List.map_map,Function.comp_def]
      rfl
    have handled := handleErased fixed m e
    rw [List.map_cons,overhear,overhear,slave,addresses,← handled]
    split
    · cases m.handle K e with
      | error f => rfl
      | ok m' => exact ih m'
    · rfl

end Handlers

def observed (m : Master) : MasterState × ℚ × Nat × List (ClientPtr × List Request) :=
  (m.state,m.time,m.exits,m.slaves.map fun c => (c.self,c.requests))

theorem observedErased (m : Master) : m.erase.observed = m.observed := by
  simp only [observed,erase,List.map_map,Function.comp_def,FMIClient.requestsErased]
  rfl

end Master

/- Two masters that differ in their weak connections, and in the memory their connectors were built in,
and that hear messages with different payloads: one faults where the other does, and the same is seen of both. -/
theorem openLoop {K : Coupling} (fixed : K.Fixed) {m n : Master} (same : m.erase = n.erase) {es ds : List Event}
    (alike : es.map Event.erase = ds.map Event.erase) :
    (m.overhear K es).map Master.observed = (n.overhear K ds).map Master.observed := by
  have seen : ∀ o : Option Master, o.map Master.observed = (o.map Master.erase).map Master.observed := by
    intro o
    rw [Option.map_map]
    exact congrArg (o.map ·) (funext fun m => (m.observedErased).symm)
  rw [seen,seen (n.overhear K ds),Master.overhearErased fixed,Master.overhearErased fixed,same,alike]

theorem openLoopCoupled :
    let reversed := {Master.coupled with weakConnections := [⟨2,1,7,8⟩]}
    (Master.coupled.overhear .perConstraint (Event.speculation 3 1)).map Master.observed =
      (reversed.overhear .perConstraint (Event.speculation 5 2)).map Master.observed := by
  have fixed : Coupling.perConstraint.Fixed := fun m => rfl
  have alike : (Event.speculation 3 1).map Event.erase = (Event.speculation 5 2).map Event.erase := by decide
  exact openLoop fixed rfl alike

end FmiTcpMaster
