import FmiTcpMaster.Connector

/-! FMIClient, the master's side of one slave. The base class fmitcp::Client is outside the
repository; what the master can observe of it is whether it is connected, what was sent on
it and what came back. -/
namespace FmiTcpMaster

inductive FMIClientState where
  | start
  | waitingGetXml | doneGetXml
  | waitingInstantiateSlave | doneInstantiateSlave
  | waitingInitializeSlave | doneInitializeSlave
  | waitingDirectionalDerivatives | doneDirectionalDerivatives
  | waitingDoStep | doneDoStep
  | waitingSetReal | doneSetReal
  | waitingGetReal | doneGetReal
  | waitingSetState | doneSetState
  | waitingGetState | doneGetState
  | waitingFreeState | doneFreeState
  | waitingTerminateSlave | doneTerminateSlave
  deriving DecidableEq, Repr

/- fmitcp::Client: `answered` is what the slave has answered so far, `pending` what it has not. -/
structure Client where
  host : String
  port : Int
  connected : Bool
  answered : List Exchange
  pending : List Request
  deriving DecidableEq, Repr

structure FMIClient extends Client where
  self : ClientPtr
  id : Nat
  initialized : Bool
  isInstantiated : Bool
  state : FMIClientState
  strongConnectors : List StrongConnector
  ddVRefs : List (List Int)
  ddZRefs : List (List Int)
  ddDvs : List (List ℚ)
  numDirectionalDerivativesLeft : Int
  getRealValues : List ℚ
  deriving DecidableEq, Repr

namespace FMIClient

def requests (c : FMIClient) : List Request := c.answered.map Exchange.request ++ c.pending

def isConnected (c : FMIClient) : Bool := c.connected
def isInitialized (c : FMIClient) : Bool := c.initialized

def send (c : FMIClient) (r : Request) : FMIClient := {c with pending := c.pending ++ [r]}

/- The slave answers in order: a message that answers the oldest open request closes it. -/
def deliver (c : FMIClient) (a : Response) : FMIClient :=
  match c.pending with
  | [] => c
  | r :: rest => if a.answers r then {c with answered := c.answered ++ [⟨r,a⟩], pending := rest} else c

def construct (self : ClientPtr) : FMIClient where
  host := ""
  port := 0
  connected := false
  answered := []
  pending := []
  self := self
  id := 0
  initialized := false
  isInstantiated := false
  state := .start
  strongConnectors := []
  ddVRefs := []
  ddZRefs := []
  ddDvs := []
  numDirectionalDerivativesLeft := 0
  getRealValues := []

def connect (c : FMIClient) (host : String) (port : Int) : FMIClient := {c with host := host, port := port}
def setId (c : FMIClient) (id : Nat) : FMIClient := {c with id := id}

def createConnector (c : FMIClient) (memory : StrongConnector) : FMIClient :=
  {c with strongConnectors := c.strongConnectors ++ [memory.construct c.self]}

def pushDirectionalDerivativeRequest (c : FMIClient) (d : DerivativeRequest) : FMIClient :=
  {c with ddVRefs := c.ddVRefs ++ [d.vRef], ddZRefs := c.ddZRefs ++ [d.zRef], ddDvs := c.ddDvs ++ [d.dv]}

def shiftExecuteDirectionalDerivativeRequest (c : FMIClient) : Except Fault FMIClient :=
  match c.ddVRefs.getLast?, c.ddZRefs.getLast?, c.ddDvs.getLast? with
  | some v, some z, some d =>
    .ok ({c with ddVRefs := c.ddVRefs.dropLast, ddZRefs := c.ddZRefs.dropLast, ddDvs := c.ddDvs.dropLast}.send
      (.getDirectionalDerivative ⟨v,z,d⟩))
  | _, _, _ => .error .emptyQueue

def numDirectionalDerivativeRequests (c : FMIClient) : Nat := c.ddVRefs.length

def kinematicValueReferences (k : StrongConnector) : List Int :=
  (if k.hasPosition then k.getPositionValueRefs else []) ++
  (if k.hasQuaternion then k.getQuaternionValueRefs else []) ++
  (if k.hasVelocity then k.getVelocityValueRefs else []) ++
  (if k.hasAngularVelocity then k.getAngularVelocityValueRefs else [])

def getStrongConnectorValueReferences (c : FMIClient) : List Int :=
  c.strongConnectors.flatMap kinematicValueReferences

def getStrongSeedInputValueReferences (c : FMIClient) : List Int :=
  c.strongConnectors.flatMap kinematicValueReferences

def getStrongSeedOutputValueReferences (c : FMIClient) : List Int :=
  c.strongConnectors.flatMap kinematicValueReferences

def setConnectorValues (c : FMIClient) (valueRefs : List Int) (values : List ℚ) : Except Fault FMIClient := do
  let connectors ← c.strongConnectors.mapM (·.setValues valueRefs values)
  .ok {c with strongConnectors := connectors}

def setConnectorFutureVelocities (c : FMIClient) (valueRefs : List Int) (values : List ℚ) :
    Except Fault FMIClient := do
  let connectors ← c.strongConnectors.mapM (·.setFutureValues valueRefs values)
  .ok {c with strongConnectors := connectors}

theorem kinematicLayout {k k' : StrongConnector} (same : k.layout = k'.layout) :
    kinematicValueReferences k = kinematicValueReferences k' := by
  have of : ∀ k, kinematicValueReferences k = kinematicValueReferences k.layout := fun _ => rfl
  rw [of k,of k',same]

theorem noneOrOne {c : FMIClient} (short : c.pending.length ≤ 1) : c.pending = [] ∨ ∃ r, c.pending = [r] := by
  cases pending : c.pending with
  | nil => exact .inl rfl
  | cons r rest =>
    rw [pending,List.length_cons] at short
    exact .inr ⟨r,by rw [List.eq_nil_of_length_eq_zero (by omega : rest.length = 0)]⟩

end FMIClient
end FmiTcpMaster
