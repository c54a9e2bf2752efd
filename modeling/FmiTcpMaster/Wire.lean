import Mathlib.Data.Rat.Defs

/-! What crosses the TCP connection between the master and one slave. The message id
and the FMU id of every call are the constant 0 in the source and are left out. -/
namespace FmiTcpMaster

/- The address of an FMIClient object, as held by m_slaves, by a connection or in the
void* m_userData of an sc::Connector. -/
abbrev ClientPtr := Nat

/- What ends the program without a result: a failed assert, exit(EXIT_FAILURE), or one of
the two accesses that C++ leaves undefined. -/
inductive Fault where
  | assertion
  | exitFailure
  | emptyQueue
  | deletedClient
  deriving DecidableEq, Repr

inductive JmStatus where
  | error | success | warning
  deriving DecidableEq, Repr

inductive Fmi2Status where
  | ok | warning | discard | error | fatal | pending
  deriving DecidableEq, Repr

def JmStatus.failing : JmStatus → Bool
  | .error => true
  | _ => false

def Fmi2Status.failing : Fmi2Status → Bool
  | .error | .fatal => true
  | _ => false

/- One entry of the three parallel vectors m_dd_v_refs, m_dd_z_refs and m_dd_dvs. -/
structure DerivativeRequest where
  vRef : List Int
  zRef : List Int
  dv : List ℚ
  deriving DecidableEq, Repr

inductive Request where
  | getXml
  | instantiate
  | initializeSlave (toleranceDefined : Bool) (relativeTolerance startTime : ℚ)
      (stopTimeDefined : Bool) (stopTime : ℚ)
  | getFmuState
  | setFmuState (stateId : Int)
  | doStep (currentTime stepSize : ℚ) (newStep : Bool)
  | getReal (valueRefs : List Int)
  | setReal (valueRefs : List Int) (values : List ℚ)
  | getDirectionalDerivative (request : DerivativeRequest)
  deriving DecidableEq, Repr

inductive Response where
  | getXml
  | instantiate (status : JmStatus)
  | initializeSlave (status : Fmi2Status)
  | terminate (status : Fmi2Status)
  | freeInstance
  | doStep (status : Fmi2Status)
  | getVersion
  | setReal (status : Fmi2Status)
  | getReal (values : List ℚ) (status : Fmi2Status)
  | getFmuState (stateId : Int) (status : Fmi2Status)
  | setFmuState (status : Fmi2Status)
  | freeFmuState (status : Fmi2Status)
  | getDirectionalDerivative (dz : List ℚ) (status : Fmi2Status)
  deriving DecidableEq, Repr

def Response.failing : Response → Bool
  | .instantiate s => s.failing
  | .initializeSlave s | .terminate s | .doStep s | .setReal s | .getReal _ s | .getFmuState _ s
  | .setFmuState s | .freeFmuState s | .getDirectionalDerivative _ s => s.failing
  | .getXml | .freeInstance | .getVersion => false

def Response.answers : Response → Request → Bool
  | .getXml, .getXml
  | .instantiate _, .instantiate
  | .initializeSlave _, .initializeSlave ..
  | .getFmuState .., .getFmuState
  | .setFmuState _, .setFmuState _
  | .doStep _, .doStep ..
  | .setReal _, .setReal ..
  | .getDirectionalDerivative .., .getDirectionalDerivative _ => true
  | .getReal values _, .getReal refs => values.length == refs.length
  | _, _ => false

structure Exchange where
  request : Request
  response : Response
  deriving DecidableEq, Repr

theorem everyRequestHasAnswer (r : Request) : ∃ a : Response, a.answers r = true := by
  cases r with
  | getXml => exact ⟨.getXml,rfl⟩
  | instantiate => exact ⟨.instantiate .success,rfl⟩
  | initializeSlave => exact ⟨.initializeSlave .ok,rfl⟩
  | getFmuState => exact ⟨.getFmuState 0 .ok,rfl⟩
  | setFmuState => exact ⟨.setFmuState .ok,rfl⟩
  | doStep => exact ⟨.doStep .ok,rfl⟩
  | getReal refs => exact ⟨.getReal (refs.map fun _ => 0) .ok,by simp [Response.answers]⟩
  | setReal => exact ⟨.setReal .ok,rfl⟩
  | getDirectionalDerivative => exact ⟨.getDirectionalDerivative [] .ok,rfl⟩

end FmiTcpMaster
