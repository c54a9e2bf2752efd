import FmiTcpMaster.Wire
import Mathlib.Data.Fintype.Pi
import Mathlib.Data.Fin.VecNotation

/-! StrongConnector and the fields of the sc::Connector it owns. The constructor writes
m_userData only: flags, references and components keep whatever the memory held. -/
namespace FmiTcpMaster

structure ScConnector where
  userData : ClientPtr
  position : Fin 3 → ℚ
  quaternion : Fin 4 → ℚ
  velocity : Fin 3 → ℚ
  angularVelocity : Fin 3 → ℚ
  force : Fin 3 → ℚ
  torque : Fin 3 → ℚ
  futureVelocity : Fin 3 → ℚ
  futureAngularVelocity : Fin 3 → ℚ
  deriving DecidableEq, Repr

structure StrongConnector where
  conn : ScConnector
  hasPosition : Bool
  vrefPosition : Fin 3 → Int
  hasQuaternion : Bool
  vrefQuaternion : Fin 4 → Int
  hasVelocity : Bool
  vrefVelocity : Fin 3 → Int
  hasAngularVelocity : Bool
  vrefAngularVelocity : Fin 3 → Int
  hasForce : Bool
  vrefForce : Fin 3 → Int
  hasTorque : Bool
  vrefTorque : Fin 3 → Int
  deriving DecidableEq, Repr

namespace StrongConnector

def construct (memory : StrongConnector) (slave : ClientPtr) : StrongConnector :=
  {memory with conn := {memory.conn with userData := slave}}

def setPositionValueRefs (c : StrongConnector) (x y z : Int) : StrongConnector :=
  {c with hasPosition := true, vrefPosition := ![x,y,z]}

def setQuaternionValueRefs (c : StrongConnector) (x y z w : Int) : StrongConnector :=
  {c with hasQuaternion := true, vrefQuaternion := ![x,y,z,w]}

def setVelocityValueRefs (c : StrongConnector) (x y z : Int) : StrongConnector :=
  {c with hasVelocity := true, vrefVelocity := ![x,y,z]}

def setAngularVelocityValueRefs (c : StrongConnector) (x y z : Int) : StrongConnector :=
  {c with hasAngularVelocity := true, vrefAngularVelocity := ![x,y,z]}

def setForceValueRefs (c : StrongConnector) (x y z : Int) : StrongConnector :=
  {c with hasForce := true, vrefForce := ![x,y,z]}

def setTorqueValueRefs (c : StrongConnector) (x y z : Int) : StrongConnector :=
  {c with hasTorque := true, vrefTorque := ![x,y,z]}

def valueRefs {n : Nat} (has : Bool) (vref : Fin n → Int) : List Int :=
  if has then List.ofFn vref else []

def getPositionValueRefs (c : StrongConnector) : List Int := valueRefs c.hasPosition c.vrefPosition
def getQuaternionValueRefs (c : StrongConnector) : List Int := valueRefs c.hasQuaternion c.vrefQuaternion
def getVelocityValueRefs (c : StrongConnector) : List Int := valueRefs c.hasVelocity c.vrefVelocity
def getAngularVelocityValueRefs (c : StrongConnector) : List Int :=
  valueRefs c.hasAngularVelocity c.vrefAngularVelocity
def getForceValueRefs (c : StrongConnector) : List Int := valueRefs c.hasForce c.vrefForce
def getTorqueValueRefs (c : StrongConnector) : List Int := valueRefs c.hasTorque c.vrefTorque

theorem memValueRefs {n : Nat} {has : Bool} {vref : Fin n → Int} (set : has = true) (j : Fin n) :
    vref j ∈ valueRefs has vref := by
  simp [valueRefs,set,List.mem_ofFn]

def scatter {n : Nat} (vref : Fin n → Int) (vr : Int) (val : ℚ) (component : Fin n → ℚ) : Fin n → ℚ :=
  fun j => if vr = vref j then val else component j

def setValue (c : StrongConnector) (vr : Int) (val : ℚ) : StrongConnector :=
  {c with conn := {c.conn with
    position := scatter c.vrefPosition vr val c.conn.position
    velocity := scatter c.vrefVelocity vr val c.conn.velocity
    angularVelocity := scatter c.vrefAngularVelocity vr val c.conn.angularVelocity
    force := scatter c.vrefForce vr val c.conn.force
    torque := scatter c.vrefTorque vr val c.conn.torque
    quaternion := scatter c.vrefQuaternion vr val c.conn.quaternion}}

def setFutureValue (c : StrongConnector) (vr : Int) (val : ℚ) : StrongConnector :=
  {c with conn := {c.conn with
    futureVelocity := scatter c.vrefVelocity vr val c.conn.futureVelocity
    futureAngularVelocity := scatter c.vrefAngularVelocity vr val c.conn.futureAngularVelocity}}

def assignValues (c : StrongConnector) (pairs : List (Int × ℚ)) : StrongConnector :=
  pairs.foldl (fun c p => c.setValue p.1 p.2) c

def assignFutureValues (c : StrongConnector) (pairs : List (Int × ℚ)) : StrongConnector :=
  pairs.foldl (fun c p => c.setFutureValue p.1 p.2) c

def setValues (c : StrongConnector) (valueReferences : List Int) (values : List ℚ) :
    Except Fault StrongConnector :=
  if valueReferences.length = values.length then .ok (c.assignValues (valueReferences.zip values))
  else .error .assertion

def setFutureValues (c : StrongConnector) (valueReferences : List Int) (values : List ℚ) :
    Except Fault StrongConnector :=
  if valueReferences.length = values.length then .ok (c.assignFutureValues (valueReferences.zip values))
  else .error .assertion

def layout (c : StrongConnector) : StrongConnector :=
  {c with conn := ⟨c.conn.userData,fun _ => 0,fun _ => 0,fun _ => 0,fun _ => 0,fun _ => 0,fun _ => 0,fun _ => 0,fun _ => 0⟩}

theorem layoutAssign (c : StrongConnector) (pairs : List (Int × ℚ)) : (c.assignValues pairs).layout = c.layout := by
  induction pairs generalizing c with
  | nil => rfl
  | cons p ps ih => exact ih (c.setValue p.1 p.2)

theorem layoutAssignFuture (c : StrongConnector) (pairs : List (Int × ℚ)) :
    (c.assignFutureValues pairs).layout = c.layout := by
  induction pairs generalizing c with
  | nil => rfl
  | cons p ps ih => exact ih (c.setFutureValue p.1 p.2)

end StrongConnector
end FmiTcpMaster
