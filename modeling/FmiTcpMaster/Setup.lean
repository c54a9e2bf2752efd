import FmiTcpMaster.Master

/-! Everything main() may do with a Master before simulate(), and what it leaves behind. The
URI of connectSlave is already parsed here; `self` is the address that `new` returned. -/
namespace FmiTcpMaster

inductive ValueRefsCall where
  | position (x y z : Int)
  | quaternion (x y z w : Int)
  | velocity (x y z : Int)
  | angularVelocity (x y z : Int)
  | force (x y z : Int)
  | torque (x y z : Int)
  deriving DecidableEq, Repr

def StrongConnector.apply (k : StrongConnector) : ValueRefsCall → StrongConnector
  | .position x y z => k.setPositionValueRefs x y z
  | .quaternion x y z w => k.setQuaternionValueRefs x y z w
  | .velocity x y z => k.setVelocityValueRefs x y z
  | .angularVelocity x y z => k.setAngularVelocityValueRefs x y z
  | .force x y z => k.setForceValueRefs x y z
  | .torque x y z => k.setTorqueValueRefs x y z

theorem applyUserData (k : StrongConnector) (call : ValueRefsCall) :
    (k.apply call).conn.userData = k.conn.userData := by
  cases call <;> rfl

/- StrongConnection::StrongConnection with CONNECTION_LOCK, the only type there is. -/
def StrongConnection.lock (connA connB : StrongConnector) : Except Fault StrongConnection :=
  if connA.hasPosition && connB.hasPosition && connA.hasQuaternion && connB.hasQuaternion &&
      connA.hasVelocity && connB.hasVelocity && connA.hasAngularVelocity && connB.hasAngularVelocity &&
      connA.hasForce && connB.hasForce && connA.hasTorque && connB.hasTorque then
    .ok ⟨⟨connA.conn.userData,connB.conn.userData⟩⟩
  else .error .exitFailure

theorem lockEnds {connA connB : StrongConnector} {s : StrongConnection}
    (ok : StrongConnection.lock connA connB = .ok s) :
    s.constraint = ⟨connA.conn.userData,connB.conn.userData⟩ := by
  unfold StrongConnection.lock at ok
  split at ok <;> try contradiction
  cases Except.ok.inj ok
  rfl

namespace Master

/- Master::init(); m_timeStep and m_method are not written there. -/
def init (timeStep : ℚ) : Master where
  state := .connectingSlaves
  slaveIdCounter := 0
  weakConnections := []
  strongConnections := []
  constraints := []
  relativeTolerance := 1/10000
  timeStep := timeStep
  startTime := 0
  endTime := 10
  endTimeDefined := false
  method := none
  time := 0
  exits := 0
  slaves := []

def connectClient (m : Master) (self : ClientPtr) (host : String) (port : Int) : Master :=
  let client := ((FMIClient.construct self).connect host port).setId m.slaveIdCounter
  {m with slaves := m.slaves ++ [client], slaveIdCounter := m.slaveIdCounter+1}

def createConnector (m : Master) (slave : ClientPtr) (memory : StrongConnector) : Except Fault Master :=
  m.deref slave fun c => .ok (c.createConnector memory)

def setValueRefs (m : Master) (slave : ClientPtr) (i : Nat) (call : ValueRefsCall) : Except Fault Master :=
  m.deref slave fun c => .ok {c with strongConnectors := c.strongConnectors.modify i (·.apply call)}

def createWeakConnection (m : Master) (slaveA slaveB : ClientPtr) (valueReferenceA valueReferenceB : Int) : Master :=
  {m with weakConnections := m.weakConnections ++ [⟨slaveA,slaveB,valueReferenceA,valueReferenceB⟩]}

def addStrongConnection (m : Master) (conn : StrongConnection) : Master :=
  {m with constraints := m.constraints ++ [conn.constraint], strongConnections := m.strongConnections ++ [conn]}

def setTimeStep (m : Master) (timeStep : ℚ) : Master := {m with timeStep := timeStep}
def setEnableEndTime (m : Master) (enable : Bool) : Master := {m with endTimeDefined := enable}
def setEndTime (m : Master) (endTime : ℚ) : Master := {m with endTime := endTime}
def setWeakMethod (m : Master) (algorithm : WeakCouplingAlgorithm) : Master := {m with method := some algorithm}

def weakEnds (m : Master) : List ClientPtr := m.weakConnections.flatMap fun w => [w.slaveA,w.slaveB]
def strongEnds (m : Master) : List ClientPtr := m.constraints.flatMap fun s => [s.userDataA,s.userDataB]

inductive Configured : Master → Prop where
  | init (timeStep : ℚ) : Configured (init timeStep)
  | connectSlave {m} (before : Configured m) (self host port) (fresh : self ∉ m.addresses) :
      Configured (m.connectClient self host port)
  | createConnector {m m' slave memory} (before : Configured m) (ok : m.createConnector slave memory = .ok m') :
      Configured m'
  | setValueRefs {m m' slave i call} (before : Configured m) (ok : m.setValueRefs slave i call = .ok m') :
      Configured m'
  | createWeakConnection {m a b} (before : Configured m) (own : a ∈ m.addresses ∧ b ∈ m.addresses) (vrA vrB) :
      Configured (m.createWeakConnection a b vrA vrB)
  | addStrongConnection {m a b connA connB conn} (before : Configured m) (own : a ∈ m.slaves ∧ b ∈ m.slaves)
      (connectors : connA ∈ a.strongConnectors ∧ connB ∈ b.strongConnectors)
      (ok : StrongConnection.lock connA connB = .ok conn) : Configured (m.addStrongConnection conn)
  | setTimeStep {m} (before : Configured m) (timeStep) : Configured (m.setTimeStep timeStep)
  | setEnableEndTime {m} (before : Configured m) (enable) : Configured (m.setEnableEndTime enable)
  | setEndTime {m} (before : Configured m) (endTime) : Configured (m.setEndTime endTime)
  | setWeakMethod {m} (before : Configured m) (algorithm) : Configured (m.setWeakMethod algorithm)

end Master

structure FMIClient.Fresh (c : FMIClient) : Prop where
  connected : c.connected = false
  answered : c.answered = []
  pending : c.pending = []
  initialized : c.initialized = false
  vRefs : c.ddVRefs = []
  zRefs : c.ddZRefs = []
  dvs : c.ddDvs = []
  owned : ∀ k ∈ c.strongConnectors, k.conn.userData = c.self

structure Master.Fresh (m : Master) : Prop where
  state : m.state = .connectingSlaves
  time : m.time = 0
  exits : m.exits = 0
  distinct : m.addresses.Nodup
  clients : ∀ c ∈ m.slaves, c.Fresh
  solver : m.constraints = m.strongConnections.map StrongConnection.constraint
  weak : ∀ p ∈ m.weakEnds, p ∈ m.addresses
  strong : ∀ p ∈ m.strongEnds, p ∈ m.addresses

namespace Master

theorem constructFresh (self : ClientPtr) : (FMIClient.construct self).Fresh where
  connected := rfl
  answered := rfl
  pending := rfl
  initialized := rfl
  vRefs := rfl
  zRefs := rfl
  dvs := rfl
  owned := by simp [FMIClient.construct]

theorem derefSource {m m' : Master} {p : ClientPtr} {f : FMIClient → Except Fault FMIClient}
    (distinct : m.addresses.Nodup) (ok : m.deref p f = .ok m') :
    ∃ l c r c', m.slaves = l ++ c :: r ∧ c.self = p ∧ f c = .ok c' ∧ m' = {m with slaves := l ++ c' :: r} := by
  by_cases present : p ∈ m.addresses
  · obtain ⟨c,mem,rfl⟩ := List.mem_map.mp present
    obtain ⟨l,r,split,before,_⟩ := Keyed.splitAt FMIClient.self distinct mem
    refine ⟨l,c,r,?_⟩
    simp only [deref,split,Keyed.updateAt FMIClient.self before] at ok
    cases h : f c with
    | error e => simp [h,Except.map,bind,Except.bind] at ok
    | ok c' =>
      simp only [h,Except.map,bind,Except.bind,Except.ok.injEq] at ok
      exact ⟨c',split,rfl,rfl,ok.symm⟩
  · simp [deref,Keyed.updateMissing FMIClient.self present,bind,Except.bind] at ok

theorem derefAt {m : Master} {l r : List FMIClient} {c : FMIClient} {f : FMIClient → Except Fault FMIClient}
    (split : m.slaves = l ++ c :: r) (distinct : m.addresses.Nodup) :
    m.deref c.self f = (f c).map fun c' => {m with slaves := l ++ c' :: r} := by
  have before : c.self ∉ l.map FMIClient.self := by
    rw [addresses,split,List.map_append,List.map_cons,List.nodup_append] at distinct
    exact fun inside => distinct.2.2 _ inside _ List.mem_cons_self rfl
  simp only [deref,split,Keyed.updateAt FMIClient.self before]
  cases f c <;> rfl

theorem derefFresh {m m' : Master} {p : ClientPtr} {f : FMIClient → Except Fault FMIClient} (fresh : m.Fresh)
    (keeps : ∀ c c', c.Fresh → f c = .ok c' → c'.Fresh ∧ c'.self = c.self) (ok : m.deref p f = .ok m') :
    m'.Fresh := by
  obtain ⟨l,c,r,c',split,rfl,applied,rfl⟩ := derefSource fresh.distinct ok
  have clients := fresh.clients
  rw [split] at clients
  obtain ⟨good,same⟩ := keeps c c' (clients c (by simp)) applied
  have addresses : Master.addresses {m with slaves := l ++ c' :: r} = m.addresses := by
    simp [Master.addresses,split,same]
  refine ⟨fresh.state,fresh.time,fresh.exits,?_,?_,fresh.solver,?_,?_⟩
  · exact addresses ▸ fresh.distinct
  · rw [List.forall_mem_append,List.forall_mem_cons] at clients ⊢
    exact ⟨clients.1,good,clients.2.2⟩
  · exact fun p mem => addresses ▸ fresh.weak p mem
  · exact fun p mem => addresses ▸ fresh.strong p mem

theorem connectAddresses (m : Master) (self : ClientPtr) (host port) :
    (m.connectClient self host port).addresses = m.addresses ++ [self] := by
  simp [addresses,connectClient,FMIClient.construct,FMIClient.connect,FMIClient.setId]

theorem connectDistinct {m : Master} (distinct : m.addresses.Nodup) {self : ClientPtr} (new : self ∉ m.addresses)
    (host port) : (m.connectClient self host port).addresses.Nodup := by
  rw [connectAddresses,List.nodup_append]
  refine ⟨distinct,by simp,?_⟩
  rintro a mem b hb rfl
  exact new (List.mem_singleton.mp hb ▸ mem)

theorem connectFresh {m : Master} (fresh : m.Fresh) {self : ClientPtr} (new : self ∉ m.addresses) (host port) :
    (m.connectClient self host port).Fresh := by
  have addresses := connectAddresses m self host port
  refine ⟨fresh.state,fresh.time,fresh.exits,connectDistinct fresh.distinct new host port,?_,fresh.solver,?_,?_⟩
  · intro c mem
    rcases List.mem_append.mp mem with old | added
    · exact fresh.clients c old
    · cases List.mem_singleton.mp added
      have base := constructFresh self
      exact ⟨base.connected,base.answered,base.pending,base.initialized,base.vRefs,base.zRefs,base.dvs,base.owned⟩
  · exact fun p mem => addresses ▸ List.mem_append_left _ (fresh.weak p mem)
  · exact fun p mem => addresses ▸ List.mem_append_left _ (fresh.strong p mem)

theorem createConnectorFresh {c : FMIClient} (fresh : c.Fresh) (memory) : (c.createConnector memory).Fresh := by
  refine ⟨fresh.connected,fresh.answered,fresh.pending,fresh.initialized,fresh.vRefs,fresh.zRefs,fresh.dvs,?_⟩
  intro k mem
  rcases List.mem_append.mp mem with old | added
  · exact fresh.owned k old
  · cases List.mem_singleton.mp added
    rfl

theorem modifyFresh {c : FMIClient} (fresh : c.Fresh) (i call) :
    FMIClient.Fresh {c with strongConnectors := c.strongConnectors.modify i (·.apply call)} := by
  refine ⟨fresh.connected,fresh.answered,fresh.pending,fresh.initialized,fresh.vRefs,fresh.zRefs,fresh.dvs,?_⟩
  intro k mem
  obtain ⟨n,found⟩ := List.mem_iff_getElem?.mp mem
  rw [List.getElem?_modify] at found
  obtain ⟨old,atOld,same⟩ := Option.map_eq_some_iff.mp found
  have owned := fresh.owned old (List.mem_of_getElem? atOld)
  rw [← same]
  split
  · exact (applyUserData old call).trans owned
  · exact owned

theorem configuredFresh {m : Master} (configured : Configured m) : m.Fresh := by
  induction configured with
  | init timeStep => exact ⟨rfl,rfl,rfl,by simp [addresses,init],by simp [init],rfl,by simp [weakEnds,init],by simp [strongEnds,init]⟩
  | connectSlave _ self host port new ih => exact connectFresh ih new host port
  | createConnector _ ok ih =>
    refine derefFresh ih (fun c c' fresh applied => ?_) ok
    cases Except.ok.inj applied
    exact ⟨createConnectorFresh fresh _,rfl⟩
  | setValueRefs _ ok ih =>
    refine derefFresh ih (fun c c' fresh applied => ?_) ok
    cases Except.ok.inj applied
    exact ⟨modifyFresh fresh _ _,rfl⟩
  | createWeakConnection _ own vrA vrB ih =>
    refine ⟨ih.state,ih.time,ih.exits,ih.distinct,ih.clients,ih.solver,?_,ih.strong⟩
    intro p mem
    simp only [weakEnds,Master.createWeakConnection,List.flatMap_append,List.mem_append] at mem
    rcases mem with old | added
    · exact ih.weak p old
    · simp only [List.flatMap_cons,List.flatMap_nil,List.append_nil,List.mem_cons,List.not_mem_nil,or_false] at added
      rcases added with rfl | rfl
      · exact own.1
      · exact own.2
  | @addStrongConnection m a b connA connB conn _ own connectors ok ih =>
    have ends := lockEnds ok
    refine ⟨ih.state,ih.time,ih.exits,ih.distinct,ih.clients,?_,ih.weak,?_⟩
    · simp [Master.addStrongConnection,ih.solver]
    · intro p mem
      simp only [strongEnds,Master.addStrongConnection,List.flatMap_append,List.mem_append] at mem
      rcases mem with old | added
      · exact ih.strong p old
      · rw [ends,(ih.clients a own.1).owned connA connectors.1,(ih.clients b own.2).owned connB connectors.2] at added
        simp only [List.flatMap_cons,List.flatMap_nil,List.append_nil,List.mem_cons,List.not_mem_nil,or_false] at added
        rcases added with rfl | rfl
        · exact List.mem_map.mpr ⟨a,own.1,rfl⟩
        · exact List.mem_map.mpr ⟨b,own.2,rfl⟩
  | setTimeStep _ _ ih | setEnableEndTime _ _ ih | setEndTime _ _ ih | setWeakMethod _ _ ih =>
    exact ⟨ih.state,ih.time,ih.exits,ih.distinct,ih.clients,ih.solver,ih.weak,ih.strong⟩

def pair : Master :=
  ((((init 1).connectClient 1 "localhost" 3000).connectClient 2 "localhost" 3001).setEnableEndTime true).setEndTime 1

theorem pairConfigured : Configured pair :=
  .setEndTime (.setEnableEndTime (.connectSlave (.connectSlave (.init 1) 1 _ _ (by decide)) 2 _ _ (by decide)) _) _

def blank : StrongConnector where
  conn := ⟨0,fun _ => 0,fun _ => 0,fun _ => 0,fun _ => 0,fun _ => 0,fun _ => 0,fun _ => 0,fun _ => 0⟩
  hasPosition := false
  vrefPosition _ := 0
  hasQuaternion := false
  vrefQuaternion _ := 0
  hasVelocity := false
  vrefVelocity _ := 0
  hasAngularVelocity := false
  vrefAngularVelocity _ := 0
  hasForce := false
  vrefForce _ := 0
  hasTorque := false
  vrefTorque _ := 0

def allGroups : List ValueRefsCall :=
  [.position 0 1 2,.quaternion 3 4 5 6,.velocity 7 8 9,.angularVelocity 10 11 12,.force 13 14 15,.torque 16 17 18]

def lockable (slave : ClientPtr) : StrongConnector := allGroups.foldl StrongConnector.apply (blank.construct slave)

def coupled : Master :=
  (addStrongConnection {pair with slaves := pair.slaves.map fun c => {c with strongConnectors := [lockable c.self]}}
    ⟨⟨1,2⟩⟩).createWeakConnection 1 2 0 0

theorem setValueRefsAll {m m' : Master} {slave : ClientPtr} {calls : List ValueRefsCall} (before : Configured m)
    (ok : calls.foldlM (fun m call => m.setValueRefs slave 0 call) m = .ok m') : Configured m' := by
  induction calls generalizing m with
  | nil => cases Except.ok.inj ok; exact before
  | cons call calls ih =>
    rw [List.foldlM_cons] at ok
    cases first : m.setValueRefs slave 0 call with
    | error f => simp [first,bind,Except.bind] at ok
    | ok next => exact ih (.setValueRefs before first) (by simpa [first,bind,Except.bind] using ok)

theorem lockableConfigured {m m' : Master} (before : Configured m) (slave : ClientPtr)
    (ok : (m.createConnector slave blank).bind (fun m => allGroups.foldlM (fun m call => m.setValueRefs slave 0 call) m) =
      .ok m') : Configured m' := by
  cases created : m.createConnector slave blank with
  | error f => simp [created,Except.bind] at ok
  | ok next => exact setValueRefsAll (.createConnector before created) (by simpa only [created,Except.bind] using ok)

theorem coupledConfigured : Configured coupled := by
  have both := lockableConfigured (lockableConfigured pairConfigured 1 rfl) 2 rfl
  have locked := Configured.addStrongConnection both ⟨List.mem_cons_self,List.mem_cons_of_mem _ List.mem_cons_self⟩
    ⟨List.mem_cons_self,List.mem_cons_self⟩ rfl
  exact .createWeakConnection locked ⟨by decide,by decide⟩ 0 0

end Master
end FmiTcpMaster
