import FmiTcpMaster.Conformance
import FmiTcpMaster.ConnectionStrings
import FmiTcpMaster.Endpoints

/-! The life of every client, made by connectSlave() and deleted by slaveDisconnected() or ~Master().
Any calls may come in between, and events of the clients that are still there. -/
namespace FmiTcpMaster

def FMIClient.identity (c : FMIClient) : ClientPtr × Nat := (c.self,c.id)

namespace Master

def identities (m : Master) : List (ClientPtr × Nat) := m.slaves.map FMIClient.identity

def getSlave (m : Master) (id : Int) : Option ClientPtr :=
  (m.slaves.find? fun c => (c.id : Int) = id).map FMIClient.self

def disconnectDeletes (m : Master) (client : ClientPtr) : List (ClientPtr × Nat) :=
  ((m.slaves.find? fun c => c.self = client).map FMIClient.identity).toList

def destructorDeletes (m : Master) : List WeakConnection × List (ClientPtr × Nat) := (m.weakConnections,m.identities)

end Master

inductive Op where
  | connectSlave (uri : String)
  | createConnector (slave : ClientPtr) (memory : StrongConnector)
  | setValueRefs (slave : ClientPtr) (i : Nat) (call : ValueRefsCall)
  | createWeakConnection (slaveA slaveB : ClientPtr) (valueReferenceA valueReferenceB : Int)
  | addStrongConnection (conn : StrongConnection)
  | setTimeStep (timeStep : ℚ)
  | setEnableEndTime (enable : Bool)
  | setEndTime (endTime : ℚ)
  | setWeakMethod (algorithm : WeakCouplingAlgorithm)
  | event (e : Event)
  | tick

namespace Op

/- A client that was deleted has no handlers. -/
def perform (M : MasterMain.Machine) (K : Coupling) (m : Master) : Op → Except (Ending ⊕ Fault) Master
  | .connectSlave uri => ((m.connectSlave M.undefined (M.allocate m) uri).map Prod.snd).mapError .inl
  | .createConnector slave memory => (m.createConnector slave memory).mapError .inr
  | .setValueRefs slave i call => (m.setValueRefs slave i call).mapError .inr
  | .createWeakConnection slaveA slaveB vrA vrB => .ok (m.createWeakConnection slaveA slaveB vrA vrB)
  | .addStrongConnection conn => .ok (m.addStrongConnection conn)
  | .setTimeStep timeStep => .ok (m.setTimeStep timeStep)
  | .setEnableEndTime enable => .ok (m.setEnableEndTime enable)
  | .setEndTime endTime => .ok (m.setEndTime endTime)
  | .setWeakMethod algorithm => .ok (m.setWeakMethod algorithm)
  | .event e => if e.slave ∈ m.addresses then (m.handle K e).mapError .inr else .error (.inr .deletedClient)
  | .tick => (m.tick K).mapError .inr

def creates (M : MasterMain.Machine) (m : Master) : Op → List (ClientPtr × Nat)
  | .connectSlave _ => [(M.allocate m,m.slaveIdCounter)]
  | _ => []

def deletes (m : Master) : Op → List (ClientPtr × Nat)
  | .event (.disconnect client) => m.disconnectDeletes client
  | _ => []

def connects : Op → Bool
  | .connectSlave _ => true
  | _ => false

theorem createsLength (M : MasterMain.Machine) (m : Master) (op : Op) :
    (op.creates M m).length = if op.connects then 1 else 0 := by
  cases op <;> rfl

def connection : Op → Option WeakConnection
  | .createWeakConnection slaveA slaveB vrA vrB => some ⟨slaveA,slaveB,vrA,vrB⟩
  | _ => none

end Op

/- A master with all the clients that were made for it and that were deleted, in order. -/
structure Ledger where
  master : Master
  created : List (ClientPtr × Nat)
  deleted : List (ClientPtr × Nat)

namespace Ledger

def start (timeStep : ℚ) : Ledger := ⟨Master.init timeStep,[],[]⟩

def perform (M : MasterMain.Machine) (K : Coupling) (l : Ledger) (op : Op) : Except (Ending ⊕ Fault) Ledger :=
  (op.perform M K l.master).map fun m => ⟨m,l.created ++ op.creates M l.master,l.deleted ++ op.deletes l.master⟩

end Ledger

structure Master.Keeps (m m' : Master) : Prop where
  identities : m'.identities = m.identities
  counter : m'.slaveIdCounter = m.slaveIdCounter
  weakConnections : m'.weakConnections = m.weakConnections

namespace Master

theorem keepsAll (m : Master) : m.Keeps m := ⟨rfl,rfl,rfl⟩

theorem keepsThen {m m₁ m₂ : Master} (first : m.Keeps m₁) (then_ : m₁.Keeps m₂) : m.Keeps m₂ :=
  ⟨then_.identities.trans first.identities,then_.counter.trans first.counter,
    then_.weakConnections.trans first.weakConnections⟩

theorem derefKeeps {m m' : Master} {p : ClientPtr} {f : FMIClient → Except Fault FMIClient}
    (same : ∀ c c', f c = .ok c' → c'.identity = c.identity) (ok : m.deref p f = .ok m') : m.Keeps m' := by
  obtain ⟨slaves,updated,last⟩ := bindOk ok
  cases last
  exact ⟨Keyed.updateKeeps _ FMIClient.identity same updated,rfl,rfl⟩

theorem pushEquationKeeps {K : Coupling} {m m' : Master} {e : Equation} (ok : pushEquation K m e = .ok m') : m.Keeps m' := by
  obtain ⟨m₁,one,ok⟩ := bindOk ok
  obtain ⟨m₂,two,ok⟩ := bindOk ok
  obtain ⟨m₃,three,four⟩ := bindOk ok
  have first : m.Keeps m₁ := derefKeeps (by rintro c _ ⟨rfl⟩; rfl) one
  have second : m₁.Keeps m₂ := derefKeeps (by rintro c _ ⟨rfl⟩; rfl) two
  have third : m₂.Keeps m₃ := derefKeeps (by rintro c _ ⟨rfl⟩; rfl) three
  have fourth : m₃.Keeps m' := derefKeeps (by rintro c _ ⟨rfl⟩; rfl) four
  exact keepsThen (keepsThen first second) (keepsThen third fourth)

theorem startRequestsIdentity {c c' : FMIClient} (ok : startRequests c = .ok c') : c'.identity = c.identity := by
  unfold startRequests at ok
  split at ok
  · cases ok
    rfl
  · unfold FMIClient.shiftExecuteDirectionalDerivativeRequest at ok
    split at ok <;> try contradiction
    cases ok
    rfl

theorem fetchKeeps {K : Coupling} {m m' : Master} (ok : m.fetchDirectionalDerivatives K = .ok m') : m.Keeps m' := by
  obtain ⟨m₁,pushed,ok⟩ := bindOk ok
  obtain ⟨slaves,started,last⟩ := bindOk ok
  cases last
  have reset : m.Keeps {m with
      state := .gettingDirectionalDerivatives
      slaves := m.slaves.map fun c => {c with numDirectionalDerivativesLeft := 0}} :=
    ⟨by rw [identities,List.map_map]; rfl,rfl,rfl⟩
  have equations := Text.foldHolds (I := m.Keeps) (fun _ _ _ before ok => keepsThen before (pushEquationKeeps ok)) reset pushed
  exact keepsThen equations ⟨Keyed.mapMKeeps _ (fun _ _ => startRequestsIdentity) started,rfl,rfl⟩

theorem enterIdentity (g : Control) (c : FMIClient) : (g.enter c).identity = c.identity := by
  unfold Control.enter
  split <;> rfl

theorem tickKeeps {K : Coupling} {m m' : Master} (sound : m.Sound) (ok : m.tick K = .ok m') : m.Keeps m' := by
  cases tickTock sound ok with
  | rests => exact keepsAll m
  | enters opened _ control _ plain =>
    by_cases strong : m.state = .getStrongConnectorStates
    · rw [tickFetches strong opened] at ok
      exact fetchKeeps ok
    · refine ⟨?_,by rw [control]; rfl,by rw [control]; rfl⟩
      rw [identities,plain strong,List.map_map]
      exact List.map_congr_left fun c _ => enterIdentity m.toControl c

theorem absorbIdentity {phase : MasterState} {a : Response} {c c' : FMIClient} (ok : c.absorb phase a = .ok c') :
    c'.identity = c.identity := by
  have delivered : (c.deliver a).identity = c.identity :=
    (congrArg FMIClient.identity (c.deliverFrame a)).trans rfl
  cases a with
  | getReal values status =>
    simp only [FMIClient.absorb] at ok
    split at ok
    · obtain ⟨_,_,last⟩ := bindOk ok
      cases last
      exact delivered
    · obtain ⟨_,_,last⟩ := bindOk ok
      cases last
      exact delivered
    · cases ok
      exact delivered
  | getDirectionalDerivative dz status =>
    simp only [FMIClient.absorb] at ok
    split at ok
    · cases ok
      exact delivered
    · unfold FMIClient.shiftExecuteDirectionalDerivativeRequest at ok
      split at ok <;> try contradiction
      cases ok
      exact delivered
  | _ =>
    cases ok
    exact delivered

theorem writeIdentity {e : Event} {s : MasterState} {c c' : FMIClient} (ok : e.write s c = .ok c') :
    c'.identity = c.identity := by
  cases e with
  | response p a => exact absorbIdentity ok
  | _ => cases ok; rfl

theorem writtenKeeps {m : Master} {l r : List FMIClient} {c c' : FMIClient} (split : m.slaves = l ++ c :: r)
    (same : c'.identity = c.identity) : m.Keeps {m with slaves := l ++ c' :: r} :=
  ⟨by simp only [identities,split,List.map_append,List.map_cons,same],rfl,rfl⟩

theorem handleKeeps {K : Coupling} {m m' : Master} {e : Event} (sound : m.Sound) (own : e.slave ∈ m.addresses)
    (stays : ∀ p, e ≠ .disconnect p) (ok : m.handle K e = .ok m') : m.Keeps m' := by
  obtain ⟨c,mem,self⟩ := List.mem_map.mp own
  obtain ⟨l,r,split⟩ := List.append_of_mem mem
  cases ticks : e.ticks with
  | true =>
    rw [handleWrites ticks self.symm split sound.distinct] at ok
    obtain ⟨c',written,ticked⟩ := bindOk ok
    have same := writeIdentity written
    have writes := writtenKeeps split same
    exact keepsThen writes (tickKeeps (writtenSound sound split (congrArg Prod.fst same)) ticked)
  | false =>
    cases e with
    | connect | response => cases ticks
    | disconnect p => exact absurd rfl (stays p)
    | error p =>
      cases ok
      exact ⟨rfl,rfl,rfl⟩

theorem disconnectSplits {m : Master} {client : ClientPtr} (sound : m.Sound) (own : client ∈ m.addresses) :
    m.identities.Perm ((m.slaveDisconnected client).identities ++ m.disconnectDeletes client) ∧
      (m.slaveDisconnected client).slaveIdCounter = m.slaveIdCounter ∧
      (m.slaveDisconnected client).weakConnections = m.weakConnections := by
  obtain ⟨c,mem,rfl⟩ := List.mem_map.mp own
  obtain ⟨l,r,split⟩ := List.append_of_mem mem
  have deleted : m.disconnectDeletes c.self = [c.identity] := by
    rw [disconnectDeletes,(Keyed.findExact FMIClient.self sound.distinct).mpr ⟨mem,rfl⟩]
    rfl
  rw [deleted,slaveDisconnectedAt split sound.distinct]
  refine ⟨?_,?_,?_⟩
  · rw [identities,identities,split,List.map_append,List.map_append,List.map_cons]
    exact List.perm_middle.trans (List.perm_append_singleton _ _).symm
  · dsimp only
    split <;> rfl
  · dsimp only
    split <;> rfl

end Master

namespace Ledger

structure Balanced (l : Ledger) : Prop where
  sound : l.master.Sound
  ids : l.created.map Prod.snd = List.range l.master.slaveIdCounter
  clients : (l.master.identities ++ l.deleted).Perm l.created

theorem mapErrorSource {E F A : Type} {x : Except E A} {f : E → F} {a : A} (ok : x.mapError f = .ok a) : x = .ok a := by
  cases x with
  | error e => contradiction
  | ok b => exact congrArg Except.ok (Except.ok.inj ok)

theorem keptBalanced {l : Ledger} {m : Master} (balanced : l.Balanced) (sound : m.Sound)
    (identities : m.identities = l.master.identities) (counter : m.slaveIdCounter = l.master.slaveIdCounter) :
    Balanced ⟨m,l.created ++ [],l.deleted ++ []⟩ := by
  refine ⟨sound,?_,?_⟩
  · rw [List.append_nil,counter]
    exact balanced.ids
  · rw [List.append_nil,List.append_nil,identities]
    exact balanced.clients

theorem connectBalanced {l : Ledger} {self : ClientPtr} {host : String} {port : Int} (balanced : l.Balanced)
    (fresh : self ∉ l.master.addresses) :
    Balanced ⟨l.master.connectClient self host port,l.created ++ [(self,l.master.slaveIdCounter)],l.deleted ++ []⟩ := by
  have identities : (l.master.connectClient self host port).identities =
      l.master.identities ++ [(self,l.master.slaveIdCounter)] := by
    rw [Master.identities,Master.connectClient,List.map_append]
    rfl
  refine ⟨⟨Master.connectDistinct balanced.sound.distinct fresh _ _,balanced.sound.resting⟩,?_,?_⟩
  · rw [List.map_append,balanced.ids]
    exact List.range_succ.symm
  · rw [identities,List.append_nil,List.append_assoc]
    refine (List.perm_append_comm.append_left _).trans ?_
    rw [← List.append_assoc]
    exact balanced.clients.append_right _

theorem disconnectBalanced {l : Ledger} {client : ClientPtr} (balanced : l.Balanced) (own : client ∈ l.master.addresses)
    (sound : (l.master.slaveDisconnected client).Sound) :
    Balanced ⟨l.master.slaveDisconnected client,l.created ++ [],l.deleted ++ l.master.disconnectDeletes client⟩ := by
  obtain ⟨identities,counter,_⟩ := Master.disconnectSplits balanced.sound own
  refine ⟨sound,?_,?_⟩
  · rw [List.append_nil,counter]
    exact balanced.ids
  · rw [List.append_nil]
    refine .trans ?_ ((identities.symm.append_right l.deleted).trans balanced.clients)
    rw [List.append_assoc]
    exact List.perm_append_comm.append_left _

theorem performBalanced {M : MasterMain.Machine} {K : Coupling} {l l' : Ledger} {op : Op} (balanced : l.Balanced)
    (ok : l.perform M K op = .ok l') :
    l'.Balanced ∧ l'.master.weakConnections = l.master.weakConnections ++ op.connection.toList := by
  obtain ⟨m,done,rfl⟩ := MasterMain.mapSource ok
  have sound := balanced.sound
  have keeps : ∀ {m : Master}, m.Sound → l.master.Keeps m →
      Balanced ⟨m,l.created ++ [],l.deleted ++ []⟩ ∧ m.weakConnections = l.master.weakConnections ++ [] :=
    fun after kept =>
      ⟨keptBalanced balanced after kept.identities kept.counter,by rw [List.append_nil,kept.weakConnections]⟩
  cases op with
  | connectSlave uri =>
    obtain ⟨⟨p,m'⟩,connected,rfl⟩ := MasterMain.mapSource (mapErrorSource done)
    obtain ⟨host,port,_,rfl,rfl⟩ := Master.connectSlaveSource connected
    exact ⟨connectBalanced balanced (M.fresh l.master),(List.append_nil _).symm⟩
  | createConnector | setValueRefs =>
    have changed := mapErrorSource done
    have after := Master.derefSound sound (by rintro c _ ⟨rfl⟩; rfl) changed
    exact keeps after.1 (Master.derefKeeps (by rintro c _ ⟨rfl⟩; rfl) changed)
  | createWeakConnection slaveA slaveB vrA vrB =>
    cases Except.ok.inj done
    exact ⟨keptBalanced balanced ⟨sound.distinct,sound.resting⟩ rfl rfl,rfl⟩
  | addStrongConnection | setTimeStep | setEnableEndTime | setEndTime | setWeakMethod =>
    cases Except.ok.inj done
    exact keeps ⟨sound.distinct,sound.resting⟩ ⟨rfl,rfl,rfl⟩
  | event e =>
    simp only [Op.perform] at done
    split at done <;> try contradiction
    rename_i own
    have handled := mapErrorSource done
    have after := reactsSound sound (handleReacts sound own handled)
    cases e with
    | disconnect p =>
      cases Except.ok.inj handled
      exact ⟨disconnectBalanced balanced own after,
        (Master.disconnectSplits sound own).2.2.trans (List.append_nil _).symm⟩
    | _ => exact keeps after (Master.handleKeeps sound own (by rintro p ⟨⟩) handled)
  | tick =>
    have ticked := mapErrorSource done
    exact keeps (Master.tockSound sound (Master.tickTock sound ticked)) (Master.tickKeeps sound ticked)

theorem runBalanced {M : MasterMain.Machine} {K : Coupling} {ops : List Op} {l l' : Ledger} (balanced : l.Balanced)
    (ok : ops.foldlM (perform M K) l = .ok l') :
    l'.Balanced ∧ l'.master.weakConnections = l.master.weakConnections ++ ops.filterMap Op.connection := by
  induction ops generalizing l with
  | nil =>
    cases Except.ok.inj ok
    exact ⟨balanced,(List.append_nil _).symm⟩
  | cons op ops ih =>
    rw [List.foldlM_cons] at ok
    obtain ⟨next,performed,rest⟩ := Master.bindOk ok
    obtain ⟨still,first⟩ := performBalanced balanced performed
    obtain ⟨after,others⟩ := ih still rest
    refine ⟨after,others.trans ?_⟩
    rw [first,List.append_assoc,List.filterMap_cons]
    cases op.connection <;> rfl

theorem runCreated {M : MasterMain.Machine} {K : Coupling} {ops : List Op} {l l' : Ledger}
    (ok : ops.foldlM (perform M K) l = .ok l') : l'.created.length = l.created.length+ops.countP Op.connects := by
  induction ops generalizing l with
  | nil =>
    cases Except.ok.inj ok
    rfl
  | cons op ops ih =>
    rw [List.foldlM_cons] at ok
    obtain ⟨next,performed,rest⟩ := Master.bindOk ok
    obtain ⟨m,_,rfl⟩ := MasterMain.mapSource performed
    rw [ih rest,List.length_append,Op.createsLength,List.countP_cons,Nat.add_assoc,Nat.add_comm (ops.countP _)]

theorem getSlaveExact {l : Ledger} (balanced : l.Balanced) (p : ClientPtr) (id : Int) :
    l.master.getSlave id = some p ↔ ∃ n : Nat, id = n ∧ (p,n) ∈ l.created ∧ (p,n) ∉ l.deleted := by
  have ids : ((l.master.identities ++ l.deleted).map Prod.snd).Nodup := by
    rw [(balanced.clients.map Prod.snd).nodup_iff,balanced.ids]
    exact List.nodup_range
  have once := ids.of_map Prod.snd
  rw [List.map_append,List.nodup_append] at ids
  have distinct : (l.master.slaves.map fun c => (c.id : Int)).Nodup := by
    have named : l.master.slaves.map (fun c => (c.id : Int)) = (l.master.identities.map Prod.snd).map Nat.cast := by
      rw [Master.identities,List.map_map,List.map_map]
      rfl
    rw [named]
    exact ids.1.map Nat.cast_injective
  rw [Master.getSlave,Option.map_eq_some_iff]
  constructor
  · rintro ⟨c,found,rfl⟩
    obtain ⟨mem,rfl⟩ := (Keyed.findExact (fun c : FMIClient => (c.id : Int)) distinct).mp found
    have live : (c.self,c.id) ∈ l.master.identities := List.mem_map.mpr ⟨c,mem,rfl⟩
    refine ⟨c.id,rfl,balanced.clients.mem_iff.mp (List.mem_append_left _ live),fun gone => ?_⟩
    exact (List.nodup_append.mp once).2.2 _ live _ gone rfl
  · rintro ⟨n,rfl,made,stays⟩
    rcases List.mem_append.mp (balanced.clients.mem_iff.mpr made) with live | gone
    · obtain ⟨c,mem,same⟩ := List.mem_map.mp live
      obtain ⟨rfl,rfl⟩ := Prod.mk.inj same
      exact ⟨c,(Keyed.findExact (fun c : FMIClient => (c.id : Int)) distinct).mpr ⟨mem,rfl⟩,rfl⟩
    · exact absurd gone stays

/- Whatever is done with a master, each client made for it is deleted once, when it disconnects or
with the master, as is each weak connection; until then getSlave() finds it by its id. The ids are
ints, so that there may be 2^31-1 of them. -/
theorem clientsDeletedOnce {M : MasterMain.Machine} {K : Coupling} {timeStep : ℚ} {ops : List Op} {l : Ledger}
    (few : ops.countP Op.connects < 2^31) (ok : ops.foldlM (perform M K) (start timeStep) = .ok l) :
    l.created.map Prod.snd = List.range (ops.countP Op.connects) ∧ (l.master.slaveIdCounter : Int) ≤ intMax ∧
    (l.master.destructorDeletes.2 ++ l.deleted).Perm l.created ∧
    l.master.destructorDeletes.1 = ops.filterMap Op.connection ∧
    ∀ p id, l.master.getSlave id = some p ↔ ∃ n : Nat, id = n ∧ (p,n) ∈ l.created ∧ (p,n) ∉ l.deleted := by
  have first : (start timeStep).Balanced := ⟨⟨List.nodup_nil,rfl⟩,rfl,.refl _⟩
  obtain ⟨balanced,weak⟩ := runBalanced first ok
  have count : l.master.slaveIdCounter = ops.countP Op.connects := by
    have made := congrArg List.length balanced.ids
    rw [List.length_map,List.length_range,runCreated ok] at made
    exact made.symm.trans (Nat.zero_add _)
  refine ⟨count ▸ balanced.ids,?_,balanced.clients,weak,getSlaveExact balanced⟩
  rw [count,intMax]
  omega

def rejoined : List Op :=
  [.connectSlave "tcp://localhost:3000",.connectSlave "tcp://localhost:3001",.createWeakConnection 1 2 0 0,
    .event (.disconnect 1),.connectSlave "tcp://localhost:3002"]

theorem clientsDeletedOnceRejoined :
    ∃ l, rejoined.foldlM (perform MasterMain.plain .perConstraint) (start 1) = .ok l ∧ l.master.getSlave 0 = none ∧
      (l.master.destructorDeletes.2 ++ l.deleted).Perm [(1,0),(2,1),(3,2)] := by
  obtain ⟨l,ok,created,deleted⟩ : ∃ l, rejoined.foldlM (perform MasterMain.plain .perConstraint) (start 1) = .ok l ∧
      l.created = [(1,0),(2,1),(3,2)] ∧ l.deleted = [(1,0)] := ⟨_,rfl,rfl,rfl⟩
  obtain ⟨_,_,clients,_,found⟩ := clientsDeletedOnce (by decide) ok
  refine ⟨l,ok,Option.eq_none_iff_forall_ne_some.mpr fun p there => ?_,created ▸ clients⟩
  obtain ⟨n,zero,made,stays⟩ := (found p 0).mp there
  cases Int.ofNat.inj zero
  rw [created] at made
  rw [deleted] at stays
  have gone : p = 1 := by simpa using made
  exact stays (by simp [gone])

end Ledger
end FmiTcpMaster
