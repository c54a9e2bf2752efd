import FmiTcpMaster.ConnectSlave
import FmiTcpMaster.Heard

/-! The URIs that the test program builds, a host name and a port in decimal, and the ids that
connectSlave hands out, whatever is done with the master in between. -/
namespace FmiTcpMaster

def slaveUri (hostName : String) (port : Nat) : String := "tcp://" ++ hostName ++ ":" ++ toString port

structure HostName (host : String) : Prop where
  nonempty : host ≠ ""
  clean : ∀ c ∈ host.toList, c ≠ ':' ∧ c ≠ '/' ∧ c ≠ '@' ∧ c ≠ '\x00'
  plain : host.toList.head? ≠ some '['

theorem decimalClean {n : Nat} {d : Char} (other : d.isDigit = false) : d ∉ Nat.toDigits 10 n := by
  intro mem
  have digit := (decimalNumeral n).digits d mem
  rw [other] at digit
  contradiction

theorem slaveUriChars (host : String) (port : Nat) :
    (slaveUri host port).toList =
      "tcp".toList ++ ':' :: '/' :: '/' :: ([] ++ (host.toList ++ ':' :: (Nat.toDigits 10 port ++ []))) := by
  simp [slaveUri,String.toList_append]

theorem slaveUriWhole {host : String} (named : HostName host) (port : Nat) :
    cStr (slaveUri host port) = (slaveUri host port).toList := by
  refine List.takeWhile_eq_self_iff.mpr fun c mem => ?_
  rw [decide_eq_true_eq]
  rintro rfl
  rw [slaveUriChars] at mem
  simp only [List.mem_append,List.mem_cons,List.not_mem_nil,or_false,false_or] at mem
  rcases mem with scheme | same | same | same | inside | same | port
  · exact absurd scheme (by decide)
  · exact absurd same (by decide)
  · exact absurd same (by decide)
  · exact absurd same (by decide)
  · exact (named.clean _ inside).2.2.2 rfl
  · exact absurd same (by decide)
  · exact decimalClean (by decide) port

theorem slaveUriNames {host : String} (named : HostName host) (port : Nat) :
    ParsedUrl.Names (cStr (slaveUri host port)) host.toList (Nat.toDigits 10 port) := by
  rw [slaveUriWhole named,slaveUriChars]
  have nonempty : host.toList ≠ [] := fun none => named.nonempty (String.toList_eq_nil_iff.mp none)
  refine .url (by decide) (.absent fun mem => ?_) (.name nonempty named.plain fun c mem => ?_) ?_ (by simp)
  · -- no user: there is no '@' up to the end of the port
    have mem := (List.takeWhile_sublist _).subset mem
    simp only [List.mem_append,List.mem_cons,List.not_mem_nil,or_false] at mem
    rcases mem with host | same | port
    · exact (named.clean _ host).2.2.1 rfl
    · exact absurd same (by decide)
    · exact decimalClean (by decide) port
  · exact ⟨(named.clean c mem).1,(named.clean c mem).2.1⟩
  · exact decimalClean (by decide)

namespace Master

/- What can be done with a master other than connectSlave(): the rest of what main() does before
simulate(), the handlers of its slaves, and tick(). -/
inductive Call (K : Coupling) (m : Master) : Master → Prop where
  | createConnector {m' slave memory} (ok : m.createConnector slave memory = .ok m') : Call K m m'
  | setValueRefs {m' slave i call} (ok : m.setValueRefs slave i call = .ok m') : Call K m m'
  | createWeakConnection (slaveA slaveB vrA vrB) : Call K m (m.createWeakConnection slaveA slaveB vrA vrB)
  | addStrongConnection (conn) : Call K m (m.addStrongConnection conn)
  | setTimeStep (timeStep) : Call K m (m.setTimeStep timeStep)
  | setEnableEndTime (enable) : Call K m (m.setEnableEndTime enable)
  | setEndTime (endTime) : Call K m (m.setEndTime endTime)
  | setWeakMethod (algorithm) : Call K m (m.setWeakMethod algorithm)
  | handle {m' e} (own : e.slave ∈ m.addresses) (ok : m.handle K e = .ok m') : Call K m m'
  | tick {m'} (ok : m.tick K = .ok m') : Call K m m'

inductive Session (K : Coupling) : Master → List Nat → Prop where
  | init (timeStep : ℚ) : Session K (init timeStep) []
  | connectSlave {m m' ids undefined self uri p c} (before : Session K m ids) (fresh : self ∉ m.addresses)
      (ok : m.connectSlave undefined self uri = .ok (p,m')) (mem : c ∈ m'.slaves) (returned : c.self = p) :
      Session K m' (ids ++ [c.id])
  | call {m m' ids} (before : Session K m ids) (step : Call K m m') : Session K m' ids

theorem derefSound {m m' : Master} {p : ClientPtr} {f : FMIClient → Except Fault FMIClient} (sound : m.Sound)
    (self : ∀ c c', f c = .ok c' → c'.self = c.self) (ok : m.deref p f = .ok m') :
    m'.Sound ∧ m'.slaveIdCounter = m.slaveIdCounter := by
  obtain ⟨control,same⟩ := derefAddresses sound.distinct self ok
  refine ⟨⟨same ▸ sound.distinct,?_⟩,congrArg Control.slaveIdCounter control⟩
  rw [show m'.state = m.state from congrArg Control.state control]
  exact sound.resting

theorem tockCounter {m m' : Master} (tock : Tock m m') : m'.slaveIdCounter = m.slaveIdCounter := by
  cases tock with
  | rests => rfl
  | enters _ _ control _ _ =>
    rw [control]
    rfl

theorem reactsCounter {m m' : Master} (reacts : Reacts m m') : m'.slaveIdCounter = m.slaveIdCounter := by
  cases reacts with
  | ticks _ _ _ tock => exact (tockCounter tock).trans rfl
  | leaves control _ =>
    obtain ⟨n,control⟩ := control
    rw [control]

theorem callSound {K : Coupling} {m m' : Master} (sound : m.Sound) (step : Call K m m') :
    m'.Sound ∧ m'.slaveIdCounter = m.slaveIdCounter := by
  cases step with
  | createConnector ok | setValueRefs ok =>
    refine derefSound sound ?_ ok
    rintro c _ ⟨rfl⟩
    rfl
  | createWeakConnection | addStrongConnection | setTimeStep | setEnableEndTime | setEndTime | setWeakMethod =>
    exact ⟨⟨sound.distinct,sound.resting⟩,rfl⟩
  | handle own ok =>
    have reacts := handleReacts sound own ok
    exact ⟨reactsSound sound reacts,reactsCounter reacts⟩
  | tick ok =>
    have tock := tickTock sound ok
    exact ⟨tockSound sound tock,tockCounter tock⟩

theorem connectedId {m : Master} {self : ClientPtr} {host : String} {port : Int} {c : FMIClient} (fresh : self ∉ m.addresses)
    (mem : c ∈ (m.connectClient self host port).slaves) (returned : c.self = self) : c.id = m.slaveIdCounter := by
  rcases List.mem_append.mp mem with old | new
  · exact absurd (returned ▸ List.mem_map_of_mem old) fresh
  · rw [List.mem_singleton.mp new]
    rfl

theorem sessionIds {K : Coupling} {m : Master} {ids : List Nat} (session : Session K m ids) :
    m.Sound ∧ ids = List.range m.slaveIdCounter := by
  induction session with
  | init timeStep => exact ⟨⟨List.nodup_nil,rfl⟩,rfl⟩
  | connectSlave _ fresh ok mem returned ih =>
    obtain ⟨sound,below⟩ := ih
    obtain ⟨_,_,_,rfl,rfl⟩ := connectSlaveSource ok
    refine ⟨⟨connectDistinct sound.distinct fresh _ _,sound.resting⟩,?_⟩
    rw [connectedId fresh mem returned,below]
    exact List.range_succ.symm
  | call _ step ih =>
    obtain ⟨sound,same⟩ := callSound ih.1 step
    exact ⟨sound,same ▸ ih.2⟩

/- connect() gets the host and the port of the URI, and the new client, the only one, an id that no
client was given before: the counter is an int, and has room for as many. -/
theorem namedEndpoint {K : Coupling} {m : Master} {ids : List Nat} (session : Session K m ids) (undefined : Int)
    (self : ClientPtr) {host : String} {port : Nat} (named : HostName host) (ports : 1 ≤ port ∧ port ≤ 65535) :
    ∃ id client, m.connectSlave undefined self (slaveUri host port) =
        .ok (self,{m with slaves := m.slaves ++ [client], slaveIdCounter := m.slaveIdCounter+1}) ∧
      client = ((FMIClient.construct self).connect host port).setId id ∧
      client.self = self ∧ client.host = host ∧ client.port = port ∧ client.id = id ∧
      id ∉ ids ∧ (ids.length+1 < 2^31 → ((m.slaveIdCounter+1 : Nat) : Int) ≤ intMax) := by
  obtain ⟨_,below⟩ := sessionIds session
  have count : ids.length = m.slaveIdCounter := by rw [below,List.length_range]
  have fits : (Text.value (Nat.toDigits 10 port) : Int) ≤ intMax := by
    rw [decimalValue]
    exact le_trans (Int.ofNat_le.mpr ports.2) (by decide)
  refine ⟨m.slaveIdCounter,_,?_,rfl,rfl,rfl,rfl,rfl,?_,fun few => ?_⟩
  · rw [connectSlaveAt undefined m self (slaveUriNames named port),atoiNumeral undefined (decimalNumeral port) fits,
      decimalValue,String.ofList_toList]
    rfl
  · rw [below,List.mem_range]
    exact Nat.lt_irrefl _
  · rw [count] at few
    rw [intMax]
    omega

theorem localhostNamed : HostName "localhost" := ⟨by decide,by simp,by simp⟩

theorem namedEndpointLocalhost :
    let m := (init 1).connectClient 1 "localhost" 3000
    ∃ id client, m.connectSlave 0 2 (slaveUri "localhost" 3001) =
        .ok (2,{m with slaves := m.slaves ++ [client], slaveIdCounter := m.slaveIdCounter+1}) ∧
      client = ((FMIClient.construct 2).connect "localhost" (3001 : Nat)).setId id ∧
      client.self = 2 ∧ client.host = "localhost" ∧ client.port = (3001 : Nat) ∧ client.id = id ∧
      id ∉ [0] ∧ ([0].length+1 < 2^31 → ((m.slaveIdCounter+1 : Nat) : Int) ≤ intMax) := by
  intro m
  have first : (init 1).connectSlave 0 1 "tcp://localhost:3000" = .ok (1,m) := rfl
  have session : Session .perConstraint m [0] := .connectSlave (.init 1) (by decide) first List.mem_cons_self rfl
  have ports : 1 ≤ 3001 ∧ 3001 ≤ 65535 := by decide
  exact namedEndpoint session 0 2 localhostNamed ports

end Master
end FmiTcpMaster
