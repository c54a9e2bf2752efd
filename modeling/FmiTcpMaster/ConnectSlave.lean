import FmiTcpMaster.Common
import FmiTcpMaster.Setup
import FmiTcpMaster.UrlParser

/-! Master::connectSlave, from the URI as it stands on the command line to the client that is
added to m_slaves. -/
namespace FmiTcpMaster

def cStr (uri : String) : List Char := uri.toList.takeWhile (· ≠ '\x00')

namespace Master

/- parse_url returns NULL for what it cannot read, and leaves the port NULL when there is none.
`client` is the address of the new FMIClient. -/
def connectSlave (undefined : Int) (m : Master) (client : ClientPtr) (uri : String) :
    Except Ending (ClientPtr × Master) :=
  match ParsedUrl.parse (cStr uri) with
  | none => .error .nullPointer
  | some url =>
    match url.port with
    | none => .error .nullPointer
    | some port => .ok (client,m.connectClient client (String.ofList url.host) (atoi undefined port))

structure Endpoint (uri : String) (host port : List Char) : Prop where
  names : ParsedUrl.Names (cStr uri) host port
  decimal : Text.Numeral port
  least : 1 ≤ Text.value port
  most : Text.value port ≤ 65535

structure Appends (m m' : Master) (p : ClientPtr) (host port : List Char) (client : FMIClient) : Prop where
  after : m' = {m with slaves := m.slaves ++ [client], slaveIdCounter := m.slaveIdCounter+1}
  self : client.self = p
  id : client.id = m.slaveIdCounter
  host : client.host = String.ofList host
  port : client.port = Text.value port

/- Either the client of an endpoint is added, or a failure is reported: by the exit status, or by
whatever is returned while the slaves and their counter stay as they were. -/
def ConnectsOrFails (m : Master) (uri : String) : Except Ending (ClientPtr × Master) → Prop
  | .ok (p,m') => (∃ host port client, Endpoint uri host port ∧ Appends m m' p host port client) ∨
      (m'.slaves = m.slaves ∧ m'.slaveIdCounter = m.slaveIdCounter)
  | .error e => ∃ help, e = .failure help

theorem connectSlaveAt (undefined : Int) (m : Master) (client : ClientPtr) {uri : String} {host port : List Char}
    (names : ParsedUrl.Names (cStr uri) host port) :
    m.connectSlave undefined client uri = .ok (client,m.connectClient client (String.ofList host) (atoi undefined port)) := by
  obtain ⟨url,parsed,rfl,given⟩ := ParsedUrl.namesParse names
  simp only [connectSlave,parsed,given]

theorem connectSlaveSource {undefined : Int} {m m' : Master} {client p : ClientPtr} {uri : String}
    (ok : m.connectSlave undefined client uri = .ok (p,m')) :
    ∃ host port, ParsedUrl.Names (cStr uri) host port ∧ p = client ∧
      m' = m.connectClient client (String.ofList host) (atoi undefined port) := by
  unfold connectSlave at ok
  split at ok <;> try contradiction
  rename_i url parsed
  split at ok <;> try contradiction
  rename_i port given
  obtain ⟨rfl,rfl⟩ := Prod.mk.inj (Except.ok.inj ok)
  exact ⟨url.host,port,ParsedUrl.parseNames parsed given,rfl,rfl⟩

theorem connectSlaveFails {undefined : Int} {m : Master} {client : ClientPtr} {uri : String} {e : Ending}
    (failed : m.connectSlave undefined client uri = .error e) : e = .nullPointer := by
  unfold connectSlave at failed
  split at failed
  · exact (Except.error.inj failed).symm
  · split at failed
    · exact (Except.error.inj failed).symm
    · contradiction

theorem connectSlaveAppends (undefined : Int) (m : Master) (client : ClientPtr) {uri : String} {host port : List Char}
    (there : Endpoint uri host port) :
    ∃ m' new, m.connectSlave undefined client uri = .ok (client,m') ∧ Appends m m' client host port new := by
  have fits : (Text.value port : Int) ≤ intMax := le_trans (Int.ofNat_le.mpr there.most) (by decide)
  refine ⟨_,_,connectSlaveAt undefined m client there.names,⟨rfl,rfl,rfl,rfl,?_⟩⟩
  exact atoiNumeral undefined there.decimal fits

theorem connectSlaveExact (undefined : Int) (m : Master) (client : ClientPtr) (uri : String) :
    ConnectsOrFails m uri (m.connectSlave undefined client uri) ↔ ∃ host port, Endpoint uri host port := by
  constructor
  · intro settled
    cases result : m.connectSlave undefined client uri with
    | error e =>
      rw [result,connectSlaveFails result] at settled
      obtain ⟨_,same⟩ := settled
      contradiction
    | ok pair =>
      rw [result] at settled
      rcases settled with ⟨host,port,_,there,_⟩ | ⟨unchanged,_⟩
      · exact ⟨host,port,there⟩
      · -- connectSlave never returns without having added a client
        obtain ⟨_,_,_,_,after⟩ := connectSlaveSource result
        rw [after] at unchanged
        simp [connectClient] at unchanged
  · rintro ⟨host,port,there⟩
    obtain ⟨m',new,connected,appends⟩ := connectSlaveAppends undefined m client there
    rw [connected]
    exact .inl ⟨host,port,new,there,appends⟩

theorem nullUnreported {m : Master} {uri : String} : ¬ ConnectsOrFails m uri (.error .nullPointer) := by
  rintro ⟨_,same⟩
  contradiction

theorem connectSlaveWrong :
    let m := init (1/10)
    ¬ ConnectsOrFails m "--timeStep" (m.connectSlave 0 1 "--timeStep") ∧
      ¬ ConnectsOrFails m "tcp://fmiserver.com" (m.connectSlave 0 1 "tcp://fmiserver.com") ∧
      ¬ ConnectsOrFails m "tcp://fmiserver.com:99999" (m.connectSlave 0 1 "tcp://fmiserver.com:99999") := by
  refine ⟨nullUnreported,nullUnreported,?_⟩
  have written : (init (1/10)).connectSlave 0 1 "tcp://fmiserver.com:99999" =
      .ok (1,(init (1/10)).connectClient 1 "fmiserver.com" 99999) := rfl
  rw [written]
  rintro (⟨host,port,client,there,appends⟩ | ⟨unchanged,_⟩)
  · have slaves := congrArg Master.slaves appends.after
    have same : [((FMIClient.construct 1).connect "fmiserver.com" 99999).setId 0] = [client] := slaves
    have reached := appends.port
    rw [← (List.cons.inj same).1] at reached
    have most : (Text.value port : Int) ≤ 65535 := Int.ofNat_le.mpr there.most
    rw [← reached] at most
    exact absurd most (by decide)
  · exact absurd unchanged (by decide)

end Master
end FmiTcpMaster
