import FmiTcpMaster.SlaveOptions
import FmiTcpMaster.Endpoints
import FmiTcpMaster.Simulation

/-! main() of the test program: two slaves at neighbouring ports, locked to each other and with a
weak connection, simulated for one step. -/
namespace FmiTcpMaster

def Master.getConnector (m : Master) (slave : ClientPtr) (i : Nat) : Except Fault StrongConnector :=
  match (m.slaves.find? fun c => c.self = slave).bind fun c => c.strongConnectors[i]? with
  | none => .error .deletedClient
  | some connector => .ok connector

namespace TestMain
open SlaveOptions

/- What main() gets from elsewhere: the addresses of new clients, the memory of new connectors,
whether the servers could read the FMU, and what atoi() and string_to_int() leave open. -/
structure Machine where
  allocate : Master → ClientPtr
  fresh : ∀ m, allocate m ∉ m.addresses
  memory : ClientPtr → StrongConnector
  isFmuParsed : String → Bool
  undefined : Int
  result : Int

def start : Master := (((Master.init 0).setTimeStep (1/10)).setEnableEndTime true).setEndTime (1/10)

def uri (hostName : String) (port : Int) : String := "tcp://" ++ hostName ++ ":" ++ toString port

def setAllValueRefs (m : Master) (slave : ClientPtr) : Except Fault Master :=
  Master.allGroups.foldlM (fun m call => m.setValueRefs slave 0 call) m

def couple (K : Machine) (m : Master) (slaveA slaveB : ClientPtr) : Except Fault Master := do
  let m ← m.createConnector slaveA (K.memory slaveA)
  let m ← m.createConnector slaveB (K.memory slaveB)
  let m ← setAllValueRefs m slaveA
  let m ← setAllValueRefs m slaveB
  let connA ← m.getConnector slaveA 0
  let connB ← m.getConnector slaveB 0
  let sconn ← StrongConnection.lock connA connB
  .ok ((m.addStrongConnection sconn).createWeakConnection slaveA slaveB 0 0)

def serve (K : Machine) (o : Options) : Except (Ending ⊕ Fault) Master :=
  let fmuPath := if o.fmuPath = "" then "dummy" else o.fmuPath
  if !K.isFmuParsed fmuPath then .error (.inl (.failure false))
  else do
    let (slaveA,m) ← (start.connectSlave K.undefined (K.allocate start) (uri o.hostName o.port)).mapError .inl
    let (slaveB,m) ← (m.connectSlave K.undefined (K.allocate m) (uri o.hostName (o.port+1))).mapError .inl
    (couple K m slaveA slaveB).mapError .inr

def main (K : Machine) (argv : List String) : Except (Ending ⊕ Fault) Master := do
  let o ← (testLoop K.result argv).mapError .inl
  serve K o

def locked (K : Machine) (slave : ClientPtr) : StrongConnector :=
  Master.allGroups.foldl StrongConnector.apply ((K.memory slave).construct slave)

theorem setAllAt {m : Master} {l r : List FMIClient} {c : FMIClient} {k : StrongConnector} (split : m.slaves = l ++ c :: r)
    (distinct : m.addresses.Nodup) (only : c.strongConnectors = [k]) (calls : List ValueRefsCall) :
    calls.foldlM (fun m call => m.setValueRefs c.self 0 call) m =
      .ok {m with slaves := l ++ {c with strongConnectors := [calls.foldl StrongConnector.apply k]} :: r} := by
  induction calls generalizing m c k with
  | nil =>
    have same : m = {m with slaves := l ++ c :: r} := by rw [← split]
    rw [List.foldl_nil,← only]
    exact congrArg Except.ok same
  | cons call calls ih =>
    have first : m.setValueRefs c.self 0 call =
        .ok {m with slaves := l ++ {c with strongConnectors := [k.apply call]} :: r} := by
      rw [Master.setValueRefs,Master.derefAt split distinct,only]
      rfl
    rw [List.foldlM_cons,first]
    exact ih (c := {c with strongConnectors := [k.apply call]}) rfl (Master.replaceDistinct split rfl distinct) rfl

def made (K : Machine) (c : FMIClient) : FMIClient := {c with strongConnectors := [(K.memory c.self).construct c.self]}
def coupler (K : Machine) (c : FMIClient) : FMIClient := {c with strongConnectors := [locked K c.self]}

theorem createAt (K : Machine) {m : Master} {l r : List FMIClient} {c : FMIClient} (split : m.slaves = l ++ c :: r)
    (distinct : m.addresses.Nodup) (none : c.strongConnectors = []) :
    m.createConnector c.self (K.memory c.self) = .ok {m with slaves := l ++ made K c :: r} := by
  rw [Master.createConnector,Master.derefAt split distinct,FMIClient.createConnector,none]
  rfl

theorem setMadeAt (K : Machine) {m : Master} {l r : List FMIClient} {c : FMIClient} (split : m.slaves = l ++ made K c :: r)
    (distinct : m.addresses.Nodup) : setAllValueRefs m c.self = .ok {m with slaves := l ++ coupler K c :: r} :=
  setAllAt split distinct rfl Master.allGroups

def coupled (K : Machine) (m : Master) (a b : FMIClient) : Master :=
  {m with
    slaves := [coupler K a,coupler K b]
    constraints := m.constraints ++ [⟨a.self,b.self⟩]
    strongConnections := m.strongConnections ++ [⟨⟨a.self,b.self⟩⟩]
    weakConnections := m.weakConnections ++ [⟨a.self,b.self,0,0⟩]}

theorem coupleTwo (K : Machine) {m : Master} {a b : FMIClient} (two : m.slaves = [a,b]) (other : a.self ≠ b.self)
    (noneA : a.strongConnectors = []) (noneB : b.strongConnectors = []) :
    couple K m a.self b.self = .ok (coupled K m a b) := by
  have distinct : ∀ {c d : FMIClient} {n : Master}, n.slaves = [c,d] → c.self = a.self → d.self = b.self → n.addresses.Nodup := by
    intro c d n slaves first second
    simp [Master.addresses,slaves,first,second,other]
  have madeA := createAt K (l := []) two (distinct two rfl rfl) noneA
  have madeB := createAt K (m := {m with slaves := [made K a,b]}) (l := [made K a]) (r := []) rfl (distinct rfl rfl rfl) noneB
  have setA := setMadeAt K (m := {m with slaves := [made K a,made K b]}) (l := []) rfl (distinct rfl rfl rfl)
  have setB := setMadeAt K (m := {m with slaves := [coupler K a,made K b]}) (l := [coupler K a]) (r := []) rfl
    (distinct rfl rfl rfl)
  rw [couple,madeA]
  simp only [bind,Except.bind,List.nil_append,List.singleton_append] at madeB setA setB ⊢
  simp only [madeB,setA,setB]
  have ends : (coupler K a).self = a.self ∧ (coupler K b).self = b.self := ⟨rfl,rfl⟩
  simp only [Master.getConnector,List.find?_cons,ends,decide_true,Option.bind_some,other,decide_false]
  rfl

theorem connectorSource {m : Master} {slave : ClientPtr} {i : Nat} {k : StrongConnector} (ok : m.getConnector slave i = .ok k) :
    ∃ c ∈ m.slaves, c.self = slave ∧ k ∈ c.strongConnectors := by
  unfold Master.getConnector at ok
  split at ok <;> try contradiction
  rename_i found
  cases Except.ok.inj ok
  obtain ⟨c,first,at_⟩ := Option.bind_eq_some_iff.mp found
  exact ⟨c,List.mem_of_find?_eq_some first,by simpa using List.find?_some first,List.mem_of_getElem? at_⟩

theorem coupleConfigured {K : Machine} {m m' : Master} {slaveA slaveB : ClientPtr} (configured : Master.Configured m)
    (ok : couple K m slaveA slaveB = .ok m') : Master.Configured m' := by
  obtain ⟨m₁,madeA,ok⟩ := Master.bindOk ok
  obtain ⟨m₂,madeB,ok⟩ := Master.bindOk ok
  obtain ⟨m₃,setA,ok⟩ := Master.bindOk ok
  obtain ⟨m₄,setB,ok⟩ := Master.bindOk ok
  obtain ⟨connA,atA,ok⟩ := Master.bindOk ok
  obtain ⟨connB,atB,ok⟩ := Master.bindOk ok
  obtain ⟨sconn,lock,last⟩ := Master.bindOk ok
  cases last
  obtain ⟨a,memA,selfA,insideA⟩ := connectorSource atA
  obtain ⟨b,memB,selfB,insideB⟩ := connectorSource atB
  have both := Master.setValueRefsAll (Master.setValueRefsAll
    (.createConnector (.createConnector configured madeA) madeB) setA) setB
  refine .createWeakConnection (.addStrongConnection both ⟨memA,memB⟩ ⟨insideA,insideB⟩ lock) ⟨?_,?_⟩ 0 0
  · exact List.mem_map.mpr ⟨a,memA,selfA⟩
  · exact List.mem_map.mpr ⟨b,memB,selfB⟩

theorem lockedReferences (K : Machine) {c : FMIClient} {slave : ClientPtr} (only : c.strongConnectors = [locked K slave]) :
    c.getStrongConnectorValueReferences = [0,1,2,3,4,5,6,7,8,9,10,11,12] := by
  rw [FMIClient.getStrongConnectorValueReferences,only]
  rfl

theorem uriNames {hostName : String} (named : HostName hostName) (port : Nat) :
    ParsedUrl.Names (cStr (uri hostName port)) hostName.toList (Nat.toDigits 10 port) := slaveUriNames named port

def client (self : ClientPtr) (hostName : String) (port : Int) (id : Nat) : FMIClient :=
  ((FMIClient.construct self).connect hostName port).setId id

theorem connects (K : Machine) (m : Master) {hostName : String} (named : HostName hostName) {port : Nat}
    (fits : (port : Int) ≤ intMax) : m.connectSlave K.undefined (K.allocate m) (uri hostName port) =
      .ok (K.allocate m,m.connectClient (K.allocate m) hostName port) := by
  have read : atoi K.undefined (Nat.toDigits 10 port) = port := by
    have value := decimalValue port
    rw [atoiNumeral K.undefined (decimalNumeral port) (by rw [value]; exact fits),value]
  have connected := Master.connectSlaveAt K.undefined m (K.allocate m) (uriNames named port)
  rwa [read,String.ofList_toList] at connected

theorem portGiven {words : List Word} (valid : ∀ w ∈ words, w.Valid) (path : String) :
    ∃ n : Nat, (given words path).port = n ∧ 1 ≤ n ∧ n ≤ 65535 := by
  suffices kept : ∀ o : Options, (∃ n : Nat, o.port = n ∧ 1 ≤ n ∧ n ≤ 65535) →
      ∃ n : Nat, (words.foldl Word.set o).port = n ∧ 1 ≤ n ∧ n ≤ 65535 from
    kept SlaveOptions.start ⟨3000,rfl,by decide,by decide⟩
  induction words with
  | nil => exact fun _ first => first
  | cons w ws ih =>
    intro o first
    refine ih (fun v mem => valid v (List.mem_cons_of_mem _ mem)) _ ?_
    cases w with
    | port nextArg => exact ⟨_,rfl,(valid _ List.mem_cons_self).2⟩
    | _ => exact first

def fmuPath (words : List Word) : String := (pathsOf words).getLast?.getD "dummy"

theorem pathNonempty {words : List Word} (valid : ∀ w ∈ words, w.Valid) :
    (if ((pathsOf words).getLast?.getD "") = "" then "dummy" else (pathsOf words).getLast?.getD "") = fmuPath words := by
  unfold fmuPath
  cases last : (pathsOf words).getLast? with
  | none => rfl
  | some path =>
    obtain ⟨w,mem,value⟩ := List.mem_flatMap.mp (List.mem_of_getLast? last)
    cases w with
    | fmuPath arg =>
      cases List.mem_singleton.mp value
      exact if_neg (valid _ mem).nonempty
    | _ => cases value

structure Prepared (K : Machine) (o : Options) (m : Master) : Prop where
  configured : Master.Configured m
  made : ∃ p q, m = coupled K ((start.connectClient p o.hostName o.port).connectClient q o.hostName (o.port+1))
    (client p o.hostName o.port 0) (client q o.hostName (o.port+1) 1)

theorem mainMakes {K : Machine} {words : List Word} (valid : ∀ w ∈ words, w.Valid)
    (named : HostName (given words "").hostName) (parsed : K.isFmuParsed (fmuPath words) = true) :
    ∃ m, main K (commandLine words) = .ok m ∧ Prepared K (given words "") m := by
  obtain ⟨port,at_,_,most⟩ := portGiven valid ""
  have fits : (port : Int) ≤ intMax := le_trans (Int.ofNat_le.mpr most) (by decide)
  have fitsNext : ((port+1 : Nat) : Int) ≤ intMax := le_trans (Int.ofNat_le.mpr (Nat.succ_le_succ most)) (by decide)
  generalize hostName : (given words "").hostName = host at named
  obtain ⟨m₁,one⟩ : ∃ m₁, m₁ = start.connectClient (K.allocate start) host port := ⟨_,rfl⟩
  obtain ⟨m₂,two⟩ : ∃ m₂, m₂ = m₁.connectClient (K.allocate m₁) host (port+1 : Nat) := ⟨_,rfl⟩
  have other : K.allocate start ≠ K.allocate m₁ := by
    intro same
    have fresh := K.fresh m₁
    rw [← same,one] at fresh
    exact fresh List.mem_cons_self
  have slaves : m₂.slaves = [client (K.allocate start) host port 0,client (K.allocate m₁) host (port+1 : Nat) 1] := by
    rw [two,one]
    rfl
  have couples := coupleTwo K slaves other rfl rfl
  have configured : Master.Configured m₂ := by
    rw [two]
    refine .connectSlave ?_ _ _ _ (K.fresh m₁)
    rw [one]
    exact .connectSlave (.setEndTime (.setEnableEndTime (.setTimeStep (.init 0) _) _) _) _ _ _ (K.fresh start)
  refine ⟨_,?_,coupleConfigured configured couples,K.allocate start,K.allocate m₁,?_⟩
  · have first := connects K start named fits
    have second := connects K m₁ named fitsNext
    have path : (given words ((pathsOf words).getLast?.getD "")).fmuPath = (pathsOf words).getLast?.getD "" := rfl
    have host_ : (given words ((pathsOf words).getLast?.getD "")).hostName = host := hostName
    have port_ : (given words ((pathsOf words).getLast?.getD "")).port = port := at_
    rw [← one] at first
    rw [← two] at second
    rw [main,testLoopGiven valid]
    show serve K _ = _
    simp only [serve,path,host_,port_,pathNonempty valid,parsed,first,Except.mapError]
    simp only [Bool.not_true,Bool.false_eq_true,if_false,bind,Except.bind]
    rw [show ((port : Int)+1) = ((port+1 : Nat) : Int) by push_cast; rfl,second]
    exact congrArg (Except.mapError Sum.inr) couples
  · rw [hostName,at_,two,one]
    rfl

theorem referencesKept (K : Coupling) (E : Environment) (Q : List Int → Prop) :
    Rounds.KeepsUnder (rounds K E) (fun g => g.state.resting = true) (fun g c => InPhase g.state c)
      (fun _ : Unit => fun _ => True) fun _ _ c => Q c.getStrongConnectorValueReferences where
  move := by
    intro _ g c c' _ phase _ _ held moved
    rcases moveCases phase moved with ⟨_,rfl⟩ | ⟨r,a,reply⟩
    · exact held
    · rw [absorbedReferences reply.absorbed]
      exact held
  turn := by
    intro _ g ps g' ps' _ phases _ held all turned
    refine turnHolds () phases all turned trivial fun c mem => ?_
    rw [enteredReferences]
    exact held c mem
  disturb := by
    intro _ g ps g' ps' _ _ _ held disturbed
    exact disturbHolds () disturbed (fun _ => trivial) fun _ => held

theorem preparedReferences {K : Machine} {C : Coupling} {o : Options} {m m' : Master} (prepared : Prepared K o m)
    (run : Run C .reliable m m') :
    ∀ c ∈ m'.slaves, c.getStrongConnectorValueReferences = [0,1,2,3,4,5,6,7,8,9,10,11,12] := by
  obtain ⟨configured,p,q,made⟩ := prepared
  have first : ∀ d ∈ m.slaves, d.getStrongConnectorValueReferences = [0,1,2,3,4,5,6,7,8,9,10,11,12] := by
    rw [made]
    exact List.forall_mem_cons.mpr ⟨lockedReferences K rfl,List.forall_mem_singleton.mpr (lockedReferences K rfl)⟩
  obtain ⟨_,_,kept⟩ := reachKeeps configured (referencesKept C .reliable (· = _)) ⟨(),trivial,first⟩ run
  exact kept

theorem endedOnce {C : Cycle} {refs : List Int} {rs : List Request} (strong : C.strong) (weak : C.weak)
    (sent : C.Sent refs 0 .done rs) : ∃ ds, rs =
      C.startup ++ (C.strongRequests refs 0 ds ++ Cycle.weakRequests ++ [.doStep 0 C.timeStep true]) := by
  cases sent with
  | iterate _ begun => cases begun
  | ended all =>
    cases all with
    | next before last =>
      cases before
      obtain ⟨part,weakly⟩ := last
      rw [Nat.cast_zero,zero_mul] at part
      cases part with
      | absent none => exact absurd strong none
      | present _ ds =>
        cases weakly with
        | absent none => exact absurd weak none
        | present =>
          refine ⟨ds,?_⟩
          rw [Nat.cast_zero,zero_mul]
          rfl

def planned (ds : List DerivativeRequest) : List Request :=
  let refs := [0,1,2,3,4,5,6,7,8,9,10,11,12]
  [.getXml,.instantiate,.initializeSlave true (1/10000) 0 true (1/10)] ++
    ([.getFmuState,.doStep 0 (1/10) true,.getReal refs,.setFmuState 0,.getReal refs] ++
      ds.map .getDirectionalDerivative ++ [.setReal [] []] ++ [.getReal [],.setReal [] []] ++ [.doStep 0 (1/10) true])

/- Whatever the options, the two slaves are at the given host and port and at the next port, and every
simulation is one iteration with the strong and the weak coupling in it. -/
theorem optionsSimulate {K : Machine} {C : Coupling} {words : List Word} (valid : ∀ w ∈ words, w.Valid)
    (named : HostName (given words "").hostName) (parsed : K.isFmuParsed (fmuPath words) = true)
    (couples : C.Couples) (solver : ∀ ps, C.Over ps) :
    let o := given words ""
    ∃ m, main K (commandLine words) = .ok m ∧
      m.slaves.map (fun c => (c.host,c.port)) = [(o.hostName,o.port),(o.hostName,o.port+1)] ∧
      (¬ ∃ run : Nat → Master, run 0 = m ∧ ∀ n, ∃ e, Step C .reliable (run n) e (run (n+1))) ∧
      (∀ m₁, Run C .reliable m m₁ → ∃ m', m₁.Simulates C .reliable m') ∧
      ∀ m', m.Simulates C .reliable m' → m'.state = .done ∧ m'.time = 1/10 ∧ m'.addresses = m.addresses ∧
        ∀ c ∈ m'.slaves, c.pending = [] ∧ ∃ ds, c.requests = planned ds := by
  intro o
  obtain ⟨m,ok,configured,p,q,made⟩ := mainMakes valid named parsed
  refine ⟨m,ok,by rw [made]; rfl,?_⟩
  have fresh := Master.configuredFresh configured
  have nonempty : m.slaves ≠ [] := by rw [made]; exact List.cons_ne_nil _ _
  have size : m.timeStep = 1/10 := by rw [made]; rfl
  have ends : m.endTime = 1/10 := by rw [made]; rfl
  have step : 0 < m.timeStep := by rw [size]; norm_num
  have enabled : m.endTimeDefined = true := by rw [made]; rfl
  have end_ : 0 < m.endTime := by rw [ends]; norm_num
  have once : ⌈m.endTime/m.timeStep⌉₊ = 1 := by rw [ends,size]; norm_num
  refine ⟨?_,fun m₁ run => simulates configured step enabled end_ (fun m₁ run bounds stuck =>
    stuckDone configured nonempty couples (solver _) run bounds stuck) run,fun m' ended => ?_⟩
  · have lock := freshLockstep fresh
    have bounds := reachBounds configured step enabled end_ (.refl : Run C .reliable m m)
    exact Rounds.noInfiniteRun (stepsTerminate lock (roundsTerminate lock bounds))
  · obtain ⟨run,done⟩ := simulated configured step enabled end_ ended
    obtain ⟨time,k,iterations,slaves⟩ := doneSent configured step enabled end_ run done
    rw [once] at time iterations
    cases Nat.succ.inj iterations
    refine ⟨done,by rw [time,size]; norm_num,lastingAddresses configured run,fun c mem => ⟨(slaves c mem).1,?_⟩⟩
    have references := preparedReferences ⟨configured,p,q,made⟩ run c mem
    have strong : m.toControl.cycle.strong := by rw [made]; exact List.cons_ne_nil _ _
    have weak : m.toControl.cycle.weak := by rw [made]; exact List.cons_ne_nil _ _
    obtain ⟨ds,sent⟩ := endedOnce strong weak (slaves c mem).2
    refine ⟨ds,?_⟩
    rw [sent,references,made]
    rfl

def dummy : Machine where
  allocate := MasterMain.plain.allocate
  fresh := MasterMain.plain.fresh
  memory _ := Master.blank
  isFmuParsed fmuPath := fmuPath = "dummy"
  undefined := 0
  result := 0

theorem optionsSimulateDummy :
    ∃ m, main dummy (commandLine [.logging "7",.port "1024"]) = .ok m ∧
      m.slaves.map (fun c => (c.host,c.port)) = [("localhost",1024),("localhost",1025)] ∧
      ∀ m', m.Simulates .perConstraint .reliable m' → m'.state = .done ∧ m'.time = 1/10 := by
  have valid : ∀ w ∈ [Word.logging "7",.port "1024"], w.Valid :=
    List.forall_mem_cons.mpr ⟨⟨by decide,by decide⟩,List.forall_mem_singleton.mpr ⟨by decide,by decide,by decide⟩⟩
  obtain ⟨m,ok,slaves,_,_,ends⟩ := optionsSimulate (K := dummy) valid Master.localhostNamed rfl perConstraintCouples perConstraintOver
  exact ⟨m,ok,slaves,fun m' simulated => ⟨(ends m' simulated).1,(ends m' simulated).2.1⟩⟩

end TestMain
end FmiTcpMaster
