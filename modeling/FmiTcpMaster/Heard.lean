import FmiTcpMaster.Schedule

/-! Runs in which slaves may send any message at any moment, and all that one call of tick()
can do in them. What survives is that addresses are distinct and that the master rests. -/
namespace FmiTcpMaster

def Event.slave : Event → ClientPtr
  | .connect p | .response p _ | .disconnect p | .error p => p

abbrev Heard (K : Coupling) := Relation.ReflTransGen fun m m' : Master =>
  ∃ e : Event, e.slave ∈ m.addresses ∧ m.handle K e = .ok m'

theorem stepHeard {K : Coupling} {E : Environment} {m m' : Master} {e : Event} (step : Step K E m e m') :
    e.slave ∈ m.addresses ∧ m.handle K e = .ok m' := by
  cases step with
  | connect mem _ handled => exact ⟨List.mem_map_of_mem mem,handled⟩
  | response mem _ _ _ handled => exact ⟨List.mem_map_of_mem mem,handled⟩
  | disconnect mem _ handled => exact ⟨List.mem_map_of_mem mem,handled⟩
  | error mem _ handled => exact ⟨List.mem_map_of_mem mem,handled⟩

theorem runHeard {K : Coupling} {E : Environment} {m m' : Master} (run : Run K E m m') : Heard K m m' := by
  induction run with
  | refl => exact .refl
  | tail _ step ih =>
    obtain ⟨e,step⟩ := step
    exact ih.tail ⟨e,stepHeard step⟩

namespace Master

structure Sound (m : Master) : Prop where
  distinct : m.addresses.Nodup
  resting : m.state.resting = true

theorem derefAddresses {m m' : Master} {p : ClientPtr} {f : FMIClient → Except Fault FMIClient}
    (distinct : m.addresses.Nodup) (self : ∀ c c', f c = .ok c' → c'.self = c.self) (ok : m.deref p f = .ok m') :
    m'.toControl = m.toControl ∧ m'.addresses = m.addresses := by
  obtain ⟨l,c,r,c',split,_,applied,rfl⟩ := derefSource distinct ok
  refine ⟨rfl,?_⟩
  rw [addresses,addresses,split]
  exact replaceAddresses (self c c' applied)

theorem bindOk {ε A B : Type} {x : Except ε A} {f : A → Except ε B} {b : B} (ok : x.bind f = .ok b) :
    ∃ a, x = .ok a ∧ f a = .ok b := by
  cases x with
  | error e => cases ok
  | ok a => exact ⟨a,rfl,ok⟩

theorem pushEquationAddresses {K : Coupling} {m m' : Master} {e : Equation} (distinct : m.addresses.Nodup)
    (ok : pushEquation K m e = .ok m') : m'.toControl = m.toControl ∧ m'.addresses = m.addresses := by
  have mark : ∀ c c' : FMIClient, Except.ok {c with state := .waitingDirectionalDerivatives} = Except.ok (ε := Fault) c' →
      c'.self = c.self := by
    rintro c _ ⟨rfl⟩
    rfl
  have push : ∀ d (c c' : FMIClient), Except.ok (c.pushDirectionalDerivativeRequest d) = Except.ok (ε := Fault) c' →
      c'.self = c.self := by
    rintro d c _ ⟨rfl⟩
    rfl
  obtain ⟨m₁,one,ok⟩ := bindOk ok
  obtain ⟨m₂,two,ok⟩ := bindOk ok
  obtain ⟨m₃,three,four⟩ := bindOk ok
  obtain ⟨control₁,same₁⟩ := derefAddresses distinct mark one
  obtain ⟨control₂,same₂⟩ := derefAddresses (same₁ ▸ distinct) mark two
  obtain ⟨control₃,same₃⟩ := derefAddresses (same₂ ▸ same₁ ▸ distinct) (push _) three
  obtain ⟨control₄,same₄⟩ := derefAddresses (same₃ ▸ same₂ ▸ same₁ ▸ distinct) (push _) four
  exact ⟨control₄.trans (control₃.trans (control₂.trans control₁)),same₄.trans (same₃.trans (same₂.trans same₁))⟩

theorem pushEquationsAddresses {K : Coupling} {m m' : Master} {eqs : List Equation} (distinct : m.addresses.Nodup)
    (ok : eqs.foldlM (pushEquation K) m = .ok m') : m'.toControl = m.toControl ∧ m'.addresses = m.addresses := by
  induction eqs generalizing m with
  | nil => cases ok; exact ⟨rfl,rfl⟩
  | cons e eqs ih =>
    rw [List.foldlM_cons] at ok
    obtain ⟨next,first,rest⟩ := bindOk ok
    obtain ⟨control,same⟩ := pushEquationAddresses distinct first
    obtain ⟨control',same'⟩ := ih (same ▸ distinct) rest
    exact ⟨control'.trans control,same'.trans same⟩

theorem startRequestsSelf {c c' : FMIClient} (ok : startRequests c = .ok c') : c'.self = c.self := by
  unfold startRequests at ok
  split at ok
  · cases ok
    rfl
  · unfold FMIClient.shiftExecuteDirectionalDerivativeRequest at ok
    split at ok <;> try contradiction
    cases ok
    rfl

theorem mapMSelf {f : FMIClient → Except Fault FMIClient} {ps qs : List FMIClient}
    (self : ∀ c c', f c = .ok c' → c'.self = c.self) (ok : ps.mapM f = .ok qs) :
    qs.map FMIClient.self = ps.map FMIClient.self := by
  induction ps generalizing qs with
  | nil => cases ok; rfl
  | cons p ps ih =>
    rw [List.mapM_cons] at ok
    obtain ⟨q,first,ok⟩ := bindOk ok
    obtain ⟨rest,others,last⟩ := bindOk ok
    cases last
    rw [List.map_cons,List.map_cons,self p q first,ih others]

theorem fetchAddresses {K : Coupling} {m m' : Master} (distinct : m.addresses.Nodup)
    (ok : m.fetchDirectionalDerivatives K = .ok m') :
    m'.toControl = {m.toControl with state := .gettingDirectionalDerivatives} ∧ m'.addresses = m.addresses := by
  have reset : ∀ g : Control, addresses ⟨g,m.slaves.map fun c => {c with numDirectionalDerivativesLeft := 0}⟩ =
      m.addresses := fun g => by
    rw [addresses,addresses,List.map_map]
    rfl
  obtain ⟨m₁,pushed,ok⟩ := bindOk ok
  obtain ⟨slaves,started,last⟩ := bindOk ok
  cases last
  obtain ⟨control,same⟩ := pushEquationsAddresses ((reset _).symm ▸ distinct) pushed
  refine ⟨control,?_⟩
  rw [addresses,mapMSelf (fun _ _ => startRequestsSelf) started]
  exact same.trans (reset _)

theorem enterSelf (g : Control) (c : FMIClient) : (g.enter c).self = c.self := by
  unfold Control.enter
  split <;> rfl

inductive Tock (m : Master) : Master → Prop where
  | rests (closed : m.state = .done ∨ ∃ c ∈ m.slaves, ¬ m.toControl.finished c) : Tock m m
  | enters {m'} (opened : ∀ c ∈ m.slaves, m.toControl.finished c) (running : m.state ≠ .done)
      (control : m'.toControl = m.toControl.advance) (addresses : m'.addresses = m.addresses)
      (plain : m.state ≠ .getStrongConnectorStates → m'.slaves = m.slaves.map m.toControl.enter) : Tock m m'

theorem restingPhase {s : MasterState} (resting : s.resting = true) (running : s ≠ .done) :
    s = .connectingSlaves ∨ s.awaited.isSome = true := by
  cases s <;> simp_all [MasterState.resting,MasterState.awaited]

theorem nextOther {g : Control} (resting : g.state.resting = true) (running : g.state ≠ .done)
    (step : g.next ≠ .steppingSlaves) : g.next ≠ g.state := by
  intro same
  have less := positionNext (restingPhase resting running) step
  rw [same] at less
  exact Nat.lt_irrefl _ less

theorem stepEnters {g : Control} (step : g.next = .steppingSlaves) (c : FMIClient) :
    (g.enter c).requests = c.requests ++ [.doStep g.time g.timeStep true] := by
  rw [enterRequests,step]
  rfl

theorem stepNotStrong {g : Control} (step : g.next = .steppingSlaves) : g.state ≠ .getStrongConnectorStates := by
  intro strong
  rw [Control.next,strong] at step
  cases step

theorem tickRests {K : Coupling} {m : Master} (resting : m.state.resting = true)
    (closed : m.state = .done ∨ ∃ c ∈ m.slaves, ¬ m.toControl.finished c) : m.tick K = .ok m := by
  rcases closed with ended | ⟨c,mem,waiting⟩
  · rw [tick,ended]
  · exact tickStays resting fun all => waiting (all c mem)

theorem tickTock {K : Coupling} {m m' : Master} (sound : m.Sound) (ok : m.tick K = .ok m') : Tock m m' := by
  by_cases closed : m.state = .done ∨ ∃ c ∈ m.slaves, ¬ m.toControl.finished c
  · cases (tickRests (K := K) sound.resting closed).symm.trans ok
    exact .rests closed
  · obtain ⟨running,opened⟩ := not_or.mp closed
    have all : ∀ c ∈ m.slaves, m.toControl.finished c := fun c mem => by
      by_contra waiting
      exact opened ⟨c,mem,waiting⟩
    have phase := restingPhase sound.resting running
    by_cases strong : m.state = .getStrongConnectorStates
    · rw [tickFetches strong all] at ok
      obtain ⟨control,same⟩ := fetchAddresses sound.distinct ok
      have next : m.toControl.next = .gettingDirectionalDerivatives := by rw [Control.next,strong]
      refine .enters all running ?_ same fun other => absurd strong other
      rw [control,advanceOther next (by decide) (by decide)]
    · rw [tickEnters phase all strong] at ok
      cases ok
      refine .enters all running rfl ?_ fun _ => rfl
      rw [addresses,addresses,List.map_map]
      exact List.map_congr_left fun c _ => enterSelf m.toControl c

theorem tockSound {m m' : Master} (sound : m.Sound) (tock : Tock m m') : m'.Sound := by
  cases tock with
  | rests => exact sound
  | enters _ _ control same _ =>
    refine ⟨same ▸ sound.distinct,?_⟩
    rw [control]
    exact (nextResting sound.resting).1

end Master

namespace FMIClient

theorem deliverRequests (c : FMIClient) (a : Response) : (c.deliver a).requests = c.requests := by
  unfold deliver
  cases pending : c.pending with
  | nil => rfl
  | cons r rest =>
    simp only []
    split
    · simp [requests,pending]
    · rfl

structure Extends (c c' : FMIClient) : Prop where
  self : c'.self = c.self
  connected : c'.connected = c.connected
  requests : ∃ more, c'.requests = c.requests ++ more

theorem deliverExtends (c : FMIClient) (a : Response) : c.Extends (c.deliver a) := by
  have self := congrArg FMIClient.self (c.deliverFrame a)
  have connected := congrArg (fun c => c.connected) (c.deliverFrame a)
  exact ⟨self,connected,[],by rw [deliverRequests,List.append_nil]⟩

theorem setConnectorExtends {c c' : FMIClient} {f : StrongConnector → Except Fault StrongConnector}
    (ok : (do let ks ← c.strongConnectors.mapM f; .ok {c with strongConnectors := ks}) = Except.ok c') : c.Extends c' := by
  obtain ⟨ks,_,last⟩ := Master.bindOk ok
  cases last
  exact ⟨rfl,rfl,[],(List.append_nil _).symm⟩

theorem absorbExtends {phase : MasterState} {a : Response} {c c' : FMIClient} (ok : c.absorb phase a = .ok c') :
    c.Extends c' := by
  have base := deliverExtends c a
  have after : ∀ {d : FMIClient}, d.Extends c' → d.self = (c.deliver a).self → d.connected = (c.deliver a).connected →
      d.requests = (c.deliver a).requests → c.Extends c' := by
    rintro d ⟨self,connected,more,requests⟩ self₀ connected₀ requests₀
    refine ⟨self.trans (self₀.trans base.self),connected.trans (connected₀.trans base.connected),more,?_⟩
    rw [requests,requests₀,deliverRequests]
  cases a with
  | getReal values status =>
    simp only [absorb] at ok
    split at ok
    · exact after (setConnectorExtends ok) rfl rfl rfl
    · exact after (setConnectorExtends ok) rfl rfl rfl
    · cases ok
      exact ⟨base.self,base.connected,base.requests⟩
  | getDirectionalDerivative dz status =>
    simp only [absorb] at ok
    split at ok
    · cases ok
      exact ⟨base.self,base.connected,base.requests⟩
    · unfold shiftExecuteDirectionalDerivativeRequest at ok
      split at ok <;> try contradiction
      rename_i v z d _ _ _
      cases ok
      refine ⟨base.self,base.connected,[.getDirectionalDerivative ⟨v,z,d⟩],?_⟩
      rw [← deliverRequests c (.getDirectionalDerivative dz status)]
      simp [requests,send]
  | _ =>
    cases ok
    exact ⟨base.self,base.connected,base.requests⟩

end FMIClient

inductive Reacts (m : Master) : Master → Prop where
  | ticks {l c r c' m'} (split : m.slaves = l ++ c :: r) (self : c'.self = c.self)
      (requests : ∃ more, c'.requests = c.requests ++ more) (tock : Master.Tock {m with slaves := l ++ c' :: r} m') :
      Reacts m m'
  | leaves {m'} (control : ∃ n, m'.toControl = {m.toControl with exits := n}) (slaves : m'.slaves.Sublist m.slaves) :
      Reacts m m'

theorem writtenSound {m : Master} {l r : List FMIClient} {c c' : FMIClient} (sound : m.Sound)
    (split : m.slaves = l ++ c :: r) (self : c'.self = c.self) : Master.Sound {m with slaves := l ++ c' :: r} :=
  ⟨Master.replaceDistinct split self sound.distinct,sound.resting⟩

theorem handleReacts {K : Coupling} {m m' : Master} {e : Event} (sound : m.Sound) (own : e.slave ∈ m.addresses)
    (handled : m.handle K e = .ok m') : Reacts m m' := by
  obtain ⟨c,mem,self⟩ := List.mem_map.mp own
  obtain ⟨l,r,split⟩ := List.append_of_mem mem
  cases e with
  | connect p =>
    cases self
    rw [Master.handle,Master.derefAt split sound.distinct] at handled
    have self : FMIClient.self {c with connected := true} = c.self := rfl
    exact .ticks split self ⟨[],(List.append_nil _).symm⟩ (Master.tickTock (writtenSound sound split self) handled)
  | response p a =>
    cases self
    rw [Master.handle,Master.receiveAbsorbs a split sound.distinct] at handled
    obtain ⟨c',absorbs,ticked⟩ := Master.bindOk handled
    have more := FMIClient.absorbExtends absorbs
    exact .ticks split more.self more.requests (Master.tickTock (writtenSound sound split more.self) ticked)
  | disconnect p =>
    cases self
    cases (Except.ok.inj handled).symm.trans (slaveDisconnectedAt split sound.distinct)
    refine .leaves ?_ ?_
    · simp only []
      split
      · exact ⟨_,rfl⟩
      · exact ⟨m.exits,rfl⟩
    · rw [split]
      exact List.Sublist.append_left (List.sublist_cons_self c r) l
  | error p =>
    cases handled
    exact .leaves ⟨_,rfl⟩ (List.Sublist.refl _)

theorem reactsSound {m m' : Master} (sound : m.Sound) (reacts : Reacts m m') : m'.Sound := by
  cases reacts with
  | ticks split self _ tock => exact Master.tockSound (writtenSound sound split self) tock
  | leaves control slaves =>
    obtain ⟨n,control⟩ := control
    exact ⟨(slaves.map FMIClient.self).nodup sound.distinct,by rw [control]; exact sound.resting⟩

theorem heardSound {K : Coupling} {m₀ m : Master} (configured : Master.Configured m₀) (heard : Heard K m₀ m) : m.Sound := by
  induction heard with
  | refl =>
    have lock := freshLockstep (Master.configuredFresh configured)
    exact ⟨lock.distinct,lock.resting⟩
  | tail _ step ih =>
    obtain ⟨e,own,handled⟩ := step
    exact reactsSound ih (handleReacts ih own handled)

end FmiTcpMaster
