import FmiTcpMaster.Heard
import FmiTcpMaster.DerivativeQueue

/-! What the master sends when its slaves send anything at any time. A message can move a slave's
state and empty its queue of derivative requests; it cannot make the master leave its cycle. -/
namespace FmiTcpMaster

def Event.write (s : MasterState) : Event → FMIClient → Except Fault FMIClient
  | .connect _, c => .ok {c with connected := true}
  | .response _ a, c => c.absorb s a
  | .disconnect _, c | .error _, c => .ok c

def Event.ticks : Event → Bool
  | .connect _ | .response _ _ => true
  | .disconnect _ | .error _ => false

theorem handleWrites {K : Coupling} {m : Master} {l r : List FMIClient} {c : FMIClient} {e : Event}
    (ticks : e.ticks = true) (self : e.slave = c.self) (split : m.slaves = l ++ c :: r) (distinct : m.addresses.Nodup) :
    m.handle K e = (e.write m.state c).bind fun c' => Master.tick K {m with slaves := l ++ c' :: r} := by
  cases e with
  | connect p =>
    cases self
    rw [Master.handle,Master.derefAt split distinct]
    rfl
  | response p a =>
    cases self
    exact Master.receiveAbsorbs a split distinct
  | disconnect | error => cases ticks

theorem replaceMember {P : FMIClient → Prop} {l r : List FMIClient} {c q : FMIClient} (all : ∀ p ∈ l ++ c :: r, P p)
    (own : P c → P q) : ∀ p ∈ l ++ q :: r, P p := by
  rw [List.forall_mem_append,List.forall_mem_cons] at all ⊢
  exact ⟨all.1,own all.2.1,all.2.2⟩

namespace FMIClient

def Tidy (s : MasterState) (c : FMIClient) : Prop :=
  ∃ q, c.Queue q ∧ (s ≠ .gettingDirectionalDerivatives ∨ c.state = .doneDirectionalDerivatives → q = [])

theorem tidyQueue {s : MasterState} {c : FMIClient} (tidy : c.Tidy s) (other : s ≠ .gettingDirectionalDerivatives) :
    c.Queue [] := by
  obtain ⟨q,queue,short⟩ := tidy
  exact short (Or.inl other) ▸ queue

theorem tidyOf {s : MasterState} {c : FMIClient} (queue : c.Queue []) : c.Tidy s := ⟨[],queue,fun _ => rfl⟩

structure Heeded (s : MasterState) (c c' : FMIClient) : Prop where
  self : c'.self = c.self
  references : c'.getStrongConnectorValueReferences = c.getStrongConnectorValueReferences
  served : (c'.requests = c.requests ∧ ∀ q, c.Queue q → c'.Queue q) ∨
    s = .gettingDirectionalDerivatives ∧ ∃ q d, c.Queue (q ++ [d]) ∧ c'.Queue q ∧
      c'.requests = c.requests ++ [.getDirectionalDerivative d]
  tidy : c'.Tidy s

theorem mapLayouts {f : StrongConnector → Except Fault StrongConnector} {ks ks' : List StrongConnector}
    (kept : ∀ k k', f k = .ok k' → k'.layout = k.layout) (ok : ks.mapM f = .ok ks') :
    ks'.flatMap kinematicValueReferences = ks.flatMap kinematicValueReferences := by
  induction ks generalizing ks' with
  | nil => cases ok; rfl
  | cons k ks ih =>
    rw [List.mapM_cons] at ok
    obtain ⟨k',first,ok⟩ := Master.bindOk ok
    obtain ⟨rest,others,last⟩ := Master.bindOk ok
    cases last
    rw [List.flatMap_cons,List.flatMap_cons,kinematicLayout (kept k k' first),ih others]

theorem setValuesLayout {k k' : StrongConnector} {refs : List Int} {values : List ℚ}
    (ok : k.setValues refs values = .ok k') : k'.layout = k.layout := by
  unfold StrongConnector.setValues at ok
  split at ok <;> try contradiction
  cases ok
  exact k.layoutAssign _

theorem setFutureValuesLayout {k k' : StrongConnector} {refs : List Int} {values : List ℚ}
    (ok : k.setFutureValues refs values = .ok k') : k'.layout = k.layout := by
  unfold StrongConnector.setFutureValues at ok
  split at ok <;> try contradiction
  cases ok
  exact k.layoutAssignFuture _

theorem deliverQueue {c : FMIClient} {a : Response} {q : List DerivativeRequest} (queue : c.Queue q) :
    (c.deliver a).Queue q := by
  rw [c.deliverFrame a]
  exact ⟨queue.vRefs,queue.zRefs,queue.dvs⟩

theorem deliverReferences (c : FMIClient) (a : Response) :
    (c.deliver a).getStrongConnectorValueReferences = c.getStrongConnectorValueReferences := by
  rw [c.deliverFrame a]
  rfl

theorem heedsPlain {s : MasterState} {c c' : FMIClient} (tidy : c.Tidy s) (self : c'.self = c.self)
    (references : c'.getStrongConnectorValueReferences = c.getStrongConnectorValueReferences)
    (requests : c'.requests = c.requests) (queue : ∀ q, c.Queue q → c'.Queue q)
    (state : c'.state = .doneDirectionalDerivatives → c.state = .doneDirectionalDerivatives) : c.Heeded s c' := by
  obtain ⟨q,queued,short⟩ := tidy
  exact ⟨self,references,.inl ⟨requests,queue⟩,q,queue q queued,fun done => short (done.imp_right state)⟩

theorem heedsConnect {s : MasterState} {c : FMIClient} (tidy : c.Tidy s) : c.Heeded s {c with connected := true} :=
  heedsPlain tidy rfl rfl rfl (fun _ queue => ⟨queue.vRefs,queue.zRefs,queue.dvs⟩) fun done => done

theorem heedsDerivative {s : MasterState} {c c' : FMIClient} {dz : List ℚ} {status : Fmi2Status} (tidy : c.Tidy s)
    (ok : c.absorb s (.getDirectionalDerivative dz status) = .ok c') : c.Heeded s c' := by
  obtain ⟨q,queue,short⟩ := tidy
  have delivered := deliverQueue (a := .getDirectionalDerivative dz status) queue
  have self := congrArg FMIClient.self (c.deliverFrame (.getDirectionalDerivative dz status))
  have references := deliverReferences c (.getDirectionalDerivative dz status)
  have requests := deliverRequests c (.getDirectionalDerivative dz status)
  have counted : FMIClient.Queue {c.deliver (.getDirectionalDerivative dz status) with
      numDirectionalDerivativesLeft := (c.deliver (.getDirectionalDerivative dz status)).numDirectionalDerivativesLeft-1} q :=
    ⟨delivered.vRefs,delivered.zRefs,delivered.dvs⟩
  simp only [absorb,queueLength counted] at ok
  rcases List.eq_nil_or_concat' q with rfl | ⟨rest,d,rfl⟩
  · cases ok
    refine ⟨self,references,.inl ⟨requests,fun p queued => ?_⟩,tidyOf ⟨delivered.vRefs,delivered.zRefs,delivered.dvs⟩⟩
    cases queueUnique queue queued
    exact ⟨delivered.vRefs,delivered.zRefs,delivered.dvs⟩
  · rw [if_neg (by simp),shiftQueue counted] at ok
    cases ok
    obtain ⟨inside,open_⟩ : s = .gettingDirectionalDerivatives ∧ c.state ≠ .doneDirectionalDerivatives := by
      constructor
      · by_contra other
        simpa using short (Or.inl other)
      · intro done
        simpa using short (Or.inr done)
    have state := congrArg FMIClient.state (c.deliverFrame (.getDirectionalDerivative dz status))
    refine ⟨self,references,.inr ⟨inside,rest,d,queue,⟨rfl,rfl,rfl⟩,?_⟩,rest,⟨rfl,rfl,rfl⟩,?_⟩
    · rw [← requests]
      simp [FMIClient.requests,send,withQueue]
    · rintro (other | done)
      · exact absurd inside other
      · exact absurd (state.symm.trans done) open_

theorem setConnectorsHeeds {s : MasterState} {a : Response} {c d c' : FMIClient} (tidy : c.Tidy s)
    {f : StrongConnector → Except Fault StrongConnector} (kept : ∀ k k', f k = .ok k' → k'.layout = k.layout)
    (ok : (do let ks ← d.strongConnectors.mapM f; .ok {d with strongConnectors := ks}) = Except.ok c')
    (frame : d = {c.deliver a with getRealValues := d.getRealValues, state := .doneGetReal}) : c.Heeded s c' := by
  obtain ⟨ks,same,last⟩ := Master.bindOk ok
  cases last
  have self := congrArg FMIClient.self (c.deliverFrame a)
  have references := (mapLayouts kept same).trans
    ((congrArg getStrongConnectorValueReferences frame).trans (deliverReferences c a))
  rw [frame]
  refine heedsPlain tidy self references (deliverRequests c a) (fun q queue => ?_) fun done => by cases done
  have delivered := deliverQueue (a := a) queue
  exact ⟨delivered.vRefs,delivered.zRefs,delivered.dvs⟩

theorem absorbHeeds {s : MasterState} {a : Response} {c c' : FMIClient} (tidy : c.Tidy s)
    (ok : c.absorb s a = .ok c') : c.Heeded s c' := by
  have self := congrArg FMIClient.self (c.deliverFrame a)
  have state := congrArg FMIClient.state (c.deliverFrame a)
  have queue : ∀ q, c.Queue q → (c.deliver a).Queue q := fun _ => deliverQueue
  cases a with
  | getReal values status =>
    simp only [absorb] at ok
    split at ok
    · exact setConnectorsHeeds tidy (fun _ _ => setValuesLayout) ok rfl
    · exact setConnectorsHeeds tidy (fun _ _ => setFutureValuesLayout) ok rfl
    · cases ok
      exact heedsPlain tidy self (deliverReferences c _) (deliverRequests c _)
        (fun q queued => ⟨(queue q queued).vRefs,(queue q queued).zRefs,(queue q queued).dvs⟩) fun done => by cases done
  | getDirectionalDerivative dz status => exact heedsDerivative tidy ok
  | freeInstance | getVersion =>
    cases ok
    exact heedsPlain tidy self (deliverReferences c _) (deliverRequests c _) queue fun done => state.symm.trans done
  | _ =>
    cases ok
    exact heedsPlain tidy self (deliverReferences c _) (deliverRequests c _)
      (fun q queued => ⟨(queue q queued).vRefs,(queue q queued).zRefs,(queue q queued).dvs⟩) fun done => by cases done

theorem writeHeeds {s : MasterState} {e : Event} {c c' : FMIClient} (ticks : e.ticks = true) (tidy : c.Tidy s)
    (ok : e.write s c = .ok c') : c.Heeded s c' := by
  cases e with
  | connect p =>
    cases ok
    exact heedsConnect tidy
  | response p a => exact absorbHeeds tidy ok
  | disconnect | error => cases ticks

end FMIClient

inductive Turn (K : Coupling) (m : Master) : Master → Prop where
  | rests (closed : m.state = .done ∨ ∃ c ∈ m.slaves, ¬ m.toControl.finished c) : Turn K m m
  | enters (opened : ∀ c ∈ m.slaves, m.toControl.finished c)
      (turning : m.state = .connectingSlaves ∨ m.state.awaited.isSome = true)
      (within : m.state = .getStrongConnectorStates → Equation.within (m.equations K) m.addresses) :
      Turn K m ⟨m.toControl.advance,m.slaves.map (entered K m.toControl m.slaves)⟩

theorem tickTurn {K : Coupling} {m m' : Master} (sound : m.Sound) (tidy : ∀ c ∈ m.slaves, c.Tidy m.state)
    (ok : m.tick K = .ok m') : Turn K m m' := by
  by_cases closed : m.state = .done ∨ ∃ c ∈ m.slaves, ¬ m.toControl.finished c
  · cases (Master.tickRests (K := K) sound.resting closed).symm.trans ok
    exact .rests closed
  · obtain ⟨running,opened⟩ := not_or.mp closed
    have all : ∀ c ∈ m.slaves, m.toControl.finished c := fun c mem => by
      by_contra waiting
      exact opened ⟨c,mem,waiting⟩
    have phase := Master.restingPhase sound.resting running
    by_cases strong : m.state = .getStrongConnectorStates
    · have queues : ∀ c ∈ m.slaves, c.Queue [] := fun c mem => FMIClient.tidyQueue (tidy c mem) (by rw [strong]; decide)
      rw [Master.tickFetches strong all] at ok
      obtain ⟨within,rfl⟩ := Master.fetchSource sound.distinct queues ok
      have next : m.toControl.next = .gettingDirectionalDerivatives := by rw [Control.next,strong]
      have enters : entered K m.toControl m.slaves = K.derive (m.equations K) := funext fun c => if_pos strong
      rw [← enters,← advanceOther next (by decide) (by decide)]
      exact .enters all phase fun _ => within
    · have enters : entered K m.toControl m.slaves = m.toControl.enter := funext fun c => if_neg strong
      rw [Master.tickEnters phase all strong] at ok
      cases ok
      rw [← enters]
      exact .enters all phase fun h => absurd h strong

namespace FMIClient

theorem enterTidy {g : Control} {c : FMIClient} (queue : c.Queue []) : (g.enter c).Tidy g.next := by
  refine tidyOf ?_
  unfold Control.enter
  split
  · exact ⟨queue.vRefs,queue.zRefs,queue.dvs⟩
  · exact queue

theorem deriveTidy (K : Coupling) (eqs : List Equation) {s : MasterState} {c : FMIClient}
    (derivative : s = .gettingDirectionalDerivatives) (queue : c.Queue []) : (K.derive eqs c).Tidy s := by
  rcases List.eq_nil_or_concat' (K.pushed eqs c.self) with none | ⟨q,d,some⟩
  · rw [deriveNone none]
    exact tidyOf ⟨queue.vRefs,queue.zRefs,queue.dvs⟩
  · rw [deriveSome some]
    refine ⟨q,⟨rfl,rfl,rfl⟩,?_⟩
    rintro (other | done)
    · exact absurd derivative other
    · cases done

theorem finishedQueue {g : Control} {c : FMIClient} (tidy : c.Tidy g.state) (done : g.finished c) : c.Queue [] := by
  by_cases derivative : g.state = .gettingDirectionalDerivatives
  · obtain ⟨q,queue,short⟩ := tidy
    have state : c.state = .doneDirectionalDerivatives := (finishedBarrier (by rw [derivative]; rfl) c).mp done
    exact short (Or.inr state) ▸ queue
  · exact tidyQueue tidy derivative

theorem enteredTidy {K : Coupling} {g : Control} {ps : List FMIClient} {c : FMIClient} (tidy : c.Tidy g.state)
    (done : g.finished c) : (entered K g ps c).Tidy g.next := by
  have queue := finishedQueue tidy done
  unfold entered
  split
  · rename_i strong
    exact deriveTidy K _ (by rw [Control.next,strong]) queue
  · exact enterTidy queue

theorem heededSent {C : Cycle} {k : Nat} {s : MasterState} {c c' : FMIClient} (heeded : c.Heeded s c')
    (sent : C.Sent c.getStrongConnectorValueReferences k s c.requests) :
    C.Sent c'.getStrongConnectorValueReferences k s c'.requests := by
  rw [heeded.references]
  rcases heeded.served with ⟨same,_⟩ | ⟨rfl,q,d,_,_,more⟩
  · exact same ▸ sent
  · rw [more]
    exact sentMore [d] sent

end FMIClient

namespace Master

structure Orderly (g₀ : Control) (m : Master) : Prop where
  sound : m.Sound
  tidy : ∀ c ∈ m.slaves, c.Tidy m.state
  scheduled : ∃ k, Scheduled g₀ k m.toControl m.slaves

theorem freshOrderly {m₀ : Master} (fresh : m₀.Fresh) : m₀.Orderly m₀.toControl where
  sound := ⟨fresh.distinct,by rw [fresh.state]; rfl⟩
  tidy c mem := FMIClient.tidyOf ⟨(fresh.clients c mem).vRefs,(fresh.clients c mem).zRefs,(fresh.clients c mem).dvs⟩
  scheduled := ⟨0,freshClock fresh,freshSent fresh⟩

theorem writtenOrderly {g₀ : Control} {m : Master} {l r : List FMIClient} {c c' : FMIClient} (orderly : m.Orderly g₀)
    (split : m.slaves = l ++ c :: r) (heeded : c.Heeded m.state c') :
    Orderly g₀ {m with slaves := l ++ c' :: r} := by
  obtain ⟨sound,tidy,k,clock,sent⟩ := orderly
  rw [split] at tidy sent
  exact ⟨writtenSound sound split heeded.self,replaceMember tidy fun _ => heeded.tidy,k,clock,
    replaceMember sent (FMIClient.heededSent heeded)⟩

theorem turnOrderly {K : Coupling} {g₀ : Control} {m m' : Master} (orderly : m.Orderly g₀) (turn : Turn K m m') :
    m'.Orderly g₀ := by
  cases turn with
  | rests => exact orderly
  | enters opened turning _ =>
    obtain ⟨sound,tidy,k,clock,sent⟩ := orderly
    refine ⟨⟨?_,(nextResting sound.resting).1⟩,fun c mem => ?_,m.nextIteration k,clockAdvance clock sound.resting,
      fun c mem => ?_⟩
    · rw [addresses,enteredAddresses]
      exact sound.distinct
    · obtain ⟨c₀,mem₀,rfl⟩ := List.mem_map.mp mem
      exact FMIClient.enteredTidy (tidy c₀ mem₀) (opened c₀ mem₀)
    · obtain ⟨c₀,mem₀,rfl⟩ := List.mem_map.mp mem
      exact sentEntered clock turning (sent c₀ mem₀)

theorem leftOrderly {g₀ : Control} {m m' : Master} (orderly : m.Orderly g₀)
    (control : ∃ n, m'.toControl = {m.toControl with exits := n}) (slaves : m'.slaves.Sublist m.slaves) :
    m'.Orderly g₀ := by
  obtain ⟨⟨distinct,resting⟩,tidy,k,clock,sent⟩ := orderly
  obtain ⟨n,control⟩ := control
  refine ⟨⟨(slaves.map FMIClient.self).nodup distinct,?_⟩,fun c mem => ?_,k,?_,fun c mem => ?_⟩
  · rw [control]
    exact resting
  · rw [control]
    exact tidy c (slaves.subset mem)
  · rw [control]
    exact clockExits clock n
  · rw [control]
    exact sent c (slaves.subset mem)

end Master

inductive Hears (K : Coupling) (e : Event) (m : Master) : Master → Prop where
  | ticks {l c r c' m'} (ticks : e.ticks = true) (self : e.slave = c.self) (split : m.slaves = l ++ c :: r)
      (written : e.write m.state c = .ok c') (heeded : c.Heeded m.state c')
      (turn : Turn K {m with slaves := l ++ c' :: r} m') : Hears K e m m'
  | leaves {m'} (quiet : e.ticks = false) (control : ∃ n, m'.toControl = {m.toControl with exits := n})
      (slaves : m'.slaves.Sublist m.slaves) : Hears K e m m'

theorem handleHears {K : Coupling} {g₀ : Control} {m m' : Master} {e : Event} (orderly : m.Orderly g₀)
    (own : e.slave ∈ m.addresses) (handled : m.handle K e = .ok m') : Hears K e m m' := by
  obtain ⟨c,mem,self⟩ := List.mem_map.mp own
  cases ticks : e.ticks with
  | true =>
    obtain ⟨l,r,split⟩ := List.append_of_mem mem
    rw [handleWrites ticks self.symm split orderly.sound.distinct] at handled
    obtain ⟨c',written,ticked⟩ := Master.bindOk handled
    have heeded := FMIClient.writeHeeds ticks (orderly.tidy c mem) written
    have after := Master.writtenOrderly orderly split heeded
    exact .ticks ticks self.symm split written heeded (tickTurn after.sound after.tidy ticked)
  | false =>
    cases e with
    | connect | response => cases ticks
    | disconnect p =>
      cases handled
      obtain ⟨l,r,split⟩ := List.append_of_mem mem
      cases self
      rw [slaveDisconnectedAt split orderly.sound.distinct]
      refine .leaves ticks ?_ ?_
      · simp only []
        split_ifs
        · exact ⟨_,rfl⟩
        · exact ⟨m.exits,rfl⟩
      · rw [split]
        exact List.Sublist.append_left (List.sublist_cons_self c r) l
    | error p =>
      cases handled
      exact .leaves ticks ⟨_,rfl⟩ (List.Sublist.refl _)

theorem hearsOrderly {K : Coupling} {g₀ : Control} {m m' : Master} {e : Event} (orderly : m.Orderly g₀)
    (hears : Hears K e m m') : m'.Orderly g₀ := by
  cases hears with
  | ticks _ _ split _ heeded turn => exact Master.turnOrderly (Master.writtenOrderly orderly split heeded) turn
  | leaves _ control slaves => exact Master.leftOrderly orderly control slaves

theorem heardOrderly {K : Coupling} {m₀ m : Master} (configured : Master.Configured m₀) (heard : Heard K m₀ m) :
    m.Orderly m₀.toControl := by
  induction heard with
  | refl => exact Master.freshOrderly (Master.configuredFresh configured)
  | tail _ step ih =>
    obtain ⟨e,own,handled⟩ := step
    exact hearsOrderly ih (handleHears ih own handled)

/- Whatever is received, each slave has been sent a prefix of the cycle, and all slaves, and the
clock, are in the same iteration of it. -/
theorem cycleUnderAnyMessages {K : Coupling} {m₀ m : Master} (configured : Master.Configured m₀)
    (heard : Heard K m₀ m) : ∃ k, Clock m₀.toControl k m.toControl ∧ ∀ c ∈ m.slaves,
      m₀.toControl.cycle.Sent c.getStrongConnectorValueReferences k m.state c.requests ∧
      (∃ n all rest, m₀.toControl.cycle.Iterations c.getStrongConnectorValueReferences n all ∧
        c.requests ++ rest = m₀.toControl.cycle.startup ++ all) ∧
      (finalSteps c.requests).length = m.toControl.elapsed k ∧
      (m.state ≠ .gettingDirectionalDerivatives → c.Queue []) := by
  obtain ⟨_,tidy,k,clock,sent⟩ := heardOrderly configured heard
  exact ⟨k,clock,fun c mem => ⟨sent c mem,Cycle.sentPrefix (sent c mem),finalsSent (sent c mem),
    FMIClient.tidyQueue (tidy c mem)⟩⟩

def Master.overhear (K : Coupling) (m : Master) : List Event → Option Master
  | [] => some m
  | e :: es =>
    if e.slave ∈ m.addresses then
      match m.handle K e with
      | .ok m' => m'.overhear K es
      | .error _ => none
    else none

theorem overheard {K : Coupling} {m m' : Master} (es : List Event) (ok : m.overhear K es = some m') : Heard K m m' := by
  induction es generalizing m with
  | nil => cases ok; exact .refl
  | cons e es ih =>
    unfold Master.overhear at ok
    split at ok <;> try contradiction
    rename_i own
    split at ok <;> try contradiction
    rename_i next handled
    exact .head ⟨e,own,handled⟩ (ih ok)

def Event.unruly : List Event :=
  Event.startup ++ [.response 1 (.doStep .warning),.response 2 (.getDirectionalDerivative [1] .ok)] ++
    Event.both (.initializeSlave .error) ++ [.response 1 .getXml,.response 2 (.getFmuState 3 .ok),.response 1 (.getFmuState 0 .ok),
      .response 1 (.doStep .ok),.connect 2]

theorem cycleUnderAnyMessagesCoupled :
    let m := (Master.coupled.overhear .perConstraint Event.unruly).getD .coupled
    m.state = .steppingSlavesForFutureVelo ∧ ∃ k, Clock Master.coupled.toControl k m.toControl ∧ ∀ c ∈ m.slaves,
      Master.coupled.toControl.cycle.Sent c.getStrongConnectorValueReferences k m.state c.requests := by
  have heard : Heard .perConstraint .coupled ((Master.coupled.overhear .perConstraint Event.unruly).getD .coupled) := by
    refine overheard Event.unruly ?_
    decide +kernel
  obtain ⟨k,clock,slaves⟩ := cycleUnderAnyMessages Master.coupledConfigured heard
  exact ⟨by decide +kernel,k,clock,fun c mem => (slaves c mem).1⟩

abbrev HeardIn (K : Coupling) (s : MasterState) := Relation.ReflTransGen fun m m' : Master =>
  (∃ e : Event, e.slave ∈ m.addresses ∧ m.handle K e = .ok m') ∧ m'.state = s

namespace FMIClient

def Popped (ds : List DerivativeRequest) (c c' : FMIClient) : Prop :=
  c'.self = c.self ∧ ∃ sent left : List DerivativeRequest,
    c'.requests = c.requests ++ sent.map .getDirectionalDerivative ∧ c'.Queue left ∧ left ++ sent.reverse = ds

def Emptied (ds : List DerivativeRequest) (c c' : FMIClient) : Prop :=
  c'.self = c.self ∧ c'.Queue [] ∧
    c'.requests = c.requests ++ ds.reverse.map .getDirectionalDerivative ++ [.setReal [] []]

theorem derivePopped (K : Coupling) (eqs : List Equation) {c : FMIClient} (queue : c.Queue []) :
    c.Popped (K.pushed eqs c.self) (K.derive eqs c) := by
  refine ⟨(deriveKept K eqs c).self,?_⟩
  rcases List.eq_nil_or_concat' (K.pushed eqs c.self) with none | ⟨q,d,some⟩
  · refine ⟨[],[],?_,?_,none.symm⟩
    · rw [deriveNone none]
      simp [requests]
    · rw [deriveNone none]
      exact ⟨queue.vRefs,queue.zRefs,queue.dvs⟩
  · refine ⟨[d],q,?_,?_,some.symm⟩
    · rw [deriveSome some]
      simp [requests,send,withQueue]
    · rw [deriveSome some]
      exact ⟨rfl,rfl,rfl⟩

theorem heededPopped {ds : List DerivativeRequest} {s : MasterState} {c p q : FMIClient} (popped : c.Popped ds p)
    (heeded : p.Heeded s q) : c.Popped ds q := by
  obtain ⟨self,sent,left,requests,queue,all⟩ := popped
  refine ⟨heeded.self.trans self,?_⟩
  rcases heeded.served with ⟨same,keeps⟩ | ⟨_,rest,d,before,after,more⟩
  · exact ⟨sent,left,same.trans requests,keeps left queue,all⟩
  · cases queueUnique before queue
    refine ⟨sent ++ [d],rest,?_,after,?_⟩
    · rw [more,requests,List.map_append,List.append_assoc]
      rfl
    · rw [← all,List.reverse_append,List.append_assoc]
      rfl

theorem poppedEmptied {ds : List DerivativeRequest} {g : Control} {c p : FMIClient}
    (deriving_ : g.state = .gettingDirectionalDerivatives) (tidy : p.Tidy g.state) (done : g.finished p)
    (popped : c.Popped ds p) : c.Emptied ds (g.enter p) := by
  obtain ⟨self,sent,left,requests,queue,all⟩ := popped
  have empty := finishedQueue tidy done
  cases queueUnique empty queue
  have next : g.next = .settingStrongCouplingForces := by rw [Control.next,deriving_]
  have sends := enterRequests g p
  rw [next,requests] at sends
  refine ⟨(Master.enterSelf g p).trans self,?_,?_⟩
  · rw [Control.enter,next]
    exact ⟨empty.vRefs,empty.zRefs,empty.dvs⟩
  · rw [sends,← all,List.nil_append,List.reverse_reverse]
    rfl

end FMIClient

theorem hearsEnters {K : Coupling} {g₀ : Control} {m m' : Master} {e : Event} (orderly : m.Orderly g₀)
    (strong : m.state = .getStrongConnectorStates) (hears : Hears K e m m')
    (entered_ : m'.state = .gettingDirectionalDerivatives) :
    ∃ m₁ : Master, m₁.toControl = m.toControl ∧ m₁.addresses = m.addresses ∧
      Equation.within (m₁.equations K) m.addresses ∧
      ∀ c' ∈ m'.slaves, ∃ c ∈ m.slaves, c.Popped (K.pushed (m₁.equations K) c.self) c' := by
  cases hears with
  | leaves _ control _ =>
    obtain ⟨n,control⟩ := control
    rw [control] at entered_
    exact absurd (strong.symm.trans entered_) (by decide)
  | @ticks l c r q _ _ _ split _ heeded turn =>
    have after := Master.writtenOrderly orderly split heeded
    have same : Master.addresses {m with slaves := l ++ q :: r} = m.addresses := by
      rw [Master.addresses,Master.addresses,split]
      exact replaceAddresses heeded.self
    have written : ∀ p ∈ l ++ q :: r, ∃ c ∈ m.slaves, p.self = c.self ∧ p.requests = c.requests := by
      rw [split]
      refine replaceMember (c := c) (fun p mem => ⟨p,mem,rfl,rfl⟩) fun _ => ⟨c,by simp,heeded.self,?_⟩
      rcases heeded.served with ⟨same,_⟩ | ⟨derivative,_⟩
      · exact same
      · exact absurd (strong.symm.trans derivative) (by decide)
    generalize l ++ q :: r = ps at *
    cases turn with
    | rests => exact absurd (strong.symm.trans entered_) (by decide)
    | enters opened _ within =>
      refine ⟨⟨m.toControl,ps⟩,rfl,same,same ▸ within strong,fun c' mem => ?_⟩
      obtain ⟨p,inside,rfl⟩ := List.mem_map.mp mem
      obtain ⟨old,kept,self,requests⟩ := written p inside
      have derives : entered K m.toControl ps p = K.derive (Master.equations K ⟨m.toControl,ps⟩) p := if_pos strong
      obtain ⟨self',sent,rest,sends,left,all⟩ := FMIClient.derivePopped K (Master.equations K ⟨m.toControl,ps⟩)
        (FMIClient.finishedQueue (after.tidy p inside) (opened p inside))
      rw [self] at all
      rw [requests] at sends
      refine ⟨old,kept,?_⟩
      rw [derives]
      exact ⟨self'.trans self,sent,rest,sends,left,all⟩

theorem hearsPops {K : Coupling} {g₀ : Control} {m m' : Master} {e : Event} {cs : List FMIClient}
    {ds : ClientPtr → List DerivativeRequest} (orderly : m.Orderly g₀)
    (deriving_ : m.state = .gettingDirectionalDerivatives)
    (popped : ∀ p ∈ m.slaves, ∃ c ∈ cs, c.Popped (ds c.self) p) (hears : Hears K e m m') :
    (m'.state = .gettingDirectionalDerivatives → ∀ p ∈ m'.slaves, ∃ c ∈ cs, c.Popped (ds c.self) p) ∧
    (m'.state ≠ .gettingDirectionalDerivatives → ∀ p ∈ m'.slaves, ∃ c ∈ cs, c.Emptied (ds c.self) p) := by
  cases hears with
  | leaves _ control slaves =>
    obtain ⟨n,control⟩ := control
    refine ⟨fun _ p mem => popped p (slaves.subset mem),fun other => absurd ?_ other⟩
    rw [control]
    exact deriving_
  | @ticks l c r q _ _ _ split _ heeded turn =>
    have after := Master.writtenOrderly orderly split heeded
    have written : ∀ p ∈ l ++ q :: r, ∃ c ∈ cs, c.Popped (ds c.self) p := by
      rw [split] at popped
      refine replaceMember popped ?_
      rintro ⟨c₀,mem₀,before⟩
      exact ⟨c₀,mem₀,FMIClient.heededPopped before heeded⟩
    cases turn with
    | rests => exact ⟨fun _ => written,fun other => absurd deriving_ other⟩
    | enters opened _ _ =>
      have next : m.toControl.next = .settingStrongCouplingForces := by rw [Control.next,deriving_]
      refine ⟨fun same => absurd (next.symm.trans same) (by decide),fun _ p mem => ?_⟩
      obtain ⟨p₀,inside,rfl⟩ := List.mem_map.mp mem
      obtain ⟨c₀,mem₀,before⟩ := written p₀ inside
      have enters : entered K m.toControl (l ++ q :: r) p₀ = m.toControl.enter p₀ := if_neg (by rw [deriving_]; decide)
      exact ⟨c₀,mem₀,enters ▸ FMIClient.poppedEmptied deriving_ (after.tidy p₀ inside) (opened p₀ inside) before⟩

theorem heardInPops {K : Coupling} {g₀ : Control} {m m' : Master} {cs : List FMIClient}
    (ds : ClientPtr → List DerivativeRequest) (orderly : m.Orderly g₀)
    (deriving_ : m.state = .gettingDirectionalDerivatives)
    (popped : ∀ p ∈ m.slaves, ∃ c ∈ cs, c.Popped (ds c.self) p)
    (heard : HeardIn K .gettingDirectionalDerivatives m m') :
    m'.Orderly g₀ ∧ m'.state = .gettingDirectionalDerivatives ∧ ∀ p ∈ m'.slaves, ∃ c ∈ cs, c.Popped (ds c.self) p := by
  induction heard with
  | refl => exact ⟨orderly,deriving_,popped⟩
  | tail _ step ih =>
    obtain ⟨⟨e,own,handled⟩,here⟩ := step
    obtain ⟨before,at_,sofar⟩ := ih
    have hears := handleHears before own handled
    exact ⟨hearsOrderly before hears,here,(hearsPops before at_ sofar hears).1 here⟩

/- Whatever is received in the derivative phase, what was pushed for a slave is sent to it once, last
first, and the phase is not left before all of it was sent. -/
theorem derivativesUnderAnyMessages {K : Coupling} {m₀ m m₂ : Master} {e : Event} (configured : Master.Configured m₀)
    (heard : Heard K m₀ m) (strong : m.state = .getStrongConnectorStates) (own : e.slave ∈ m.addresses)
    (handled : m.handle K e = .ok m₂) (entered_ : m₂.state = .gettingDirectionalDerivatives) :
    ∃ m₁ : Master, m₁.toControl = m.toControl ∧ m₁.addresses = m.addresses ∧
      Equation.within (m₁.equations K) m.addresses ∧
      ∀ m₃, HeardIn K .gettingDirectionalDerivatives m₂ m₃ →
        (∀ c' ∈ m₃.slaves, ∃ c ∈ m.slaves, c.Popped (K.pushed (m₁.equations K) c.self) c') ∧
        ∀ e' m₄, e'.slave ∈ m₃.addresses → m₃.handle K e' = .ok m₄ → m₄.state ≠ .gettingDirectionalDerivatives →
          ∀ c' ∈ m₄.slaves, ∃ c ∈ m.slaves, c.Emptied (K.pushed (m₁.equations K) c.self) c' := by
  have orderly := heardOrderly configured heard
  have hears := handleHears orderly own handled
  obtain ⟨m₁,control,addresses,within,popped⟩ := hearsEnters orderly strong hears entered_
  refine ⟨m₁,control,addresses,within,fun m₃ run => ?_⟩
  obtain ⟨orderly',here,sofar⟩ := heardInPops (K.pushed (m₁.equations K)) (hearsOrderly orderly hears) entered_
    popped run
  exact ⟨sofar,fun e' m₄ own' handled' other =>
    (hearsPops orderly' here sofar (handleHears orderly' own' handled')).2 other⟩

def Event.unrulyReading : List Event :=
  Event.startup ++ Event.both (.initializeSlave .ok) ++ Event.both (.getFmuState 5 .ok) ++ Event.both (.doStep .ok) ++
    Event.both (.getReal (List.replicate 13 0) .ok) ++ [.response 1 (.doStep .ok)] ++ Event.both (.setFmuState .ok) ++
    [.response 2 (.getReal (List.replicate 13 0) .ok)]

theorem derivativesUnderAnyMessagesCoupled :
    let m := (Master.coupled.overhear .twoRows Event.unrulyReading).getD .coupled
    let last := Event.response 1 (.getReal (List.replicate 13 0) .ok)
    ∃ m₂, m.handle .twoRows last = .ok m₂ ∧ m₂.state = .gettingDirectionalDerivatives ∧
      ∃ m₁ : Master, m₁.addresses = m.addresses ∧ ∀ c' ∈ m₂.slaves, ∃ c ∈ m.slaves,
        c.Popped (Coupling.twoRows.pushed (m₁.equations .twoRows) c.self) c' := by
  intro m last
  have heard : Heard .twoRows .coupled m := by
    refine overheard Event.unrulyReading ?_
    decide +kernel
  obtain ⟨m₂,handled,entered_⟩ : ∃ m₂, m.handle .twoRows last = .ok m₂ ∧ m₂.state = .gettingDirectionalDerivatives :=
    ⟨(m.handle .twoRows last).toOption.getD m,by decide +kernel,by decide +kernel⟩
  obtain ⟨m₁,_,addresses,_,phase⟩ := derivativesUnderAnyMessages Master.coupledConfigured heard (by decide +kernel)
    (by decide +kernel) handled entered_
  exact ⟨m₂,handled,entered_,m₁,addresses,(phase m₂ .refl).1⟩

end FmiTcpMaster
