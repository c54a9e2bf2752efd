import FmiTcpMaster.Rewind

/-! What the connectors hold when the directional derivatives are fetched. References are
gathered from all connectors of a slave into one list and the values scattered back by matching
them, so a reference may occur any number of times. -/
namespace FmiTcpMaster

def lastValue (r : Int) : List (Int × ℚ) → Option ℚ
  | [] => none
  | p :: ps => (lastValue r ps).or (if p.1 = r then some p.2 else none)

namespace StrongConnector

structure Present (k : StrongConnector) (out : Int → ℚ) : Prop where
  position : k.hasPosition = true → ∀ j, k.conn.position j = out (k.vrefPosition j)
  quaternion : k.hasQuaternion = true → ∀ j, k.conn.quaternion j = out (k.vrefQuaternion j)
  velocity : k.hasVelocity = true → ∀ j, k.conn.velocity j = out (k.vrefVelocity j)
  angularVelocity : k.hasAngularVelocity = true → ∀ j, k.conn.angularVelocity j = out (k.vrefAngularVelocity j)

structure Future (k : StrongConnector) (out : Int → ℚ) : Prop where
  velocity : k.hasVelocity = true → ∀ j, k.conn.futureVelocity j = out (k.vrefVelocity j)
  angularVelocity : k.hasAngularVelocity = true → ∀ j, k.conn.futureAngularVelocity j = out (k.vrefAngularVelocity j)

structure Group (n : Nat) (set : StrongConnector → Int → ℚ → StrongConnector) where
  has : StrongConnector → Bool
  vref : StrongConnector → Fin n → Int
  component : StrongConnector → Fin n → ℚ
  sets : ∀ k vr val, component (set k vr val) = scatter (vref k) vr val (component k)
  keeps : ∀ k vr val, vref (set k vr val) = vref k
  stays : ∀ k vr val, has (set k vr val) = has k

section Fold
variable {n : Nat} {set : StrongConnector → Int → ℚ → StrongConnector}

theorem pairsKeep {A : Type} {f : StrongConnector → A} (keeps : ∀ k vr val, f (set k vr val) = f k)
    (pairs : List (Int × ℚ)) (k : StrongConnector) : f (pairs.foldl (fun k p => set k p.1 p.2) k) = f k := by
  induction pairs generalizing k with
  | nil => rfl
  | cons p ps ih => exact (ih (set k p.1 p.2)).trans (keeps k p.1 p.2)

theorem assignedLast (G : Group n set) (pairs : List (Int × ℚ)) (k : StrongConnector) (j : Fin n) :
    G.component (pairs.foldl (fun k p => set k p.1 p.2) k) j =
      (lastValue (G.vref k j) pairs).getD (G.component k j) := by
  induction pairs generalizing k with
  | nil => rfl
  | cons p ps ih =>
    rw [List.foldl_cons,ih,G.keeps,G.sets,lastValue]
    cases later : lastValue (G.vref k j) ps with
    | some v => rfl
    | none =>
      simp only [scatter,Option.getD_none,Option.none_or]
      split <;> rfl

theorem lastOut (out : Int → ℚ) (refs : List Int) (r : Int) :
    lastValue r (refs.zip (refs.map out)) = if r ∈ refs then some (out r) else none := by
  induction refs with
  | nil => rfl
  | cons s rs ih =>
    rw [List.map_cons,List.zip_cons_cons,lastValue,ih]
    by_cases later : r ∈ rs
    · simp [later]
    · by_cases now : s = r
      · subst now
        simp [later]
      · simp [later,now,Ne.symm now]

theorem groupHolds (G : Group n set) {out : Int → ℚ} {refs : List Int} {k : StrongConnector}
    (members : G.has k = true → ∀ j, G.vref k j ∈ refs)
    (held : G.has ((refs.zip (refs.map out)).foldl (fun k p => set k p.1 p.2) k) = true) (j : Fin n) :
    G.component ((refs.zip (refs.map out)).foldl (fun k p => set k p.1 p.2) k) j =
      out (G.vref ((refs.zip (refs.map out)).foldl (fun k p => set k p.1 p.2) k) j) := by
  rw [pairsKeep G.stays] at held
  rw [assignedLast G,lastOut,if_pos (members held j),pairsKeep G.keeps]
  rfl

end Fold

def positionGroup : Group 3 setValue :=
  ⟨hasPosition,vrefPosition,fun k => k.conn.position,fun _ _ _ => rfl,fun _ _ _ => rfl,fun _ _ _ => rfl⟩

def quaternionGroup : Group 4 setValue :=
  ⟨hasQuaternion,vrefQuaternion,fun k => k.conn.quaternion,fun _ _ _ => rfl,fun _ _ _ => rfl,fun _ _ _ => rfl⟩

def velocityGroup : Group 3 setValue :=
  ⟨hasVelocity,vrefVelocity,fun k => k.conn.velocity,fun _ _ _ => rfl,fun _ _ _ => rfl,fun _ _ _ => rfl⟩

def angularVelocityGroup : Group 3 setValue :=
  ⟨hasAngularVelocity,vrefAngularVelocity,fun k => k.conn.angularVelocity,fun _ _ _ => rfl,fun _ _ _ => rfl,
    fun _ _ _ => rfl⟩

def futureVelocityGroup : Group 3 setFutureValue :=
  ⟨hasVelocity,vrefVelocity,fun k => k.conn.futureVelocity,fun _ _ _ => rfl,fun _ _ _ => rfl,fun _ _ _ => rfl⟩

def futureAngularVelocityGroup : Group 3 setFutureValue :=
  ⟨hasAngularVelocity,vrefAngularVelocity,fun k => k.conn.futureAngularVelocity,fun _ _ _ => rfl,fun _ _ _ => rfl,
    fun _ _ _ => rfl⟩

theorem kinematicMembers {k : StrongConnector} {refs : List Int}
    (inside : ∀ r ∈ FMIClient.kinematicValueReferences k, r ∈ refs) :
    (k.hasPosition = true → ∀ j, k.vrefPosition j ∈ refs) ∧ (k.hasQuaternion = true → ∀ j, k.vrefQuaternion j ∈ refs) ∧
    (k.hasVelocity = true → ∀ j, k.vrefVelocity j ∈ refs) ∧
    (k.hasAngularVelocity = true → ∀ j, k.vrefAngularVelocity j ∈ refs) := by
  refine ⟨fun set j => inside _ ?_,fun set j => inside _ ?_,fun set j => inside _ ?_,fun set j => inside _ ?_⟩ <;>
    simp only [FMIClient.kinematicValueReferences,set,if_true,List.mem_append]
  · exact Or.inl (Or.inl (Or.inl (memValueRefs set j)))
  · exact Or.inl (Or.inl (Or.inr (memValueRefs set j)))
  · exact Or.inl (Or.inr (memValueRefs set j))
  · exact Or.inr (memValueRefs set j)

theorem assignPresent {k : StrongConnector} {refs : List Int} (out : Int → ℚ)
    (inside : ∀ r ∈ FMIClient.kinematicValueReferences k, r ∈ refs) :
    (k.assignValues (refs.zip (refs.map out))).Present out := by
  obtain ⟨p,q,v,w⟩ := kinematicMembers inside
  exact ⟨groupHolds positionGroup p,groupHolds quaternionGroup q,groupHolds velocityGroup v,
    groupHolds angularVelocityGroup w⟩

theorem assignFuture {k : StrongConnector} {refs : List Int} (out : Int → ℚ)
    (inside : ∀ r ∈ FMIClient.kinematicValueReferences k, r ∈ refs) :
    (k.assignFutureValues (refs.zip (refs.map out))).Future out := by
  obtain ⟨_,_,v,w⟩ := kinematicMembers inside
  exact ⟨groupHolds futureVelocityGroup v,groupHolds futureAngularVelocityGroup w⟩

theorem assignKeepsFuture {k : StrongConnector} {out : Int → ℚ} (pairs : List (Int × ℚ)) (future : k.Future out) :
    (k.assignValues pairs).Future out := by
  induction pairs generalizing k with
  | nil => exact future
  | cons p ps ih => exact ih (k := k.setValue p.1 p.2) ⟨future.velocity,future.angularVelocity⟩

end StrongConnector

/- An FMU as its slave runs it: what a request does to its state, and the value of a reference. What
set_fmu_state brings back is the state saved last, whatever the id that it is sent. -/
structure Fmu (S : Type) where
  start : S
  exec : S → Request → S
  out : S → Int → ℚ

structure Track (S : Type) where
  current : S
  saved : S
  stepped : S

def Request.references : Request → Option (List Int)
  | .getReal refs => some refs
  | _ => none

def Response.reals : Response → Option (List ℚ)
  | .getReal values _ => some values
  | _ => none

section Values
variable {S : Type}

def Fmu.exchange (f : Fmu S) (t : Track S) (x : Exchange) : Track S :=
  match x.request with
  | .getFmuState => {t with saved := t.current}
  | .setFmuState _ => {t with current := t.saved}
  | .doStep time step new =>
    let s := f.exec t.current (.doStep time step new)
    {t with current := s, stepped := s}
  | r => {t with current := f.exec t.current r}

def Fmu.track (f : Fmu S) (xs : List Exchange) : Track S := xs.foldl f.exchange ⟨f.start,f.start,f.start⟩

def Fmu.state (f : Fmu S) (xs : List Exchange) : S := (f.track xs).current

theorem trackSnoc (f : Fmu S) (xs : List Exchange) (x : Exchange) :
    f.track (xs ++ [x]) = f.exchange (f.track xs) x := by
  simp [Fmu.track]

def Environment.reading (fmus : ClientPtr → Fmu S) : Environment :=
  ⟨fun _ c r a => ∀ refs ∈ r.references, ∀ values ∈ a.reals,
    values = refs.map ((fmus c.self).out ((fmus c.self).state c.answered)),fun _ _ => True,fun _ _ => True⟩

instance (fmus : ClientPtr → Fmu S) (m : Master) (e : Event) : Decidable ((Environment.reading fmus).Allows m e) :=
  have : ∀ g c r a, Decidable ((Environment.reading fmus).answers g c r a) := fun _ c r a =>
    inferInstanceAs (Decidable (∀ refs ∈ r.references, ∀ values ∈ a.reals,
      values = refs.map ((fmus c.self).out ((fmus c.self).state c.answered))))
  have : ∀ m c, Decidable ((Environment.reading fmus).leaves m c) := fun _ _ => .isTrue trivial
  have : ∀ m c, Decidable ((Environment.reading fmus).fails m c) := fun _ _ => .isTrue trivial
  inferInstance

def FutureRead (f : Fmu S) (c : FMIClient) : Prop :=
  ∀ k ∈ c.strongConnectors, k.Future (f.out (f.track c.answered).stepped)

def PresentRead (f : Fmu S) (c : FMIClient) : Prop :=
  ∀ k ∈ c.strongConnectors, k.Present (f.out (f.track c.answered).saved)

def ReadSoFar (f : Fmu S) (s : MasterState) (c : FMIClient) : Prop :=
  match s with
  | .steppingSlavesForFutureVelo => c.pending = [] → (f.track c.answered).current = (f.track c.answered).stepped
  | .gettingFutureVelo =>
    (c.pending ≠ [] → (f.track c.answered).current = (f.track c.answered).stepped) ∧ (c.pending = [] → FutureRead f c)
  | .settingStates =>
    FutureRead f c ∧ (c.pending = [] → (f.track c.answered).current = (f.track c.answered).saved)
  | .getStrongConnectorStates =>
    FutureRead f c ∧ (c.pending ≠ [] → (f.track c.answered).current = (f.track c.answered).saved) ∧
      (c.pending = [] → PresentRead f c)
  | _ => True

theorem referencesInside {c : FMIClient} {k : StrongConnector} (mem : k ∈ c.strongConnectors) :
    ∀ r ∈ FMIClient.kinematicValueReferences k, r ∈ c.getStrongConnectorValueReferences :=
  fun _ inside => List.mem_flatMap.mpr ⟨k,mem,inside⟩

theorem realAnswer {refs : List Int} {a : Response} (fits : a.answers (.getReal refs) = true) :
    ∃ values status, a = .getReal values status := by
  cases a <;> simp only [Response.answers,Bool.false_eq_true] at fits
  exact ⟨_,_,rfl⟩

theorem futureReads {f : Fmu S} {c c' : FMIClient} {refs : List Int} {status : Fmi2Status}
    (own : refs = c.getStrongConnectorValueReferences) (current : (f.track c.answered).current = (f.track c.answered).stepped)
    (absorbed : Absorbed .gettingFutureVelo (.getReal refs)
      (.getReal (refs.map (f.out (f.state c.answered))) status) c c') : FutureRead f c' := by
  intro k mem
  rw [absorbed.connectors] at mem
  obtain ⟨k₀,mem₀,rfl⟩ := List.mem_map.mp mem
  have after : (f.track c'.answered).stepped = f.state c.answered := by
    rw [absorbed.answered,trackSnoc]
    exact current.symm
  rw [after]
  subst own
  exact StrongConnector.assignFuture _ (referencesInside mem₀)

theorem presentReads {f : Fmu S} {c c' : FMIClient} {refs : List Int} {status : Fmi2Status}
    (own : refs = c.getStrongConnectorValueReferences) (current : (f.track c.answered).current = (f.track c.answered).saved)
    (future : FutureRead f c) (absorbed : Absorbed .getStrongConnectorStates (.getReal refs)
      (.getReal (refs.map (f.out (f.state c.answered))) status) c c') : FutureRead f c' ∧ PresentRead f c' := by
  have stepped : (f.track c'.answered).stepped = (f.track c.answered).stepped := by
    rw [absorbed.answered,trackSnoc]; rfl
  have saved : (f.track c'.answered).saved = f.state c.answered := by
    rw [absorbed.answered,trackSnoc]
    exact current.symm
  constructor
  · intro k mem
    rw [absorbed.connectors] at mem
    obtain ⟨k₀,mem₀,rfl⟩ := List.mem_map.mp mem
    rw [stepped]
    exact StrongConnector.assignKeepsFuture _ (future k₀ mem₀)
  · intro k mem
    rw [absorbed.connectors] at mem
    obtain ⟨k₀,mem₀,rfl⟩ := List.mem_map.mp mem
    rw [saved]
    subst own
    exact StrongConnector.assignPresent _ (referencesInside mem₀)

theorem absorbedIdle {s : MasterState} {r : Request} {a : Response} {c c' : FMIClient} (absorbed : Absorbed s r a c c')
    (other : s ≠ .gettingDirectionalDerivatives) : c'.pending = [] := by
  rcases absorbed.rest with ⟨_,pending,_⟩ | ⟨derivative,_⟩
  · exact pending
  · exact absurd derivative other

theorem readMove {fmus : ClientPtr → Fmu S} {g : Control} {c c' : FMIClient} (phase : InPhase g.state c)
    (moved : moves (.reading fmus) g c c') (read : ReadSoFar (fmus c.self) g.state c) :
    ReadSoFar (fmus c'.self) g.state c' := by
  rcases moveCases phase moved with ⟨connecting,rfl⟩ | ⟨r,a,_,pending,asks,reads,fits,allowed,absorbed⟩
  · rw [connecting]
    trivial
  · have waiting : c.pending ≠ [] := by simp [pending]
    rw [absorbed.self]
    generalize at_ : g.state = s at *
    cases s <;> try trivial
    case steppingSlavesForFutureVelo =>
      cases r <;> simp only [MasterState.asks,Bool.false_eq_true] at asks
      intro _
      rw [absorbed.answered,trackSnoc]
      rfl
    case gettingFutureVelo =>
      cases reads (Or.inr rfl)
      obtain ⟨values,status,rfl⟩ := realAnswer fits
      cases allowed _ rfl _ rfl
      exact ⟨fun some => absurd (absorbedIdle absorbed (by decide)) some,fun _ => futureReads rfl (read.1 waiting) absorbed⟩
    case settingStates =>
      cases r <;> simp only [MasterState.asks,Bool.false_eq_true] at asks
      refine ⟨fun k mem => ?_,fun _ => ?_⟩
      · rw [absorbed.connectors] at mem
        rw [absorbed.answered,trackSnoc]
        exact read.1 k mem
      · rw [absorbed.answered,trackSnoc]
        rfl
    case getStrongConnectorStates =>
      cases reads (Or.inl rfl)
      obtain ⟨values,status,rfl⟩ := realAnswer fits
      cases allowed _ rfl _ rfl
      obtain ⟨future,present⟩ := presentReads rfl (read.2.1 waiting) read.1 absorbed
      exact ⟨future,fun some => absurd (absorbedIdle absorbed (by decide)) some,fun _ => present⟩

theorem readEntered {K : Coupling} {g : Control} {ps : List FMIClient} {c : FMIClient} {f : Fmu S} (idle : c.pending = [])
    (read : ReadSoFar f g.state c) : ReadSoFar f g.next (entered K g ps c) := by
  have kept := enteredKept K g ps c
  have future : FutureRead f c → FutureRead f (entered K g ps c) := by
    intro held
    rw [FutureRead,kept.answered,kept.connectors]
    exact held
  have asked : ∀ {r : Request}, g.state ≠ .getStrongConnectorStates → g.request g.next c = some r →
      (entered K g ps c).pending ≠ [] := by
    intro r other request
    obtain ⟨w,waiting⟩ := requestWaits request
    rw [entered,if_neg other,Control.enter,request,waiting]
    simp [FMIClient.send]
  have head := loopHeadCases g
  have next : g.next = _ := Control.next.eq_1 g
  cases at_ : g.state <;> simp only [at_] at next read <;> rw [next]
  case gettingStates =>
    exact fun none => absurd none (asked (by simp [at_]) (by rw [next]; rfl))
  case steppingSlavesForFutureVelo =>
    exact ⟨fun _ => by rw [kept.answered]; exact read idle,
      fun none => absurd none (asked (by simp [at_]) (by rw [next]; rfl))⟩
  case gettingFutureVelo =>
    exact ⟨future (read.2 idle),fun none => absurd none (asked (by simp [at_]) (by rw [next]; rfl))⟩
  case settingStates =>
    exact ⟨future read.1,fun _ => by rw [kept.answered]; exact read.2 idle,
      fun none => absurd none (asked (by simp [at_]) (by rw [next]; rfl))⟩
  case initializingSlaves => rcases head with h | h | h <;> rw [h] <;> trivial
  case startSimloop => rcases head with h | h | h <;> rw [h] <;> trivial
  case settingStrongCouplingForces => split <;> trivial
  case steppingSlaves =>
    split
    · rcases head with h | h | h <;> rw [h] <;> trivial
    · trivial
  case getStrongConnectorStates => trivial
  all_goals trivial

theorem readKept (K : Coupling) (fmus : ClientPtr → Fmu S) :
    Rounds.KeepsUnder (rounds K (.reading fmus)) (fun g => g.state.resting = true) (fun g c => InPhase g.state c)
      (fun _ : Unit => fun _ => True) fun _ g c => ReadSoFar (fmus c.self) g.state c where
  move _ phase _ _ read moved := readMove phase moved read
  turn := by
    intro _ g ps g' ps' _ phases _ read all turned
    refine turnHolds () phases all turned trivial fun c mem => ?_
    rw [(enteredKept K g ps c).self]
    exact readEntered (finishedIdle (phases c mem) (all c mem)).2.1 (read c mem)
  disturb := by
    intro _ g ps g' ps' _ _ _ read disturbed
    exact disturbHolds () disturbed (fun _ => trivial) fun _ => read

theorem freshRead {m₀ : Master} (fresh : m₀.Fresh) (fmus : ClientPtr → Fmu S) :
    Rounds.Holds (fun _ : Unit => fun _ => True) (fun _ g c => ReadSoFar (fmus c.self) g.state c) m₀.parts := by
  refine ⟨(),trivial,fun c _ => ?_⟩
  show ReadSoFar (fmus c.self) m₀.state c
  rw [fresh.state]
  trivial

theorem sentPresent {C : Cycle} {refs : List Int} {k : Nat} {rs : List Request}
    (sent : C.Sent refs k .getStrongConnectorStates rs) :
    ∃ head, rs = head ++ (C.rewindRequests refs (k*C.timeStep) ++ [.setFmuState 0,.getReal refs]) := by
  cases sent with
  | @iterate k all s part before begun =>
    cases begun with
    | present => exact ⟨C.startup ++ all,by simp [Cycle.rewindRequests]⟩

theorem trackRequests (f : Fmu S) (before since : List Exchange) :
    f.track (before ++ since) =
      (since.map Exchange.request).foldl (fun t r => f.exchange t ⟨r,.getXml⟩) (f.track before) := by
  rw [Fmu.track,List.foldl_append,List.foldl_map]
  rfl

theorem trackRewind (f : Fmu S) (before : List Exchange) {C : Cycle} {refs : List Int} {t : ℚ} {since : List Exchange}
    (requests : since.map Exchange.request = C.rewindRequests refs t ++ [.setFmuState 0,.getReal refs]) :
    (f.track (before ++ since)).saved = f.state before ∧
      (f.track (before ++ since)).stepped = f.exec (f.state before) (.doStep t C.timeStep true) := by
  rw [trackRequests,requests]
  exact ⟨rfl,rfl⟩

/- On entry to fetchDirectionalDerivatives, for every slave: `before` is its history when the
iteration began, and its connectors hold the values of that state and of the one after the step. -/
theorem connectorsHoldValues {K : Coupling} {fmus : ClientPtr → Fmu S} {m₀ m : Master}
    (configured : Master.Configured m₀) (ticked : Master.Ticked K (.reading fmus) m₀ m)
    (phase : m.state = .getStrongConnectorStates) (opened : m.allClientsHaveState .doneGetReal = true) :
    ∀ c ∈ m.slaves, ∃ before since, c.answered = before ++ since ∧
      since.map Exchange.request = m.toControl.cycle.rewindRequests c.getStrongConnectorValueReferences m.time ++
        [.setFmuState 0,.getReal c.getStrongConnectorValueReferences] ∧
      ∀ k ∈ c.strongConnectors, k.Present ((fmus c.self).out ((fmus c.self).state before)) ∧
        k.Future ((fmus c.self).out ((fmus c.self).exec ((fmus c.self).state before)
          (.doStep m.time m.timeStep true))) := by
  intro c mem
  have lock := tickedLockstep configured ticked
  have done := (Master.barrierOpen (by rw [phase]; rfl)).mp opened c mem
  have idle := (finishedIdle (lock.phases c mem) done).2.1
  obtain ⟨_,_,reads⟩ :=
    tickedKeeps configured (readKept K fmus) (freshRead (Master.configuredFresh configured) fmus) ticked
  have read : ReadSoFar (fmus c.self) m.state c := reads c mem
  rw [phase] at read
  obtain ⟨n,scheduled⟩ := tickedScheduled configured ticked
  have sent := scheduled.sent c mem
  rw [phase] at sent
  have time : m.time = n*m₀.toControl.cycle.timeStep := by
    rw [scheduled.clock.time,Control.elapsed,phase]
    simp [Control.cycle]
  obtain ⟨head,requests⟩ := sentPresent sent
  rw [FMIClient.requests,idle,List.append_nil,← time,← clockCycle scheduled.clock] at requests
  obtain ⟨before,since,split,_,same⟩ := List.map_eq_append_iff.mp requests
  obtain ⟨saved,stepped⟩ := trackRewind (fmus c.self) before same
  rw [← split] at saved stepped
  refine ⟨before,since,split,same,fun k inside => ⟨?_,?_⟩⟩
  · exact saved ▸ read.2.2 idle k inside
  · exact stepped ▸ read.1 k inside

end Values

def countingFmus (_ : ClientPtr) : Fmu Nat where
  start := 0
  exec s r := match r with
    | .doStep .. => s+1
    | _ => s
  out s _ := s

def readingEvents : List Event :=
  Event.speculation 0 1 ++ Event.both (.setFmuState .ok) ++ [.response 2 (.getReal (List.replicate 13 0) .ok)]

theorem connectorsHoldValuesCoupled :
    let m := (Master.coupled.after .perConstraint readingEvents).hearing 1 (.getReal (List.replicate 13 0) .ok)
    m.state = .getStrongConnectorStates ∧ ∀ c ∈ m.slaves, ∃ before since, c.answered = before ++ since ∧
      ∀ k ∈ c.strongConnectors, k.Present ((countingFmus c.self).out ((countingFmus c.self).state before)) ∧
        k.Future ((countingFmus c.self).out ((countingFmus c.self).state before+1)) := by
  have run : Run .perConstraint (.reading countingFmus) .coupled _ :=
    Master.afterPermitted (m := .coupled) (show Master.Permits _ _ _ readingEvents by decide +kernel) (by decide +kernel)
  have ticked := hearingTicked (p := 1) (a := .getReal (List.replicate 13 0) .ok) run (by decide +kernel)
    (by decide +kernel) (by decide +kernel)
  refine ⟨by decide +kernel,fun c mem => ?_⟩
  obtain ⟨before,since,split,_,held⟩ := connectorsHoldValues Master.coupledConfigured ticked (by decide +kernel)
    (by decide +kernel) c mem
  exact ⟨before,since,split,held⟩

end FmiTcpMaster
