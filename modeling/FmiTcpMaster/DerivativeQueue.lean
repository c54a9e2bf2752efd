import FmiTcpMaster.Cycle

/-! The derivative phase. Each slave has a queue of its own, filled once on entry and drained
by its own answers, whatever the other slaves do in between. -/
namespace FmiTcpMaster

def Environment.staying (answers : Control → FMIClient → Request → Response → Prop)
    (fails : Master → FMIClient → Prop) : Environment := ⟨answers,fun _ _ => False,fails⟩

theorem stayingDisturbs {answers fails} {g g' : Control} {ps ps' : List FMIClient}
    (disturbed : Disturbs (.staying answers fails) g ps g' ps') : (∃ n, g' = {g with exits := n}) ∧ ps' = ps := by
  cases disturbed with
  | leave allowed => exact absurd allowed id
  | fail => exact ⟨⟨_,rfl⟩,rfl⟩

abbrev Deriving (K : Coupling) (E : Environment) :=
  Relation.ReflTransGen fun m m' => (∃ e, Step K E m e m') ∧ m'.state = .gettingDirectionalDerivatives

def Served (K : Coupling) (eqs : List Equation) (c c' : FMIClient) : Prop :=
  c'.self = c.self ∧ ∃ sent left : List DerivativeRequest, c'.requests = c.requests ++ sent.map .getDirectionalDerivative ∧
    c'.Queue left ∧ (sent ++ left).Perm (K.pushed eqs c.self)

def Drained (K : Coupling) (eqs : List Equation) (c c' : FMIClient) : Prop :=
  c'.self = c.self ∧ c'.Queue [] ∧ ∃ sent : List DerivativeRequest,
    c'.requests = c.requests ++ sent.map .getDirectionalDerivative ++ [.setReal [] []] ∧
    sent.Perm (K.pushed eqs c.self)

theorem deriveServed (K : Coupling) (eqs : List Equation) {c : FMIClient} (queue : c.Queue []) :
    Served K eqs c (K.derive eqs c) := by
  refine ⟨(deriveKept K eqs c).self,?_⟩
  rcases List.eq_nil_or_concat' (K.pushed eqs c.self) with none | ⟨q,d,some⟩
  · refine ⟨[],[],?_,?_,by rw [none]; rfl⟩
    · rw [deriveNone none]
      simp [FMIClient.requests]
    · rw [deriveNone none]
      exact ⟨queue.vRefs,queue.zRefs,queue.dvs⟩
  · refine ⟨[d],q,?_,?_,?_⟩
    · rw [deriveSome some]
      simp [FMIClient.requests,FMIClient.send,FMIClient.withQueue]
    · rw [deriveSome some]
      exact ⟨rfl,rfl,rfl⟩
    · rw [some]
      exact List.perm_append_comm

theorem servedMove {K : Coupling} {E : Environment} {eqs : List Equation} {g : Control} {c p q : FMIClient}
    (deriving_ : g.state = .gettingDirectionalDerivatives) (phase : InPhase g.state p) (moved : moves E g p q)
    (served : Served K eqs c p) : Served K eqs c q := by
  rcases moveCases phase moved with ⟨connecting,_⟩ | ⟨r,a,reply⟩
  · simp [deriving_] at connecting
  · obtain ⟨self,sent,left,requests,queue,perm⟩ := served
    have more := absorbedRequests reply.pending reply.absorbed
    refine ⟨reply.absorbed.self.trans self,?_⟩
    rcases reply.absorbed.rest with ⟨before,idle,_,after⟩ | ⟨_,rest,d,before,pending,_,after⟩
    · cases FMIClient.queueUnique before queue
      exact ⟨sent,[],by rw [more,idle,List.append_nil,requests],after,perm⟩
    · cases FMIClient.queueUnique before queue
      refine ⟨sent ++ [d],rest,?_,after,?_⟩
      · rw [more,pending,requests,List.map_append,List.append_assoc]
        rfl
      · rw [List.append_assoc]
        exact (List.perm_append_comm.append_left sent).trans perm

theorem servedDrained {K : Coupling} {eqs : List Equation} {g : Control} {c p : FMIClient}
    (deriving_ : g.state = .gettingDirectionalDerivatives) (phase : InPhase g.state p) (done : g.finished p)
    (served : Served K eqs c p) : Drained K eqs c (g.enter p) := by
  obtain ⟨self,sent,left,requests,queue,perm⟩ := served
  obtain ⟨_,_,empty⟩ := finishedIdle phase done
  cases FMIClient.queueUnique empty queue
  have next : g.next = .settingStrongCouplingForces := by rw [Control.next,deriving_]
  refine ⟨?_,?_,sent,?_,by simpa using perm⟩
  · rw [Control.enter,next]
    exact self
  · rw [Control.enter,next]
    exact ⟨empty.vRefs,empty.zRefs,empty.dvs⟩
  · rw [enterRequests,next,requests]
    rfl

inductive DerivingStep (E : Environment) (m m' : Master) : Prop where
  | answers {l p q r} (split : m.slaves = l ++ p :: r) (moved : moves E m.toControl p q)
      (stays : m'.state = .gettingDirectionalDerivatives) (slaves : m'.slaves = l ++ q :: r)
  | drains {l p q r} (split : m.slaves = l ++ p :: r) (moved : moves E m.toControl p q)
      (phases : ∀ c ∈ l ++ q :: r, InPhase m.state c) (all : ∀ c ∈ l ++ q :: r, m.toControl.finished c)
      (leaves : m'.state = .settingStrongCouplingForces) (slaves : m'.slaves = (l ++ q :: r).map m.toControl.enter)
  | disturbs (stays : m'.state = .gettingDirectionalDerivatives)
      (disturbed : Disturbs E m.toControl m.slaves m'.toControl m'.slaves)

theorem derivingStep {K : Coupling} {E : Environment} {m m' : Master} {e : Event} (lock : m.Lockstep)
    (deriving_ : m.state = .gettingDirectionalDerivatives) (step : Step K E m e m') : DerivingStep E m m' := by
  have round := stepRounds lock step
  have phases := lock.phases
  obtain ⟨g,ps⟩ := m
  obtain ⟨g',ps'⟩ := m'
  simp only [Master.parts] at round deriving_ phases
  cases round with
  | stay moved _ => exact .answers rfl moved deriving_ rfl
  | turn moved all turned =>
    have inside := Rounds.moveKeepsAll (i := ()) (lockstepKept K E) lock.resting phases moved
    obtain ⟨rfl,rfl,_⟩ := turnSource inside all turned
    have next : g.next = .settingStrongCouplingForces := by rw [Control.next,deriving_]
    refine .drains rfl moved inside all next (List.map_congr_left fun c _ => ?_)
    exact if_neg (by rw [deriving_]; decide)
  | disturb disturbed =>
    refine .disturbs ?_ disturbed
    obtain ⟨⟨n,rfl⟩,_⟩ := disturbedParties disturbed
    exact deriving_

theorem servedStep {K : Coupling} {answers fails} {eqs : List Equation} {m m' : Master} {e : Event}
    {cs : List FMIClient} (lock : m.Lockstep) (deriving_ : m.state = .gettingDirectionalDerivatives)
    (served : List.Forall₂ (Served K eqs) cs m.slaves) (step : Step K (.staying answers fails) m e m') :
    (m'.state = .gettingDirectionalDerivatives ∧ List.Forall₂ (Served K eqs) cs m'.slaves) ∨
    (m'.state = .settingStrongCouplingForces ∧ List.Forall₂ (Drained K eqs) cs m'.slaves) := by
  have moving : ∀ {l p q r}, m.slaves = l ++ p :: r → moves (.staying answers fails) m.toControl p q →
      List.Forall₂ (Served K eqs) cs (l ++ q :: r) := by
    intro l p q r split moved
    refine Rounds.replaceOne (split ▸ served) fun _ before => ?_
    exact servedMove deriving_ (lock.phases p (by simp [split])) moved before
  cases derivingStep lock deriving_ step with
  | answers split moved stays slaves =>
    left
    exact ⟨stays,slaves ▸ moving split moved⟩
  | drains split moved phases all leaves slaves =>
    right
    refine ⟨leaves,?_⟩
    rw [slaves]
    exact Rounds.mapAll (moving split moved) fun _ x mem before => servedDrained deriving_ (phases x mem) (all x mem) before
  | disturbs stays disturbed =>
    left
    obtain ⟨_,same⟩ := stayingDisturbs disturbed
    exact ⟨stays,same ▸ served⟩

theorem servedRun {K : Coupling} {answers fails} {eqs : List Equation} {m m' : Master} {cs : List FMIClient}
    (lock : m.Lockstep) (deriving_ : m.state = .gettingDirectionalDerivatives)
    (served : List.Forall₂ (Served K eqs) cs m.slaves) (run : Deriving K (.staying answers fails) m m') :
    m'.Lockstep ∧ m'.state = .gettingDirectionalDerivatives ∧ List.Forall₂ (Served K eqs) cs m'.slaves := by
  induction run with
  | refl => exact ⟨lock,deriving_,served⟩
  | tail _ step ih =>
    obtain ⟨⟨e,step⟩,stays⟩ := step
    obtain ⟨before,here,sofar⟩ := ih
    rcases servedStep before here sofar step with ⟨_,more⟩ | ⟨left,_⟩
    · exact ⟨stepLockstep before step,stays,more⟩
    · simp [stays] at left

section Faults

theorem bindError {α β ε : Type} {x : Except ε α} {f : α → Except ε β} {e : ε} (failed : (x >>= f) = .error e) :
    x = .error e ∨ ∃ a, x = .ok a ∧ f a = .error e := by
  cases x with
  | error e' => cases failed; exact Or.inl rfl
  | ok a => exact Or.inr ⟨a,rfl,failed⟩

theorem derefFault {m : Master} {p : ClientPtr} {f : FMIClient → FMIClient} {x : Fault}
    (failed : m.deref p (fun c => .ok (f c)) = .error x) : x = .deletedClient := by
  rcases bindError failed with lost | ⟨_,_,impossible⟩
  · exact Keyed.updateFails FMIClient.self lost
  · cases impossible

theorem pushFault {K : Coupling} {m : Master} {e : Equation} {x : Fault} (failed : m.pushEquation K e = .error x) :
    x = .deletedClient := by
  rcases bindError failed with lost | ⟨_,_,failed⟩
  · exact derefFault lost
  rcases bindError failed with lost | ⟨_,_,failed⟩
  · exact derefFault lost
  rcases bindError failed with lost | ⟨_,_,lost⟩
  · exact derefFault lost
  · exact derefFault lost

theorem pushAllFault {K : Coupling} {eqs : List Equation} {m : Master} {x : Fault}
    (failed : eqs.foldlM (Master.pushEquation K) m = .error x) : x = .deletedClient := by
  induction eqs generalizing m with
  | nil => cases failed
  | cons e eqs ih =>
    rw [List.foldlM_cons] at failed
    rcases bindError failed with first | ⟨_,_,later⟩
    · exact pushFault first
    · exact ih later

theorem fetchFault {K : Coupling} {m : Master} {x : Fault} (distinct : m.addresses.Nodup)
    (queues : ∀ c ∈ m.slaves, c.Queue []) (failed : m.fetchDirectionalDerivatives K = .error x) : x = .deletedClient := by
  have pushes := failed
  rw [Master.fetchPushes queues] at pushes
  rcases bindError pushes with pushing | ⟨_,pushed,_⟩
  · exact pushAllFault pushing
  · have within := Master.pushEquationsWithin distinct [] pushed
    cases failed.symm.trans (Master.fetchEnters distinct queues within)

theorem tickFault {K : Coupling} {m : Master} {x : Fault} (lock : m.Lockstep) (failed : m.tick K = .error x) :
    x = .deletedClient := by
  by_cases all : ∀ c ∈ m.slaves, m.toControl.finished c
  · by_cases strong : m.state = .getStrongConnectorStates
    · rw [Master.tickFetches strong all] at failed
      exact fetchFault lock.distinct (finishedQueues lock all) failed
    · obtain ⟨m',ok⟩ := tickOk (K := K) lock fun h => absurd h strong
      cases failed.symm.trans ok
  · cases failed.symm.trans (Master.tickStays lock.resting all)

theorem handleFault {K : Coupling} {m : Master} {e : Event} {x : Fault} (lock : m.Lockstep)
    (possible : m.possible e = true) (failed : m.handle K e = .error x) : x = .deletedClient := by
  rcases handleTicks (K := K) lock possible with ⟨m',ok⟩ | ⟨m₁,lock₁,_,_,ticks⟩
  · cases failed.symm.trans ok
  · exact tickFault lock₁ (ticks.symm.trans failed)

end Faults

theorem fetchServed {K : Coupling} {m : Master} (lock : m.Lockstep) (phase : m.state = .getStrongConnectorStates)
    (opened : m.allClientsHaveState .doneGetReal = true) (within : Equation.within (m.equations K) m.addresses) :
    ∃ m', m.tick K = .ok m' ∧ m'.Lockstep ∧ m'.state = .gettingDirectionalDerivatives ∧
      List.Forall₂ (Served K (m.equations K)) m.slaves m'.slaves := by
  have all := (Master.barrierOpen (by rw [phase]; rfl)).mp opened
  have queues := finishedQueues lock all
  have ticks := Master.tickFetches (K := K) phase all
  refine ⟨_,ticks.trans (Master.fetchEnters lock.distinct queues within),⟨?_,rfl,fun c mem => ?_⟩,rfl,?_⟩
  · have same : (m.slaves.map (K.derive (m.equations K))).map FMIClient.self = m.addresses := by
      rw [List.map_map]
      exact List.map_congr_left fun c _ => (deriveKept K (m.equations K) c).self
    rw [Master.addresses,same]
    exact lock.distinct
  · obtain ⟨c₀,mem₀,rfl⟩ := List.mem_map.mp mem
    exact deriveInPhase K _ (finishedIdle (lock.phases c₀ mem₀) (all c₀ mem₀))
  · refine Rounds.mapAll (R := Eq) (List.forall₂_same.mpr fun _ _ => rfl) ?_
    rintro c _ mem rfl
    exact deriveServed K _ (queues c mem)

/- m₁ is the master on entry to the phase, m₂ once fetchDirectionalDerivatives() is done. -/
theorem derivativesServed {K : Coupling} {answers fails} {m₀ : Master} (configured : Master.Configured m₀) :
    (∀ E m, Run K E m₀ m → ∀ e, m.possible e = true → m.handle K e ≠ .error .emptyQueue) ∧
    ∀ m₁, Master.Ticked K (.staying answers fails) m₀ m₁ → m₁.state = .getStrongConnectorStates →
      m₁.allClientsHaveState .doneGetReal = true → Equation.within (m₁.equations K) m₁.addresses →
      ∃ m₂, m₁.tick K = .ok m₂ ∧ m₂.state = .gettingDirectionalDerivatives ∧
        ∀ m, Deriving K (.staying answers fails) m₂ m →
          List.Forall₂ (Served K (m₁.equations K)) m₁.slaves m.slaves ∧ (∀ c ∈ m.slaves, c.pending.length ≤ 1) ∧
          ∀ e m', Step K (.staying answers fails) m e m' → m'.state ≠ .gettingDirectionalDerivatives →
            List.Forall₂ (Drained K (m₁.equations K)) m₁.slaves m'.slaves := by
  constructor
  · intro E m run e possible failed
    cases handleFault (reachLockstep configured run) possible failed
  · intro m₁ ticked phase opened within
    obtain ⟨m₂,ticks,lock,entered,served⟩ := fetchServed (tickedLockstep configured ticked) phase opened within
    refine ⟨m₂,ticks,entered,fun m run => ?_⟩
    obtain ⟨lock',here,sofar⟩ := servedRun lock entered served run
    refine ⟨sofar,fun c mem => (inPhasePending (lock'.phases c mem)).1,fun e m' step leaves => ?_⟩
    rcases servedStep lock' here sofar step with ⟨stays,_⟩ | ⟨_,drained⟩
    · exact absurd stays leaves
    · exact drained

def Coupling.twoRows : Coupling where
  getEquations _ := [.between 1 2 5,.between 1 1 6]
  requestA e := ⟨[0],[1],[e.spatialJacobianSeedA 0]⟩
  requestB e := ⟨[2],[3],[e.spatialJacobianSeedB 0]⟩

def derivativeEvents : List Event :=
  Event.speculation 0 0 ++ Event.both (.setFmuState .ok) ++ [.response 2 (.getReal (List.replicate 13 0) .ok)]

theorem derivativesServedCoupled :
    let m₁ := (Master.coupled.after .twoRows derivativeEvents).hearing 1 (.getReal (List.replicate 13 0) .ok)
    ∃ m₂, m₁.tick .twoRows = .ok m₂ ∧ List.Forall₂ (Served .twoRows (m₁.equations .twoRows)) m₁.slaves m₂.slaves := by
  have run : Run .twoRows .reliable .coupled _ :=
    Master.afterRun derivativeEvents (messagesAlways (fun _ => true) (fun _ _ _ _ _ => trivial) rfl) (by decide +kernel)
  have ticked := hearingTicked (p := 1) (a := .getReal (List.replicate 13 0) .ok) run (by decide +kernel)
    (fun _ _ _ _ _ _ => trivial) (by decide +kernel)
  obtain ⟨m₂,ticks,_,served⟩ := (derivativesServed Master.coupledConfigured).2 _ ticked (by decide +kernel)
    (by decide +kernel) (by decide +kernel)
  exact ⟨m₂,ticks,(served m₂ .refl).1⟩

end FmiTcpMaster
