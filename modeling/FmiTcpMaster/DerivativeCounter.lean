import FmiTcpMaster.DerivativeQueue
import FmiTcpMaster.Heard

/-! m_numDirectionalDerivativesLeft, against what is queued and on its way. It is set to 0 when the
phase is entered and goes down with every answer; nothing counts it up. -/
namespace FmiTcpMaster

def Request.isDerivative : Request → Bool
  | .getDirectionalDerivative _ => true
  | _ => false

/- How many more directional derivatives to wait for. -/
def FMIClient.Counted (c : FMIClient) : Prop :=
  c.numDirectionalDerivativesLeft = c.numDirectionalDerivativeRequests+(c.pending.filter Request.isDerivative).length

instance (c : FMIClient) : Decidable c.Counted := by unfold FMIClient.Counted; infer_instance

def Equation.Names (eqs : List Equation) (p : ClientPtr) : Prop := ∃ e ∈ eqs, e.connA = p ∨ e.connB = p

structure Derives (K : Coupling) (E : Environment) (m₀ : Master) (eqs : List Equation) (m : Master) : Prop where
  entry : ∃ m₁ m₂, Master.Ticked K E m₀ m₁ ∧ m₁.state = .getStrongConnectorStates ∧ m₁.equations K = eqs ∧
    m₁.tick K = .ok m₂ ∧ m₂.state = .gettingDirectionalDerivatives ∧ Deriving K E m₂ m

theorem pushedNone {K : Coupling} {eqs : List Equation} {p : ClientPtr} : K.pushed eqs p = [] ↔ ¬ Equation.Names eqs p := by
  rw [Coupling.pushed,List.flatMap_eq_nil_iff,Equation.Names]
  constructor
  · rintro none ⟨e,mem,named⟩
    have here := none e mem
    rcases named with a | b
    · simp [a] at here
    · simp [b] at here
  · intro unnamed e mem
    have apart : e.connA ≠ p ∧ e.connB ≠ p := not_or.mp fun named => unnamed ⟨e,mem,named⟩
    rw [if_neg apart.1,if_neg apart.2,List.append_nil]

theorem stepTicks {K : Coupling} {E : Environment} {m₀ m m' : Master} {e : Event} (configured : Master.Configured m₀)
    (run : Run K E m₀ m) (step : Step K E m e m') :
    (∃ m₁, Master.Ticked K E m₀ m₁ ∧ m₁.toControl = m.toControl ∧ m₁.tick K = .ok m') ∨
      (m'.state = m.state ∧ m'.slaves.Sublist m.slaves) := by
  have lock := reachLockstep configured run
  cases step with
  | @connect _ c mem down handled =>
    left
    obtain ⟨m₁,written,ticks⟩ := Master.bindOk handled
    obtain ⟨l,c₀,r,c',_,_,_,same⟩ := Master.derefSource lock.distinct written
    exact ⟨m₁,.connect run mem down written,by rw [same],ticks⟩
  | @response _ c req rest a mem oldest fits allowed handled =>
    left
    obtain ⟨l,r,split⟩ := List.append_of_mem mem
    rw [Master.handle,Master.receiveAbsorbs a split lock.distinct] at handled
    obtain ⟨c',absorbs,ticks⟩ := Master.bindOk handled
    have written : m.deref c.self (FMIClient.absorb m.state a) = .ok {m with slaves := l ++ c' :: r} := by
      rw [Master.derefAt split lock.distinct,absorbs]
      rfl
    exact ⟨_,.response run mem oldest fits allowed written,rfl,ticks⟩
  | @disconnect _ c mem allowed handled =>
    right
    obtain ⟨l,r,split⟩ := List.append_of_mem mem
    cases (Except.ok.inj handled).symm.trans (slaveDisconnectedAt split lock.distinct)
    refine ⟨?_,?_⟩
    · simp only []
      split <;> rfl
    · rw [split]
      exact List.Sublist.append_left (List.sublist_cons_self c r) l
  | error mem allowed handled =>
    right
    cases Except.ok.inj handled
    exact ⟨rfl,List.Sublist.refl _⟩

theorem tickDerives {K : Coupling} {m m' : Master} (lock : m.Lockstep) (ticks : m.tick K = .ok m')
    (deriving_ : m'.state = .gettingDirectionalDerivatives) (other : m.state ≠ .gettingDirectionalDerivatives) :
    m.state = .getStrongConnectorStates ∧ (∀ c ∈ m.slaves, m.toControl.finished c) := by
  have sound : m.Sound := ⟨lock.distinct,lock.resting⟩
  cases Master.tickTock sound ticks with
  | rests => exact absurd deriving_ other
  | enters opened _ control _ _ =>
    refine ⟨?_,opened⟩
    by_contra plain
    rw [control] at deriving_
    exact nextDerivative plain deriving_

theorem phaseEntered {K : Coupling} {E : Environment} {m₀ m : Master} (configured : Master.Configured m₀)
    (run : Run K E m₀ m) (deriving_ : m.state = .gettingDirectionalDerivatives) : ∃ eqs, Derives K E m₀ eqs m := by
  induction run with
  | refl =>
    rw [(Master.configuredFresh configured).state] at deriving_
    contradiction
  | @tail m m' run step ih =>
    obtain ⟨e,step⟩ := step
    by_cases before : m.state = .gettingDirectionalDerivatives
    · obtain ⟨eqs,⟨m₁,m₂,ticked,strong,same,ticks,entered,path⟩⟩ := ih before
      exact ⟨eqs,⟨m₁,m₂,ticked,strong,same,ticks,entered,path.tail ⟨⟨e,step⟩,deriving_⟩⟩⟩
    · rcases stepTicks configured run step with ⟨m₁,ticked,control,ticks⟩ | ⟨same,_⟩
      · have other : m₁.state ≠ .gettingDirectionalDerivatives := by
          rw [show m₁.state = m.state from congrArg Control.state control]
          exact before
        obtain ⟨strong,_⟩ := tickDerives (tickedLockstep configured ticked) ticks deriving_ other
        exact ⟨_,⟨m₁,m',ticked,strong,rfl,ticks,deriving_,.refl⟩⟩
      · exact absurd (same.symm.trans deriving_) before

section Counting
variable {K : Coupling} {E : Environment} {eqs : List Equation}

/- What the counter is instead: all that was pushed for the slave is missing from it. -/
def Short (K : Coupling) (eqs : List Equation) (c : FMIClient) : Prop :=
  c.numDirectionalDerivativesLeft+(K.pushed eqs c.self).length = c.numDirectionalDerivativeRequests+c.pending.length

theorem deriveShort {c : FMIClient} (idle : c.pending = []) (queue : c.Queue []) : Short K eqs (K.derive eqs c) := by
  rcases List.eq_nil_or_concat' (K.pushed eqs c.self) with none | ⟨q,d,some⟩
  · rw [deriveNone none]
    simp [Short,none,idle,FMIClient.numDirectionalDerivativeRequests,queue.vRefs]
  · rw [deriveSome some]
    simp [Short,FMIClient.send,FMIClient.withQueue,some,idle,FMIClient.numDirectionalDerivativeRequests]

theorem absorbLeft {phase : MasterState} {c c' : FMIClient} {dz : List ℚ} {status : Fmi2Status}
    (ok : c.absorb phase (.getDirectionalDerivative dz status) = .ok c') :
    c'.numDirectionalDerivativesLeft = c.numDirectionalDerivativesLeft-1 := by
  have delivered := congrArg FMIClient.numDirectionalDerivativesLeft (c.deliverFrame (.getDirectionalDerivative dz status))
  simp only [FMIClient.absorb] at ok
  split at ok
  · cases ok
    exact congrArg (·-1) delivered
  · unfold FMIClient.shiftExecuteDirectionalDerivativeRequest at ok
    split at ok <;> try contradiction
    cases ok
    exact congrArg (·-1) delivered

theorem moveShort {g : Control} {c c' : FMIClient} (deriving_ : g.state = .gettingDirectionalDerivatives)
    (phase : InPhase g.state c) (moved : moves E g c c') (short : Short K eqs c) : Short K eqs c' := by
  rcases moved.2 with ⟨connecting,_⟩ | ⟨_,r,rest,a,oldest,fits,_,ok⟩
  · simp [deriving_] at connecting
  · obtain ⟨c₁,absorbs,absorbed⟩ := inPhaseAbsorbs phase oldest fits
    cases Except.ok.inj (absorbs.symm.trans ok)
    obtain ⟨pending,asks,_⟩ := inPhaseOldest phase oldest
    rw [deriving_] at asks
    cases r <;> simp only [MasterState.asks,Bool.false_eq_true] at asks
    cases a <;> simp only [Response.answers,Bool.false_eq_true] at fits
    have left := absorbLeft ok
    rw [Short,absorbed.self,left]
    rw [Short,pending] at short
    rcases absorbed.rest with ⟨before,idle,_,after⟩ | ⟨_,q,d,before,pending',_,after⟩
    · rw [idle,FMIClient.queueLength after]
      rw [FMIClient.queueLength before] at short
      simp only [List.length_cons,List.length_nil] at short ⊢
      omega
    · rw [pending',FMIClient.queueLength after]
      rw [FMIClient.queueLength before] at short
      simp only [List.length_append,List.length_cons,List.length_nil] at short ⊢
      omega

theorem finishedShort {g : Control} {c : FMIClient} (phase : InPhase g.state c) (done : g.finished c)
    (short : Short K eqs c) : c.numDirectionalDerivativesLeft+(K.pushed eqs c.self).length = 0 := by
  obtain ⟨_,idle,empty⟩ := finishedIdle phase done
  rw [Short,idle,FMIClient.queueLength empty] at short
  exact short

theorem enterLeft (g : Control) (c : FMIClient) :
    (g.enter c).numDirectionalDerivativesLeft = c.numDirectionalDerivativesLeft := by
  unfold Control.enter
  split <;> rfl

theorem shortStep {m m' : Master} {e : Event} (lock : m.Lockstep) (deriving_ : m.state = .gettingDirectionalDerivatives)
    (short : ∀ c ∈ m.slaves, Short K eqs c) (step : Step K E m e m') :
    (m'.state = .gettingDirectionalDerivatives ∧ ∀ c ∈ m'.slaves, Short K eqs c) ∨
      (m'.state ≠ .gettingDirectionalDerivatives ∧
        ∀ c ∈ m'.slaves, c.numDirectionalDerivativesLeft+(K.pushed eqs c.self).length = 0) := by
  have moving : ∀ {l p q r}, m.slaves = l ++ p :: r → moves E m.toControl p q → ∀ c ∈ l ++ q :: r, Short K eqs c := by
    intro l p q r split moved
    rw [split,List.forall_mem_append,List.forall_mem_cons] at short
    rw [List.forall_mem_append,List.forall_mem_cons]
    exact ⟨short.1,moveShort deriving_ (lock.phases p (by simp [split])) moved short.2.1,short.2.2⟩
  cases derivingStep lock deriving_ step with
  | answers split moved stays slaves =>
    left
    exact ⟨stays,slaves ▸ moving split moved⟩
  | drains split moved phases all leaves slaves =>
    right
    refine ⟨by rw [leaves]; decide,fun c mem => ?_⟩
    rw [slaves] at mem
    obtain ⟨c₀,mem₀,rfl⟩ := List.mem_map.mp mem
    rw [enterLeft,Master.enterSelf]
    exact finishedShort (phases c₀ mem₀) (all c₀ mem₀) (moving split moved c₀ mem₀)
  | disturbs stays disturbed =>
    left
    exact ⟨stays,fun c mem => short c ((disturbedParties disturbed).2.subset mem)⟩

theorem shortRun {m m' : Master} (lock : m.Lockstep) (deriving_ : m.state = .gettingDirectionalDerivatives)
    (short : ∀ c ∈ m.slaves, Short K eqs c) (run : Deriving K E m m') :
    m'.Lockstep ∧ m'.state = .gettingDirectionalDerivatives ∧ ∀ c ∈ m'.slaves, Short K eqs c := by
  induction run with
  | refl => exact ⟨lock,deriving_,short⟩
  | tail _ step ih =>
    obtain ⟨⟨e,step⟩,stays⟩ := step
    obtain ⟨before,here,sofar⟩ := ih
    rcases shortStep before here sofar step with ⟨_,more⟩ | ⟨left,_⟩
    · exact ⟨stepLockstep before step,stays,more⟩
    · exact absurd stays left

theorem derivesShort {m₀ m : Master} (configured : Master.Configured m₀) (derives : Derives K E m₀ eqs m) :
    m.Lockstep ∧ m.state = .gettingDirectionalDerivatives ∧ ∀ c ∈ m.slaves, Short K eqs c := by
  obtain ⟨m₁,m₂,ticked,strong,rfl,ticks,deriving_,path⟩ := derives.entry
  have lock := tickedLockstep configured ticked
  obtain ⟨_,all⟩ := tickDerives lock ticks deriving_ (by rw [strong]; decide)
  have fetch := (Master.tickFetches strong all).symm.trans ticks
  obtain ⟨within,same⟩ := Master.fetchSource lock.distinct (finishedQueues lock all) fetch
  have opened : m₁.allClientsHaveState .doneGetReal = true := (Master.barrierOpen (by rw [strong]; rfl)).mpr all
  obtain ⟨_,ticks',lock',_,_⟩ := fetchServed lock strong opened within
  cases ticks.symm.trans ticks'
  subst same
  refine shortRun lock' rfl (fun c mem => ?_) path
  obtain ⟨c₀,mem₀,rfl⟩ := List.mem_map.mp mem
  obtain ⟨_,idle,queue⟩ := finishedIdle (lock.phases c₀ mem₀) (all c₀ mem₀)
  exact deriveShort idle queue

theorem derivingPending {c : FMIClient} (phase : InPhase .gettingDirectionalDerivatives c) :
    c.pending.filter Request.isDerivative = c.pending := by
  refine List.filter_eq_self.mpr fun r mem => ?_
  have asks := (inPhasePending phase).2 r mem
  cases r <;> first | rfl | contradiction

end Counting

/- The counter is exact for the slaves that no equation names, and for no other. -/
theorem counterExact {K : Coupling} {E : Environment} {m₀ : Master} (configured : Master.Configured m₀) :
    (∀ m, Run K E m₀ m → m.state = .gettingDirectionalDerivatives → ∃ eqs, Derives K E m₀ eqs m) ∧
    ∀ eqs m, Derives K E m₀ eqs m →
      (∀ c ∈ m.slaves, (c.Counted ∧ 0 ≤ c.numDirectionalDerivativesLeft) ↔ ¬ Equation.Names eqs c.self) ∧
      ∀ e m', Step K E m e m' → m'.state ≠ .gettingDirectionalDerivatives →
        ∀ c ∈ m'.slaves, c.numDirectionalDerivativesLeft = 0 ↔ ¬ Equation.Names eqs c.self := by
  refine ⟨fun m run => phaseEntered configured run,fun eqs m derives => ?_⟩
  obtain ⟨lock,deriving_,short⟩ := derivesShort configured derives
  have empty : ∀ p, (K.pushed eqs p).length = 0 ↔ ¬ Equation.Names eqs p := fun p =>
    List.length_eq_zero_iff.trans pushedNone
  refine ⟨fun c mem => ?_,fun e m' step leaves c mem => ?_⟩
  · have here := short c mem
    rw [Short] at here
    rw [← empty,FMIClient.Counted,derivingPending (deriving_ ▸ lock.phases c mem)]
    omega
  · rcases shortStep lock deriving_ short step with ⟨stays,_⟩ | ⟨_,answered⟩
    · exact absurd stays leaves
    · have here := answered c mem
      rw [← empty]
      omega

def countingEvents : List Event := derivativeEvents ++ [.response 1 (.getReal (List.replicate 13 0) .ok)]

theorem counterExactCoupled :
    let m := Master.coupled.after .perConstraint countingEvents
    ∃ eqs, Derives .perConstraint .anything .coupled eqs m ∧
      ∀ c ∈ m.slaves, (c.Counted ∧ 0 ≤ c.numDirectionalDerivativesLeft) ↔ ¬ Equation.Names eqs c.self := by
  intro m
  have run : Run .perConstraint .anything .coupled m := Master.afterRun _ (fun e _ => anythingAlways e) (by decide +kernel)
  obtain ⟨entered,exact_⟩ := counterExact (K := .perConstraint) (E := .anything) Master.coupledConfigured
  obtain ⟨eqs,derives⟩ := entered m run (by decide +kernel)
  exact ⟨eqs,derives,(exact_ eqs m derives).1⟩

theorem counterWrong :
    (¬ ∀ m, Run .perConstraint .anything .coupled m → m.state = .gettingDirectionalDerivatives → ∀ c ∈ m.slaves, c.Counted) ∧
    ∃ m, Run .perConstraint .anything .coupled m ∧ m.state = .settingStrongCouplingForces ∧
      ∀ c ∈ m.slaves, c.numDirectionalDerivativesLeft = -1 := by
  constructor
  · intro counted
    have run := Master.afterRun (K := .perConstraint) (m := .coupled) countingEvents (fun e _ => anythingAlways e)
      (by decide +kernel)
    exact absurd (counted _ run (by decide +kernel)) (by decide +kernel)
  · exact ⟨_,Master.afterRun (countingEvents ++ Event.both (.getDirectionalDerivative [] .ok)) (fun e _ => anythingAlways e)
      (by decide +kernel),by decide +kernel,by decide +kernel⟩

end FmiTcpMaster
