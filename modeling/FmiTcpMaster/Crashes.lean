import FmiTcpMaster.Conformance

/-! When a handler does not return, whatever the slaves send: two causes, and no other. -/
namespace FmiTcpMaster

theorem mapMFails {α β ε : Type} {f : α → Except ε β} {x : ε} {xs : List α} (each : ∀ a ∈ xs, f a = .error x)
    (nonempty : xs ≠ []) : xs.mapM f = .error x := by
  cases xs with
  | nil => exact absurd rfl nonempty
  | cons a xs =>
    rw [List.mapM_cons,each a List.mem_cons_self]
    rfl

def MasterState.stores : MasterState → Bool
  | .getStrongConnectorStates | .gettingFutureVelo => true
  | _ => false

namespace FMIClient

/- The assert() at the head of setValues() and setFutureValues(): it looks at the two lists only, so
it fails for the first connector or for none. -/
theorem connectorsFault {p : Prop} {f : StrongConnector → Except Fault StrongConnector} {g : StrongConnector → StrongConnector}
    {ks : List StrongConnector} {h : List StrongConnector → FMIClient} {x : Fault} (passes : p → ∀ k, f k = .ok (g k))
    (fails : ¬ p → ∀ k, f k = .error .assertion) :
    (do let ks' ← ks.mapM f; Except.ok (h ks')) = .error x ↔ x = .assertion ∧ ks ≠ [] ∧ ¬ p := by
  by_cases same : p
  · rw [Keyed.mapMOk fun k _ => passes same k]
    exact ⟨fun failed => (by cases failed),fun wrong => absurd same wrong.2.2⟩
  · by_cases none : ks = []
    · subst none
      exact ⟨fun failed => (by cases failed),fun wrong => absurd rfl wrong.2.1⟩
    · rw [mapMFails (fun k _ => fails same k) none]
      refine ⟨fun failed => ⟨(Except.error.inj failed).symm,none,same⟩,fun wrong => ?_⟩
      rw [wrong.1]
      rfl

theorem derivativeAbsorbed {s : MasterState} {c : FMIClient} {dz : List ℚ} {status : Fmi2Status}
    {q : List DerivativeRequest} (queue : c.Queue q) :
    ∃ c', c.absorb s (.getDirectionalDerivative dz status) = .ok c' := by
  have delivered := deliverQueue (a := .getDirectionalDerivative dz status) queue
  have counted : FMIClient.Queue {c.deliver (.getDirectionalDerivative dz status) with
      numDirectionalDerivativesLeft := (c.deliver (.getDirectionalDerivative dz status)).numDirectionalDerivativesLeft-1} q :=
    ⟨delivered.vRefs,delivered.zRefs,delivered.dvs⟩
  simp only [absorb,queueLength counted]
  rcases List.eq_nil_or_concat' q with rfl | ⟨rest,d,rfl⟩
  · exact ⟨_,rfl⟩
  · rw [if_neg (by simp),shiftQueue counted]
    exact ⟨_,rfl⟩

theorem readingFault {s : MasterState} {c : FMIClient} {values : List ℚ} {status : Fmi2Status} {x : Fault} :
    c.absorb s (.getReal values status) = .error x ↔ x = .assertion ∧ s.stores = true ∧ c.strongConnectors ≠ [] ∧
      c.getStrongConnectorValueReferences.length ≠ values.length := by
  have connectors := congrArg FMIClient.strongConnectors (c.deliverFrame (.getReal values status))
  have references := deliverReferences c (.getReal values status)
  have stored : s.stores = true → (x = .assertion ∧ s.stores = true ∧ c.strongConnectors ≠ [] ∧
      c.getStrongConnectorValueReferences.length ≠ values.length ↔ x = .assertion ∧ c.strongConnectors ≠ [] ∧
      ¬ c.getStrongConnectorValueReferences.length = values.length) := fun h => by simp [h]
  rw [← references,← connectors] at stored ⊢
  simp only [absorb]
  split
  · rw [stored rfl]
    exact connectorsFault (fun same _ => if_pos same) fun wrong _ => if_neg wrong
  · rw [stored rfl]
    exact connectorsFault (fun same _ => if_pos same) fun wrong _ => if_neg wrong
  · refine ⟨fun failed => (by cases failed),fun wrong => ?_⟩
    have stores := wrong.2.1
    unfold MasterState.stores at stores
    split at stores <;> contradiction

theorem absorbFault {s : MasterState} {a : Response} {c : FMIClient} {x : Fault} (tidy : c.Tidy s) :
    c.absorb s a = .error x ↔ x = .assertion ∧ s.stores = true ∧ c.strongConnectors ≠ [] ∧
      ∃ values status, a = .getReal values status ∧ c.getStrongConnectorValueReferences.length ≠ values.length := by
  obtain ⟨q,queue,_⟩ := tidy
  have never : (∃ c', c.absorb s a = .ok c') → (∀ values status, a ≠ .getReal values status) → (c.absorb s a = .error x ↔
      x = .assertion ∧ s.stores = true ∧ c.strongConnectors ≠ [] ∧
        ∃ values status, a = .getReal values status ∧ c.getStrongConnectorValueReferences.length ≠ values.length) := by
    rintro ⟨c',ok⟩ other
    rw [ok]
    exact ⟨fun failed => (by cases failed),fun ⟨_,_,_,values,status,same,_⟩ => absurd same (other values status)⟩
  cases a with
  | getReal values status =>
    refine readingFault.trans ⟨fun ⟨fault,phase,used,wrong⟩ => ⟨fault,phase,used,_,_,rfl,wrong⟩,?_⟩
    rintro ⟨fault,phase,used,_,_,⟨⟩,wrong⟩
    exact ⟨fault,phase,used,wrong⟩
  | getDirectionalDerivative dz status => exact never (derivativeAbsorbed queue) (by simp)
  | _ => exact never ⟨_,rfl⟩ (by simp)

end FMIClient

namespace Master

theorem tickFaultExact {K : Coupling} {m : Master} (sound : m.Sound) (tidy : ∀ c ∈ m.slaves, c.Tidy m.state) {x : Fault} :
    m.tick K = .error x ↔ x = .deletedClient ∧ m.state = .getStrongConnectorStates ∧
      (∀ c ∈ m.slaves, m.toControl.finished c) ∧ ¬ Equation.within (m.equations K) m.addresses := by
  by_cases strong : m.state = .getStrongConnectorStates
  · have queues : ∀ c ∈ m.slaves, c.Queue [] := fun c mem => FMIClient.tidyQueue (tidy c mem) (by rw [strong]; decide)
    by_cases all : ∀ c ∈ m.slaves, m.toControl.finished c
    · rw [tickFetches strong all]
      constructor
      · intro failed
        refine ⟨fetchFault sound.distinct queues failed,strong,all,fun within => ?_⟩
        cases failed.symm.trans (fetchEnters sound.distinct queues within)
      · rintro ⟨rfl,_,_,lost⟩
        cases fetched : m.fetchDirectionalDerivatives K with
        | ok m' => exact absurd (fetchSource sound.distinct queues fetched).1 lost
        | error y => rw [fetchFault sound.distinct queues fetched]
    · rw [tickStays sound.resting all]
      exact ⟨fun failed => (by cases failed),fun wrong => absurd wrong.2.2.1 all⟩
  · have ok : ∃ m', m.tick K = .ok m' := by
      unfold tick
      cases at_ : m.state
      case getStrongConnectorStates => exact absurd at_ strong
      all_goals exact ⟨_,rfl⟩
    obtain ⟨m',ok⟩ := ok
    rw [ok]
    exact ⟨fun failed => (by cases failed),fun wrong => absurd wrong.2.1 strong⟩

end Master

def Master.Written (m : Master) (e : Event) (m₁ : Master) : Prop :=
  e.ticks = true ∧ m.deref e.slave (e.write m.state) = .ok m₁

theorem writeFault {s : MasterState} {e : Event} {c : FMIClient} {x : Fault} (ticks : e.ticks = true)
    (self : e.slave = c.self) (tidy : c.Tidy s) : e.write s c = .error x ↔
      x = .assertion ∧ s.stores = true ∧ c.strongConnectors ≠ [] ∧ ∃ values status,
        e = .response c.self (.getReal values status) ∧ c.getStrongConnectorValueReferences.length ≠ values.length := by
  cases e with
  | connect p => exact ⟨fun failed => (by cases failed),fun ⟨_,_,_,_,_,same,_⟩ => by cases same⟩
  | response p a =>
    cases self
    refine (FMIClient.absorbFault tidy).trans ⟨?_,?_⟩
    · rintro ⟨fault,phase,used,values,status,rfl,wrong⟩
      exact ⟨fault,phase,used,values,status,rfl,wrong⟩
    · rintro ⟨fault,phase,used,values,status,same,wrong⟩
      cases same
      exact ⟨fault,phase,used,values,status,rfl,wrong⟩
  | disconnect | error => cases ticks

theorem orderlyFault {K : Coupling} {g₀ : Control} {m : Master} {e : Event} (orderly : m.Orderly g₀)
    (own : e.slave ∈ m.addresses) (x : Fault) :
    m.handle K e = .error x ↔
      (x = .assertion ∧ m.state.stores = true ∧ ∃ c ∈ m.slaves, c.strongConnectors ≠ [] ∧ ∃ values status,
        e = .response c.self (.getReal values status) ∧ c.getStrongConnectorValueReferences.length ≠ values.length) ∨
      (x = .deletedClient ∧ m.state = .getStrongConnectorStates ∧ ∃ m₁, m.Written e m₁ ∧
        (∀ c ∈ m₁.slaves, m₁.toControl.finished c) ∧ ¬ Equation.within (m₁.equations K) m₁.addresses) := by
  obtain ⟨c,mem,self⟩ := List.mem_map.mp own
  cases ticks : e.ticks with
  | false =>
    cases e with
    | connect | response => cases ticks
    | disconnect | error =>
      refine ⟨fun failed => (by cases failed),?_⟩
      rintro (⟨_,_,_,_,_,_,_,same,_⟩ | ⟨_,_,_,⟨wrong,_⟩,_⟩)
      · cases same
      · cases wrong
  | true =>
    obtain ⟨l,r,split⟩ := List.append_of_mem mem
    have distinct := orderly.sound.distinct
    rw [handleWrites ticks self.symm split distinct]
    have written : ∀ m₁, m.Written e m₁ ↔ ∃ c', e.write m.state c = .ok c' ∧ m₁ = {m with slaves := l ++ c' :: r} := by
      intro m₁
      rw [Master.Written,← self,Master.derefAt split distinct]
      cases e.write m.state c with
      | error y => exact ⟨fun h => (by cases h.2),fun ⟨_,h,_⟩ => (by cases h)⟩
      | ok c' => exact ⟨fun h => ⟨c',rfl,(Except.ok.inj h.2).symm⟩,fun ⟨_,h,same⟩ => ⟨ticks,by cases h; rw [same]; rfl⟩⟩
    have only : ∀ d ∈ m.slaves, ∀ a : Response, e = .response d.self a → d = c := by
      rintro d inside a rfl
      exact List.inj_on_of_nodup_map distinct inside mem self.symm
    cases writes : e.write m.state c with
    | error y =>
      have fault := (writeFault ticks self.symm (orderly.tidy c mem)).mp writes
      constructor
      · intro failed
        cases failed
        exact .inl ⟨fault.1,fault.2.1,c,mem,fault.2.2⟩
      · rintro (⟨rfl,_⟩ | ⟨_,_,m₁,after,_⟩)
        · rw [fault.1]
          rfl
        · obtain ⟨c',ok,_⟩ := (written m₁).mp after
          cases writes.symm.trans ok
    | ok c' =>
      have after := Master.writtenOrderly orderly split (FMIClient.writeHeeds ticks (orderly.tidy c mem) writes)
      refine (Master.tickFaultExact after.sound after.tidy).trans ⟨fun h => .inr ?_,?_⟩
      · exact ⟨h.1,h.2.1,_,(written _).mpr ⟨c',writes,rfl⟩,h.2.2⟩
      · rintro (⟨rfl,stores,d,inside,used,values,status,same,wrong⟩ | ⟨rfl,strong,m₁,found,opened⟩)
        · cases only d inside _ same
          cases writes.symm.trans ((writeFault ticks self.symm (orderly.tidy c mem)).mpr ⟨rfl,stores,used,values,status,same,wrong⟩)
        · obtain ⟨c₁,ok,rfl⟩ := (written m₁).mp found
          cases writes.symm.trans ok
          exact ⟨rfl,strong,opened⟩

/- The only faults: a reading of the wrong length for a slave with connectors while readings are
stored, and a last reading that opens the barrier when an equation names a slave that has left. -/
theorem faultExact {K : Coupling} {m₀ m : Master} {e : Event} (configured : Master.Configured m₀) (heard : Heard K m₀ m)
    (own : e.slave ∈ m.addresses) (x : Fault) :
    m.handle K e = .error x ↔
      (x = .assertion ∧ m.state.stores = true ∧ ∃ c ∈ m.slaves, c.strongConnectors ≠ [] ∧ ∃ values status,
        e = .response c.self (.getReal values status) ∧ c.getStrongConnectorValueReferences.length ≠ values.length) ∨
      (x = .deletedClient ∧ m.state = .getStrongConnectorStates ∧ ∃ m₁, m.Written e m₁ ∧
        (∀ c ∈ m₁.slaves, m₁.toControl.finished c) ∧ ¬ Equation.within (m₁.equations K) m₁.addresses) :=
  orderlyFault (heardOrderly configured heard) own x

def Event.deserted : List Event :=
  Event.speculation 0 0 ++ Event.both (.setFmuState .ok) ++ [.disconnect 2]

theorem faultExactCoupled :
    let m := (Master.coupled.overhear .perConstraint Event.deserted).getD .coupled
    m.handle .perConstraint (.response 1 (.getReal (List.replicate 13 0) .ok)) = .error .deletedClient ∧
    m.handle .perConstraint (.response 1 (.getReal [] .ok)) = .error .assertion := by
  intro m
  have heard : Heard .perConstraint .coupled m := overheard Event.deserted (by decide +kernel)
  constructor
  · refine (faultExact Master.coupledConfigured heard (by decide +kernel) _).mpr (.inr ⟨rfl,by decide +kernel,
      (m.deref 1 (FMIClient.absorb m.state (.getReal (List.replicate 13 0) .ok))).toOption.getD m,⟨rfl,by decide +kernel⟩,?_,?_⟩)
    · decide +kernel
    · decide +kernel
  · refine (faultExact Master.coupledConfigured heard (by decide +kernel) _).mpr (.inl ⟨rfl,by decide +kernel,?_⟩)
    obtain ⟨c,mem,self,used,long⟩ : ∃ c ∈ m.slaves, c.self = 1 ∧ c.strongConnectors ≠ [] ∧
      c.getStrongConnectorValueReferences.length ≠ 0 := by decide +kernel
    exact ⟨c,mem,used,[],.ok,by rw [self],long⟩

end FmiTcpMaster
