import FmiTcpMaster.Reach

/-! The lock-step barrier, in every reachable state: nothing is sent before all slaves are
connected, no slave is asked twice, and its state and its open request fit the phase. -/
namespace FmiTcpMaster

def Request.waitingState : Request → FMIClientState
  | .getXml => .waitingGetXml
  | .instantiate => .waitingInstantiateSlave
  | .initializeSlave .. => .waitingInitializeSlave
  | .getFmuState => .waitingGetState
  | .setFmuState _ => .waitingSetState
  | .doStep .. => .waitingDoStep
  | .getReal _ => .waitingGetReal
  | .setReal .. => .waitingSetReal
  | .getDirectionalDerivative _ => .waitingDirectionalDerivatives

theorem waitingAsked {s : MasterState} {r : Request} {w : FMIClientState} (asks : s.asks r = true)
    (waiting : s.waiting = some w) : w = r.waitingState := by
  cases s <;> cases r <;> simp only [MasterState.asks,Bool.false_eq_true] at asks <;>
    exact (Option.some.inj waiting).symm

theorem inPhaseRequests {s : MasterState} {c : FMIClient} (phase : InPhase s c) (sent : c.requests ≠ []) :
    s ≠ .connectingSlaves := by
  rintro rfl
  cases phase with
  | connecting answered pending => exact sent (by simp [FMIClient.requests,answered,pending])
  | asked _ asks => simp [MasterState.asks] at asks
  | finished _ _ state => simp [MasterState.awaited] at state

theorem inPhaseState {s : MasterState} {c : FMIClient} (phase : InPhase s c) (begun : s ≠ .connectingSlaves)
    (running : s ≠ .done) :
    (∃ r, c.pending = [r] ∧ c.state = r.waitingState) ∨ (c.pending = [] ∧ s.awaited = some c.state) := by
  cases phase with
  | connecting => exact absurd rfl begun
  | asked _ asks pending state => exact Or.inl ⟨_,pending,waitingAsked asks state⟩
  | finished _ pending state => exact Or.inr ⟨pending,state⟩
  | ended => exact absurd rfl running

theorem lockStepBarrier {K : Coupling} {E : Environment} {m₀ m : Master} (configured : Master.Configured m₀)
    (run : Run K E m₀ m) :
    ((∃ c ∈ m.slaves, c.requests ≠ []) → ∀ c ∈ m.slaves, c.connected = true) ∧
    (∀ c ∈ m.slaves, c.pending.length ≤ 1) ∧
    (m.state ≠ .connectingSlaves → m.state ≠ .done → ∀ c ∈ m.slaves,
      (∃ r, c.pending = [r] ∧ c.state = r.waitingState) ∨ (c.pending = [] ∧ m.state.awaited = some c.state)) ∧
    ∀ c ∈ m.slaves, ∀ r ∈ c.pending, m.state.asks r = true := by
  have lock := reachLockstep configured run
  refine ⟨?_,fun c mem => (inPhasePending (lock.phases c mem)).1,
    fun begun running c mem => inPhaseState (lock.phases c mem) begun running,
    fun c mem => (inPhasePending (lock.phases c mem)).2⟩
  rintro ⟨c₀,mem₀,sent⟩ c mem
  have begun := inPhaseRequests (lock.phases c₀ mem₀) sent
  cases up : c.connected with
  | true => rfl
  | false => exact absurd (downConnecting (lock.phases c mem) up) begun

theorem lockStepBarrierPair :
    let m := Master.pair.after (.source fun _ => []) [.connect 2,.connect 1,.response 2 .getXml]
    ∀ c ∈ m.slaves, ∀ r ∈ c.pending, m.state.asks r = true :=
  (lockStepBarrier Master.pairConfigured (Master.afterRun _ (fun e _ => anythingAlways e) rfl)).2.2.2

end FmiTcpMaster
