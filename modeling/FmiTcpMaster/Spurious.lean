import FmiTcpMaster.DerivativeQueue
import FmiTcpMaster.Strays

/-! Calls of tick() that nothing has led up to. Between two handlers somebody is always waited for,
so in runs in which all slaves stay such a call finds the barrier closed. -/
namespace FmiTcpMaster

section Staying
variable {K : Coupling} {answers : Control → FMIClient → Request → Response → Prop} {fails : Master → FMIClient → Prop}

theorem stayingNonempty {m₀ m : Master} (configured : Master.Configured m₀) (nonempty : m₀.slaves ≠ [])
    (run : Run K (.staying answers fails) m₀ m) : m.slaves ≠ [] := by
  induction run with
  | refl => exact nonempty
  | @tail m m' run step ih =>
    obtain ⟨e,step⟩ := step
    have lock := reachLockstep configured run
    rcases roundsAddresses lock.resting lock.phases (stepRounds lock step) with same | disturbed
    · intro none
      rw [show m'.parts.2 = [] from none] at same
      exact ih (List.map_eq_nil_iff.mp same.symm)
    · intro none
      exact ih ((stayingDisturbs disturbed).2.symm.trans none)

theorem stayingWaits {m₀ m : Master} (configured : Master.Configured m₀) (nonempty : m₀.slaves ≠ []) (couples : K.Couples)
    (run : Run K (.staying answers fails) m₀ m) : m.state = .done ∨ ∃ c ∈ m.slaves, ¬ m.toControl.finished c := by
  induction run with
  | refl => exact Or.inr (freshWaits (Master.configuredFresh configured) nonempty)
  | @tail m m' run step ih =>
    obtain ⟨e,step⟩ := step
    rcases stepWaits configured couples run step with waits | disturbed
    · by_cases ended : m'.state = .done
      · exact Or.inl ended
      · exact Or.inr (waits (stayingNonempty configured nonempty (run.tail ⟨e,step⟩)) ended)
    · -- an error leaves the phase and the slaves as they were
      obtain ⟨⟨n,control⟩,same⟩ := stayingDisturbs disturbed
      rw [control,same]
      exact ih

end Staying

theorem silentAbsorbs {phase : MasterState} {a : Response} (silent : a = .getVersion ∨ a = .freeInstance) (c : FMIClient) :
    c.absorb phase a = .ok c := by
  have stray : c.deliver a = c := strayDelivers fun r _ => by
    rcases silent with rfl | rfl <;> cases r <;> rfl
  rcases silent with rfl | rfl <;> rw [FMIClient.absorb,stray]

/- tick() is the identity in every state in which the event loop can be, and so are the handlers
that call it without having written to their slave. -/
theorem spuriousTickHarmless {K : Coupling} {answers fails} {m₀ m : Master} (configured : Master.Configured m₀)
    (nonempty : m₀.slaves ≠ []) (couples : K.Couples) (run : Run K (.staying answers fails) m₀ m) :
    m.tick K = .ok m ∧
    (∀ p, m.slaveConnected K p = .ok m ∧ m.onSlaveGotVersion K p = .ok m ∧ m.onSlaveFreed K p = .ok m) ∧
    ∀ c ∈ m.slaves, (c.connected = true → m.handle K (.connect c.self) = .ok m) ∧
      m.handle K (.response c.self .getVersion) = .ok m ∧ m.handle K (.response c.self .freeInstance) = .ok m := by
  have lock := reachLockstep configured run
  have rests : m.tick K = .ok m := Master.tickRests lock.resting (stayingWaits configured nonempty couples run)
  refine ⟨rests,fun _ => ⟨rests,rests,rests⟩,fun c mem => ?_⟩
  obtain ⟨l,r,split⟩ := List.append_of_mem mem
  have whole : {m with slaves := l ++ c :: r} = m := by rw [← split]
  have silent : ∀ a, a = .getVersion ∨ a = .freeInstance → m.handle K (.response c.self a) = .ok m := by
    intro a silent
    rw [Master.handle,Master.receiveAbsorbs a split lock.distinct,silentAbsorbs silent c,Except.bind,whole]
    exact rests
  refine ⟨fun up => ?_,silent _ (Or.inl rfl),silent _ (Or.inr rfl)⟩
  have same : {c with connected := true} = c := by rw [← up]
  rw [Master.handle,Master.derefAt split lock.distinct,Except.map,same,whole]
  exact rests

theorem spuriousTickHarmlessCoupled :
    let m := Master.coupled.after .twoRows (derivativeEvents ++ [.response 1 (.getReal (List.replicate 13 0) .ok)])
    m.state = .gettingDirectionalDerivatives ∧ m.tick .twoRows = .ok m := by
  intro m
  have run : Run .twoRows (.staying (fun _ _ _ _ => True) fun _ _ => False) .coupled m :=
    Master.afterRun _ (messagesAlways (fun _ => true) (fun _ _ _ _ _ => trivial) rfl) (by decide +kernel)
  refine ⟨by decide +kernel,(spuriousTickHarmless Master.coupledConfigured (by decide) ?_ run).1⟩
  intro _ _
  exact List.cons_ne_nil _ _

end FmiTcpMaster
