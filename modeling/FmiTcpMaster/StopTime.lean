import FmiTcpMaster.Failure

/-! The stop time. Steps have full length, and whether to go on is asked only once the time
has been advanced, so the last step fits only where the steps add up to the stop time. -/
namespace FmiTcpMaster

theorem sentSteps {g : Control} {refs : List Int} {k : Nat} {s : MasterState} {rs : List Request} {t h : ℚ} {new : Bool}
    (sent : g.cycle.Sent refs k s rs) (mem : .doStep t h new ∈ rs) :
    h = g.timeStep ∧ ∃ j : Nat, j ≤ k ∧ t = j*g.timeStep := by
  rcases Cycle.sentItems sent _ mem with startup | ⟨j,less,item⟩
  · simp [Cycle.startup,Control.cycle] at startup
  · cases item
    exact ⟨rfl,j,less,rfl⟩

def Control.Inside (g : Control) : Prop := ∃ n, Bounds {g with exits := n}

theorem insideKept (K : Coupling) (E : Environment) :
    Rounds.KeepsUnder (rounds K E) (fun g => g.state.resting = true) (fun g c => InPhase g.state c)
      (fun _ : Unit => Control.Inside) fun _ _ _ => True where
  move _ _ _ _ _ _ := trivial
  turn := by
    intro _ g ps g' ps' _ phases inside _ all turned
    obtain ⟨n,bounds⟩ := inside
    exact turnHolds () phases all turned ⟨_,boundsAdvance (g := {g with exits := n}) bounds turned.1⟩ fun _ _ => trivial
  disturb := by
    intro _ g ps g' ps' _ _ inside _ disturbed
    exact disturbHolds () disturbed (fun _ => inside) fun _ _ _ => trivial

theorem reachInside {K : Coupling} {E : Environment} {m₀ m : Master} (configured : Master.Configured m₀)
    (step : 0 < m₀.timeStep) (enabled : m₀.endTimeDefined = true) (end_ : 0 < m₀.endTime) (run : Run K E m₀ m) :
    m.toControl.Inside := by
  have first := reachBounds configured step enabled end_ (.refl : Run K .reliable m₀ m₀)
  obtain ⟨_,kept,_⟩ := reachKeeps configured (insideKept K E) ⟨(),⟨m₀.exits,first⟩,fun _ _ => trivial⟩ run
  exact kept

theorem stepsBegin {K : Coupling} {E : Environment} {m₀ m : Master} (configured : Master.Configured m₀)
    (step : 0 < m₀.timeStep) (enabled : m₀.endTimeDefined = true) (end_ : 0 < m₀.endTime) (run : Run K E m₀ m)
    {c : FMIClient} (mem : c ∈ m.slaves) {t h : ℚ} {new : Bool} (sent : .doStep t h new ∈ c.requests) :
    h = m₀.timeStep ∧ ∃ j : Nat, t = j*m₀.timeStep ∧ j*m₀.timeStep < m₀.endTime := by
  obtain ⟨n,bounds⟩ := reachInside configured step enabled end_ run
  obtain ⟨k,scheduled⟩ := reachScheduled configured run
  obtain ⟨same,j,less,time⟩ := sentSteps (scheduled.sent c mem) sent
  have clock := scheduled.clock.time
  have timeStep : m.timeStep = m₀.timeStep := by rw [scheduled.clock.kept]
  have endTime : m.endTime = m₀.endTime := by rw [scheduled.clock.kept]
  have iteration : (k : ℚ)*m₀.timeStep < m₀.endTime := by
    by_cases late : m.state = .steppingSlaves ∨ m.state = .done
    · have last := bounds.last late
      simp only [clock,Control.elapsed,if_pos late,timeStep,endTime] at last
      push_cast at last
      linarith
    · have before := bounds.before (fun h => late (Or.inl h)) fun h => late (Or.inr h)
      simpa only [clock,Control.elapsed,if_neg late,endTime] using before
  have earlier : (j : ℚ)*m₀.timeStep ≤ k*m₀.timeStep :=
    mul_le_mul_of_nonneg_right (by exact_mod_cast less) step.le
  exact ⟨same,j,time,by linarith⟩

theorem emptyStays {K : Coupling} {E : Environment} {m₀ m : Master} (none : m₀.slaves = []) (run : Run K E m₀ m) :
    m.slaves = [] := by
  induction run with
  | refl => exact none
  | tail _ step ih =>
    obtain ⟨e,step⟩ := step
    cases step <;> simp [ih] at *

theorem lastStep {K : Coupling} {m₀ : Master} (configured : Master.Configured m₀) (nonempty : m₀.slaves ≠ [])
    (couples : K.Couples) (solver : K.Over m₀.addresses) (step : 0 < m₀.timeStep) (enabled : m₀.endTimeDefined = true)
    (end_ : 0 < m₀.endTime) : ∃ m, Run K .reliable m₀ m ∧ ∃ c ∈ m.slaves, ∃ k : Nat,
      k+1 = ⌈m₀.endTime/m₀.timeStep⌉₊ ∧ .doStep (k*m₀.timeStep) m₀.timeStep true ∈ c.requests := by
  have first := reachBounds configured step enabled end_ (.refl : Run K .reliable m₀ m₀)
  have lock := freshLockstep (Master.configuredFresh configured)
  obtain ⟨m,run,stop⟩ := Rounds.restsSomewhere (stepsTerminate lock (roundsTerminate lock first))
  have bounds := reachBounds configured step enabled end_ run
  have done := stuckDone configured nonempty couples solver run bounds fun e m' taken => stop m' ⟨e,taken⟩
  obtain ⟨k,scheduled⟩ := reachScheduled configured run
  have addresses := lastingAddresses configured run
  have slaves : m.slaves ≠ [] := by
    intro none
    rw [Master.addresses,none] at addresses
    exact nonempty (List.map_eq_nil_iff.mp addresses.symm)
  obtain ⟨c,mem⟩ := List.exists_mem_of_ne_nil _ slaves
  refine ⟨m,run,c,mem,k,iterationsOver scheduled.clock bounds done,?_⟩
  have taken := finalsDone (done ▸ scheduled.sent c mem)
  refine finalsSubset (f := id) false c.requests ?_
  rw [show finals id false c.requests = finalSteps c.requests from rfl,taken]
  exact List.mem_map.mpr ⟨k,List.mem_range.mpr (by omega),rfl⟩

/- No step, speculative or final, reaches beyond the stop time if and only if the stop time is a
whole number of steps. -/
theorem stopTimeExact {K : Coupling} {m₀ : Master} (configured : Master.Configured m₀) (couples : K.Couples)
    (solver : K.Over m₀.addresses) (step : 0 < m₀.timeStep) (enabled : m₀.endTimeDefined = true) (end_ : 0 < m₀.endTime) :
    (∀ E m, Run K E m₀ m → ∀ c ∈ m.slaves, ∀ t h new, .doStep t h new ∈ c.requests → t+h ≤ m₀.endTime) ↔
      m₀.slaves = [] ∨ ∃ n : Nat, m₀.endTime = n*m₀.timeStep := by
  constructor
  · intro fits
    by_cases empty : m₀.slaves = []
    · exact Or.inl empty
    · obtain ⟨m,run,c,mem,k,count,sent⟩ := lastStep configured empty couples solver step enabled end_
      have short := fits _ m run c mem _ _ _ sent
      have long := Nat.le_ceil (m₀.endTime/m₀.timeStep)
      rw [← count,div_le_iff₀ step] at long
      refine Or.inr ⟨k+1,?_⟩
      push_cast at long ⊢
      linarith
  · rintro (empty | ⟨n,whole⟩) E m run c mem t h new sent
    · rw [emptyStays empty run] at mem
      cases mem
    · obtain ⟨rfl,j,rfl,less⟩ := stepsBegin configured step enabled end_ run mem sent
      rw [whole] at less ⊢
      have index : j+1 ≤ n := by exact_mod_cast lt_of_mul_lt_mul_right less step.le
      have product : ((j+1 : Nat) : ℚ)*m₀.timeStep ≤ n*m₀.timeStep :=
        mul_le_mul_of_nonneg_right (by exact_mod_cast index) step.le
      push_cast at product
      linarith

theorem stopTimeExactCoupled :
    (∀ E m, Run .perConstraint E .coupled m → ∀ c ∈ m.slaves, ∀ t h new, .doStep t h new ∈ c.requests → t+h ≤ 1) ↔
      Master.coupled.slaves = [] ∨ ∃ n : Nat, (1 : ℚ) = n*1 :=
  stopTimeExact Master.coupledConfigured perConstraintCouples (perConstraintOver _) (by decide) rfl (by decide)

theorem stopTimePassed : ¬ ∀ m, Run .perConstraint .anything (Master.pair.setEndTime (3/2)) m →
    ∀ c ∈ m.slaves, ∀ t h new, .doStep t h new ∈ c.requests → t+h ≤ 3/2 := by
  intro fits
  have run := Master.afterRun (K := .perConstraint) (m := Master.pair.setEndTime (3/2))
    (Event.startup ++ Event.both (.initializeSlave .ok) ++ Event.both (.doStep .ok)) (fun e _ => anythingAlways e)
    (by decide +kernel)
  obtain ⟨c,mem,second⟩ : ∃ c ∈ ((Master.pair.setEndTime (3/2)).after .perConstraint
      (Event.startup ++ Event.both (.initializeSlave .ok) ++ Event.both (.doStep .ok))).slaves,
      .doStep 1 1 true ∈ c.requests := by decide +kernel
  have short := fits _ run c mem 1 1 true second
  norm_num at short

end FmiTcpMaster
