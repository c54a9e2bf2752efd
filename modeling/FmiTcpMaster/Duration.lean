import FmiTcpMaster.Schedule
import FmiTcpMaster.Conformance

/-! How many steps a simulation has when the slaves send anything at any time. Nothing that is
received moves the clock, so the number of steps is the one that the times given ask for. -/
namespace FmiTcpMaster

section Heard
variable {K : Coupling} {m₀ m m' : Master} {J : Control → Prop}

theorem hearsControl {e : Event} (turn : ∀ {g : Control}, J g →
      (g.state = .connectingSlaves ∨ g.state.awaited.isSome = true) → J g.advance)
    (exits : ∀ {g : Control} {n}, J g → J {g with exits := n}) (held : J m.toControl) (hears : Hears K e m m') :
    J m'.toControl := by
  cases hears with
  | ticks _ _ _ _ _ turned =>
    cases turned with
    | rests => exact held
    | enters _ turning _ => exact turn held turning
  | leaves _ control _ =>
    obtain ⟨n,control⟩ := control
    rw [control]
    exact exits held

theorem heardControl (turn : ∀ {g : Control}, J g →
      (g.state = .connectingSlaves ∨ g.state.awaited.isSome = true) → J g.advance)
    (exits : ∀ {g : Control} {n}, J g → J {g with exits := n}) (configured : Master.Configured m₀)
    (first : J m₀.toControl) (heard : Heard K m₀ m) : J m.toControl := by
  induction heard with
  | refl => exact first
  | tail before step ih =>
    obtain ⟨e,own,handled⟩ := step
    exact hearsControl turn exits ih (handleHears (heardOrderly configured before) own handled)

end Heard

def Control.unbothered (g : Control) : Control := {g with exits := if g.state = .done then 1 else 0}

theorem unbotheredAdvance {g : Control} (running : g.state ≠ .done) : g.unbothered.advance = g.advance.unbothered := by
  have next : g.unbothered.next = g.next := rfl
  simp only [Control.advance,next]
  simp only [Control.unbothered,if_neg running]

theorem heardBounds {K : Coupling} {m₀ m : Master} (configured : Master.Configured m₀) (step : 0 < m₀.timeStep)
    (enabled : m₀.endTimeDefined = true) (end_ : 0 < m₀.endTime) (heard : Heard K m₀ m) : Bounds m.toControl.unbothered := by
  have fresh := Master.configuredFresh configured
  refine heardControl (J := fun g => Bounds g.unbothered) (fun {g} bounds turning => ?_) (fun bounds => bounds) configured ?_ heard
  · have running : g.state ≠ .done := fun done => by simp [done,MasterState.awaited] at turning
    rw [← unbotheredAdvance running]
    exact boundsAdvance bounds turning
  · refine ⟨step,enabled,fun _ _ => ?_,?_,?_,rfl⟩
    · show m₀.time < m₀.endTime
      rw [fresh.time]
      exact end_
    · simp [Control.unbothered,fresh.state]
    · simp [Control.unbothered,fresh.state]

theorem heardUnlimited {K : Coupling} {m₀ m : Master} (configured : Master.Configured m₀)
    (unlimited : m₀.endTimeDefined = false) (heard : Heard K m₀ m) : m.state ≠ .done := by
  have begun : m₀.state ≠ .done := by rw [(Master.configuredFresh configured).state]; decide
  have kept : m.endTimeDefined = false ∧ m.state ≠ .done := by
    refine heardControl (J := fun g => g.endTimeDefined = false ∧ g.state ≠ .done) (fun {g} endless turning => ?_)
      (fun endless => endless) configured ⟨unlimited,begun⟩ heard
    refine ⟨endless.1,fun done => ?_⟩
    have stop := (nextDone turning done).2
    simp [Control.continues,endless.1] at stop
  exact kept.2

theorem elapsedWithin {g₀ g : Control} {k : Nat} (clock : Clock g₀ k g) (bounds : Bounds g) :
    g.elapsed k ≤ ⌈g₀.endTime/g₀.timeStep⌉₊ := by
  have time := clock.time
  have positive := bounds.positive
  have sameStep : g.timeStep = g₀.timeStep := by rw [clock.kept]
  have sameEnd : g.endTime = g₀.endTime := by rw [clock.kept]
  rw [sameStep] at positive
  have early : ∀ n : Nat, n*g₀.timeStep < g₀.endTime → n < ⌈g₀.endTime/g₀.timeStep⌉₊ := fun n before =>
    Nat.lt_ceil.mpr ((lt_div_iff₀ positive).mpr before)
  by_cases stepped : g.state = .steppingSlaves ∨ g.state = .done
  · have last := bounds.last stepped
    rw [Control.elapsed,if_pos stepped] at time ⊢
    refine early k ?_
    rw [sameStep,sameEnd,time] at last
    push_cast at last
    linarith
  · have before := bounds.before (fun h => stepped (.inl h)) fun h => stepped (.inr h)
    rw [Control.elapsed,if_neg stepped] at time ⊢
    exact (early k (by rwa [sameEnd,time] at before)).le

/- Whatever is received, no slave is sent more steps than the end time asks for, and when the master
is done each has been sent all of them; without an end time the master is never done. -/
theorem durationUnderAnyMessages {K : Coupling} {m₀ m : Master} (configured : Master.Configured m₀)
    (step : 0 < m₀.timeStep) (heard : Heard K m₀ m) :
    (m₀.endTimeDefined = true → 0 < m₀.endTime →
      (∀ c ∈ m.slaves, (finalSteps c.requests).length ≤ ⌈m₀.endTime/m₀.timeStep⌉₊) ∧
      (m.state = .done → m.time = ⌈m₀.endTime/m₀.timeStep⌉₊*m₀.timeStep ∧ ∀ c ∈ m.slaves, finalSteps c.requests =
        (List.range ⌈m₀.endTime/m₀.timeStep⌉₊).map fun k => .doStep (k*m₀.timeStep) m₀.timeStep true)) ∧
    (m₀.endTimeDefined = false → m.state ≠ .done) := by
  refine ⟨fun enabled end_ => ?_,fun unlimited => heardUnlimited configured unlimited heard⟩
  obtain ⟨k,clock,sent⟩ := (heardOrderly configured heard).scheduled
  have bounds := heardBounds configured step enabled end_ heard
  have unbothered : Clock m₀.toControl k m.toControl.unbothered := clockExits clock _
  refine ⟨fun c mem => ?_,fun done => ?_⟩
  · have within := elapsedWithin unbothered bounds
    rw [finalsSent (sent c mem)]
    exact within
  · have count : k+1 = ⌈m₀.endTime/m₀.timeStep⌉₊ := iterationsOver unbothered bounds done
    rw [← count]
    refine ⟨?_,fun c mem => finalsDone (done ▸ sent c mem)⟩
    rw [clock.time,Control.elapsed,if_pos (Or.inr done)]

theorem durationUnderAnyMessagesCoupled :
    let m := (Master.coupled.overhear .perConstraint Event.unruly).getD .coupled
    ∀ c ∈ m.slaves, (finalSteps c.requests).length ≤ 1 := by
  intro m c mem
  have heard : Heard .perConstraint .coupled m := overheard Event.unruly (by decide +kernel)
  have steps : ⌈Master.coupled.endTime/Master.coupled.timeStep⌉₊ = 1 := by
    rw [show Master.coupled.endTime = 1 from rfl,show Master.coupled.timeStep = 1 from rfl]
    norm_num
  exact steps ▸ ((durationUnderAnyMessages Master.coupledConfigured (by decide) heard).1 rfl (by decide)).1 c mem

end FmiTcpMaster
