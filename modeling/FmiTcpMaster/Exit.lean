import FmiTcpMaster.Heard

/-! The end of simulate(): the event loop, left after exitEventLoop(), and one more tick().
That tick does nothing at a closed barrier; a master without slaves has none that is closed. -/
namespace FmiTcpMaster
namespace Master

structure Quiet (m m' : Master) : Prop where
  state : m'.state = m.state
  time : m'.time = m.time
  requests : m'.slaves.map FMIClient.requests = m.slaves.map FMIClient.requests

def SendsStep (m m' : Master) : Prop :=
  ∃ c ∈ m.slaves, ∃ c' ∈ m'.slaves, c'.self = c.self ∧ ∃ more t h new, c'.requests = c.requests ++ more ∧
    Request.doStep t h new ∈ more

theorem tockTime {m m' : Master} (tock : Tock m m') (later : m.time < m'.time) :
    m.toControl.next = .steppingSlaves ∧ m'.slaves = m.slaves.map m.toControl.enter := by
  cases tock with
  | rests => exact absurd later (lt_irrefl _)
  | enters _ _ control _ plain =>
    by_cases step : m.toControl.next = .steppingSlaves
    · exact ⟨step,plain (stepNotStrong step)⟩
    · have still : m'.time = m.time := by rw [control,Control.advance]; exact if_neg step
      exact absurd later (by rw [still]; exact lt_irrefl _)

theorem tickQuiet {K : Coupling} {m : Master} (sound : m.Sound) (step : 0 < m.timeStep) :
    (∃ m', m.tick K = .ok m' ∧ m.Quiet m') ↔ m.state = .done ∨ ∃ c ∈ m.slaves, ¬ m.toControl.finished c := by
  constructor
  · rintro ⟨m',ok,quiet⟩
    cases tickTock sound ok with
    | rests closed => exact closed
    | enters _ running control _ _ =>
      have state : m'.state = m.toControl.next := by rw [control,Control.advance]
      by_cases stepping : m.toControl.next = .steppingSlaves
      · have time : m'.time = m.time+m.timeStep := by rw [control,Control.advance]; exact if_pos stepping
        have still := quiet.time
        rw [time] at still
        linarith
      · exact absurd (state.symm.trans quiet.state) (nextOther sound.resting running stepping)
  · exact fun closed => ⟨m,tickRests sound.resting closed,rfl,rfl,rfl⟩

theorem tickSteps {K : Coupling} {m m' : Master} (sound : m.Sound) (step : 0 < m.timeStep) (ok : m.tick K = .ok m') :
    (m.time < m'.time → m.SendsStep m') ↔ m.slaves ≠ [] ∨ m.toControl.next ≠ .steppingSlaves := by
  have tock := tickTock sound ok
  constructor
  · intro sends
    by_contra none
    obtain ⟨empty,next⟩ := not_or.mp none
    rw [not_not] at empty next
    cases tock with
    | rests closed =>
      rcases closed with ended | ⟨c,mem,_⟩
      · rw [Control.next,ended] at next
        cases next
      · rw [empty] at mem
        cases mem
    | enters _ _ control _ _ =>
      have time : m'.time = m.time+m.timeStep := by rw [control,Control.advance]; exact if_pos next
      obtain ⟨c,mem,_⟩ := sends (by rw [time]; linarith)
      rw [empty] at mem
      cases mem
  · intro some later
    obtain ⟨next,slaves⟩ := tockTime tock later
    obtain ⟨c,mem⟩ := List.exists_mem_of_ne_nil _ (some.resolve_right (not_not.mpr next))
    exact ⟨c,mem,_,slaves ▸ List.mem_map_of_mem mem,enterSelf _ c,_,_,_,_,stepEnters next c,List.mem_cons_self⟩

end Master

theorem reactsSteps {m m' : Master} (reacts : Reacts m m') (later : m.time < m'.time) : m.SendsStep m' := by
  cases reacts with
  | @ticks l c r c' _ split self requests tock =>
    obtain ⟨next,slaves⟩ := Master.tockTime tock later
    obtain ⟨more,requests⟩ := requests
    refine ⟨c,by simp [split],_,slaves ▸ List.mem_map_of_mem (a := c') (by simp),(Master.enterSelf _ c').trans self,
      more ++ [.doStep m.time m.timeStep true],_,_,_,?_,List.mem_append_right _ List.mem_cons_self⟩
    rw [Master.stepEnters next,requests,List.append_assoc]
  | leaves control _ =>
    obtain ⟨n,control⟩ := control
    rw [control] at later
    exact absurd later (lt_irrefl _)

theorem reactsStep {m m' : Master} (reacts : Reacts m m') : m'.timeStep = m.timeStep := by
  cases reacts with
  | ticks _ _ _ tock =>
    cases tock with
    | rests => rfl
    | enters _ _ control _ _ => rw [control,Control.advance]
  | leaves control _ =>
    obtain ⟨n,control⟩ := control
    rw [control]

theorem heardStep {K : Coupling} {m₀ m : Master} (configured : Master.Configured m₀) (heard : Heard K m₀ m) :
    m.timeStep = m₀.timeStep := by
  induction heard with
  | refl => rfl
  | tail before step ih =>
    obtain ⟨e,own,handled⟩ := step
    exact (reactsStep (handleReacts (heardSound configured before) own handled)).trans ih

/- After the exit tick() is harmless exactly when the barrier is closed or all is done. Handlers let
time pass only with a step; the last tick() also when there is nobody left to step. -/
theorem exitExact {K : Coupling} {m₀ m : Master} (configured : Master.Configured m₀) (step : 0 < m₀.timeStep)
    (heard : Heard K m₀ m) :
    (0 < m.exits → ((∃ m', m.tick K = .ok m' ∧ m.Quiet m') ↔
      m.state = .done ∨ ∃ c ∈ m.slaves, ¬ m.toControl.finished c)) ∧
    (∀ e m', e.slave ∈ m.addresses → m.handle K e = .ok m' → m.time < m'.time → m.SendsStep m') ∧
    (0 < m.exits → ∀ m', m.tick K = .ok m' → ((m.time < m'.time → m.SendsStep m') ↔
      m.slaves ≠ [] ∨ m.toControl.next ≠ .steppingSlaves)) := by
  have sound := heardSound configured heard
  have positive : 0 < m.timeStep := by rw [heardStep configured heard]; exact step
  exact ⟨fun _ => Master.tickQuiet sound positive,
    fun e m' own handled => reactsSteps (handleReacts sound own handled),
    fun _ m' ok => Master.tickSteps sound positive ok⟩

def Event.abandoned : List Event := Event.startup ++ [.disconnect 1,.disconnect 2]

theorem exitExactPair :
    let m := Master.pair.after .perConstraint Event.abandoned
    0 < m.exits ∧ ((∃ m', m.tick .perConstraint = .ok m' ∧ m.Quiet m') ↔
      m.state = .done ∨ ∃ c ∈ m.slaves, ¬ m.toControl.finished c) := by
  intro m
  have exits : 0 < m.exits := by decide +kernel
  have run : Run .perConstraint .anything .pair m := Master.afterRun _ (fun e _ => anythingAlways e) (by decide +kernel)
  exact ⟨exits,(exitExact Master.pairConfigured (by decide) (runHeard run)).1 exits⟩

theorem exitIgnored :
    (¬ ∀ m, Run .perConstraint .anything .pair m → 0 < m.exits → ∃ m', m.tick .perConstraint = .ok m' ∧ m.Quiet m') ∧
    ¬ ∀ m, Run .perConstraint .anything .pair m → 0 < m.exits → ∀ m', m.tick .perConstraint = .ok m' →
      m.time < m'.time → m.SendsStep m' := by
  have run := Master.afterRun (K := .perConstraint) (m := .pair) Event.abandoned (fun e _ => anythingAlways e)
    (by decide +kernel)
  have ticked : ∃ m', (Master.pair.after .perConstraint Event.abandoned).tick .perConstraint = .ok m' ∧
      m'.time = 1 := ⟨_,rfl,by decide +kernel⟩
  obtain ⟨m',ok,time⟩ := ticked
  have before : (Master.pair.after .perConstraint Event.abandoned).time = 0 := by decide +kernel
  have exits : 0 < (Master.pair.after .perConstraint Event.abandoned).exits := by decide +kernel
  constructor
  · intro quiet
    obtain ⟨m₁,ok₁,quiet⟩ := quiet _ run exits
    cases ok.symm.trans ok₁
    exact absurd (time.symm.trans (quiet.time.trans before)) (by decide)
  · intro sends
    obtain ⟨c,mem,_⟩ := sends _ run exits m' ok (by rw [time,before]; decide)
    have none : (Master.pair.after .perConstraint Event.abandoned).slaves = [] := by decide +kernel
    rw [none] at mem
    cases mem

end FmiTcpMaster
