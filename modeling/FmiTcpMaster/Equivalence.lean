import FmiTcpMaster.Conformance

/-! The handlers of the master against the rounds. Every handler is a step of the rounds; here, every
step of the rounds is what some handler does, so that the two have the same runs. -/
namespace FmiTcpMaster

section Steps
variable {K : Coupling} {E : Environment} {m₀ m m' : Master}

theorem moveSteps {l r : List FMIClient} {p q : FMIClient} (distinct : m.addresses.Nodup) (split : m.slaves = l ++ p :: r)
    (moved : moves E m.toControl p q) (ticked : Master.tick K {m with slaves := l ++ q :: r} = .ok m') :
    ∃ e, Step K E m e m' := by
  have mem : p ∈ m.slaves := split ▸ List.mem_append_right _ List.mem_cons_self
  rcases moved.2 with ⟨connecting,rfl⟩ | ⟨_,req,rest,a,oldest,fits,allowed,absorbs⟩
  · have down : p.connected = false := by simpa [Control.finished,connecting] using moved.1
    refine ⟨_,.connect mem down ?_⟩
    rw [handleWrites rfl rfl split distinct]
    exact ticked
  · refine ⟨_,.response mem oldest fits allowed ?_⟩
    rw [handleWrites rfl rfl split distinct,show (Event.response p.self a).write m.state p = .ok q from absorbs]
    exact ticked

theorem disturbSteps {g' : Control} {ps' : List FMIClient} (distinct : m.addresses.Nodup)
    (disturbed : Disturbs E m.toControl m.slaves g' ps') : ∃ e, Step K E m e ⟨g',ps'⟩ := by
  generalize slaves : m.slaves = ps at disturbed
  cases disturbed with
  | @leave l c r allowed =>
    have same : m = ⟨m.toControl,l ++ c :: r⟩ := by rw [← slaves]
    refine ⟨_,.disconnect (slaves ▸ List.mem_append_right _ List.mem_cons_self) (same ▸ allowed) ?_⟩
    exact congrArg Except.ok (slaveDisconnectedAt slaves distinct)
  | fail mem allowed =>
    rw [← slaves] at mem allowed ⊢
    exact ⟨_,.error mem allowed rfl⟩

theorem roundsSteps {y : Control × List FMIClient} (lock : m.Lockstep) (round : Rounds.Step (rounds K E) m.parts y) :
    ∃ e, Step K E m e ⟨y.1,y.2⟩ := by
  generalize here : m.parts = x at round
  cases round with
  | @stay g l p q r moved waiting =>
    obtain ⟨rfl,split⟩ := Prod.mk.inj here
    exact moveSteps lock.distinct split moved (Master.tickStays (m := ⟨m.toControl,l ++ q :: r⟩) lock.resting waiting)
  | @turn g l p q r g' ps moved all turned =>
    obtain ⟨rfl,split⟩ := Prod.mk.inj here
    exact moveSteps lock.distinct split moved turned.2.2
  | @disturb g ps g' ps' disturbed =>
    obtain ⟨rfl,rfl⟩ := Prod.mk.inj here
    exact disturbSteps lock.distinct disturbed

theorem stepExact (lock : m.Lockstep) : (∃ e, Step K E m e m') ↔ Rounds.Step (rounds K E) m.parts m'.parts :=
  ⟨fun ⟨_,step⟩ => stepRounds lock step,roundsSteps lock⟩

theorem roundsRun {y : Control × List FMIClient} (lock : m₀.Lockstep) (run : Rounds.Run (rounds K E) m₀.parts y) :
    Run K E m₀ ⟨y.1,y.2⟩ := by
  induction run with
  | refl => exact .refl
  | tail _ round ih => exact ih.tail (roundsSteps (runRounds lock ih).1 round)

end Steps

/- The event loop with its callbacks and the rounds, in which the slaves move on their own and turn
all at once, have the same runs, and in each state reached the same next steps. -/
theorem roundsExact {K : Coupling} {E : Environment} {m₀ : Master} (configured : Master.Configured m₀) (m : Master) :
    (Run K E m₀ m ↔ Rounds.Run (rounds K E) m₀.parts m.parts) ∧
    (Run K E m₀ m → ∀ m', (∃ e, Step K E m e m') ↔ Rounds.Step (rounds K E) m.parts m'.parts) := by
  have lock := freshLockstep (Master.configuredFresh configured)
  exact ⟨⟨fun run => (runRounds lock run).2,roundsRun lock⟩,fun run _ => stepExact (runRounds lock run).1⟩

theorem roundsExactCoupled :
    Rounds.Run (rounds .perConstraint .anything) Master.coupled.parts
      (Master.coupled.after .perConstraint (Event.speculation 0 0)).parts := by
  have run : Run .perConstraint .anything .coupled (Master.coupled.after .perConstraint (Event.speculation 0 0)) :=
    Master.afterRun _ (fun e _ => anythingAlways e) (by decide +kernel)
  exact (roundsExact Master.coupledConfigured _).1.mp run

end FmiTcpMaster
