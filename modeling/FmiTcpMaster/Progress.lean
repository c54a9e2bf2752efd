import FmiTcpMaster.Cycle

/-! Who the barrier waits for. Turning a round leaves somebody to wait for, so the master can
only be blocked by something that happens outside the rounds. -/
namespace FmiTcpMaster

def Coupling.Couples (K : Coupling) : Prop := ∀ m : Master, m.constraints ≠ [] → K.getEquations m ≠ []

def Coupling.Over (K : Coupling) (ps : List ClientPtr) : Prop :=
  ∀ m : Master, m.addresses = ps → m.constraints ≠ [] → (∀ p ∈ m.strongEnds, p ∈ ps) →
    Equation.within (K.getEquations m) ps

theorem perConstraintCouples : Coupling.perConstraint.Couples := fun _ some none => some (List.map_eq_nil_iff.mp none)

theorem perConstraintOver (ps : List ClientPtr) : Coupling.perConstraint.Over ps := by
  intro m _ _ ends e mem
  obtain ⟨s,memS,rfl⟩ := List.mem_map.mp mem
  exact ⟨ends _ (List.mem_flatMap.mpr ⟨s,memS,by simp [Equation.between]⟩),ends _ (List.mem_flatMap.mpr ⟨s,memS,by simp [Equation.between]⟩)⟩

def Control.Blocked (g : Control) (ps : List FMIClient) : Prop :=
  ps ≠ [] ∧ g.state ≠ .done ∧ g.exits = 0 ∧ ∀ c ∈ ps, g.finished c

theorem unfinishedOwes {g : Control} {c : FMIClient} (phase : InPhase g.state c)
    (running : g.state ≠ .done) : ¬ g.finished c ↔ c.connected = false ∨ c.pending ≠ [] := by
  constructor
  · intro waiting
    generalize at_ : g.state = s at phase running
    cases phase with
    | connecting =>
      left
      simpa [Control.finished,at_] using waiting
    | asked _ _ pending => exact Or.inr (by simp [pending])
    | finished _ _ state => exact absurd ((finishedBarrier (at_ ▸ state) c).mpr rfl) waiting
    | ended => exact absurd rfl running
  · rintro owes done
    obtain ⟨connected,pending,_⟩ := finishedIdle phase done
    rcases owes with down | more
    · simp [connected] at down
    · exact more pending

theorem sentStrong {C : Cycle} {refs : List Int} {k : Nat} {rs : List Request}
    (sent : C.Sent refs k .getStrongConnectorStates rs) : C.strong := by
  cases sent with
  | iterate _ begun =>
    cases begun with
    | present strong => exact strong

theorem enteredWaits {K : Coupling} {g : Control} {ps : List FMIClient} {c : FMIClient}
    (resting : g.state.resting = true) (other : g.state ≠ .getStrongConnectorStates)
    (running : g.next ≠ .done) : ¬ g.advance.finished (entered K g ps c) := by
  intro done
  obtain ⟨restingNext,begun⟩ := nextResting resting
  have notDerivative : g.next ≠ .gettingDirectionalDerivatives := nextDerivative other
  rcases requestOrDone (g := g) restingNext begun notDerivative c with ended | ⟨r,w,request,waiting⟩
  · exact running ended
  · have enters : entered K g ps c = FMIClient.send {c with state := w} r := by
      rw [entered,if_neg other,Control.enter,request,waiting]
    rw [enters] at done
    unfold Control.finished at done
    split at done
    · rename_i connecting
      exact begun connecting
    · exact waitingNotAwaited waiting done

theorem derivedWaits {K : Coupling} {g : Control} {eqs : List Equation} {e : Equation} {c : FMIClient}
    (mem : e ∈ eqs) (end_ : e.connA = c.self) (at_ : g.state = .gettingDirectionalDerivatives) :
    ¬ g.finished (K.derive eqs c) := by
  have some : K.pushed eqs c.self ≠ [] := fun none => by
    have inside : K.requestA e ∈ K.pushed eqs c.self := List.mem_flatMap.mpr ⟨e,mem,by simp [end_]⟩
    simp [none] at inside
  rw [finishedBarrier (d := .doneDirectionalDerivatives) (by rw [at_]; rfl)]
  rcases List.eq_nil_or_concat' (K.pushed eqs c.self) with none | ⟨q,d,split⟩
  · exact absurd none some
  · rw [deriveSome split]
    simp [FMIClient.send,FMIClient.withQueue]

theorem turnWaits {K : Coupling} {g g' : Control} {ps ps' : List FMIClient} (resting : g.state.resting = true)
    (phases : ∀ c ∈ ps, InPhase g.state c) (all : ∀ c ∈ ps, g.finished c) (turned : turns K g ps g' ps')
    (couples : g.state = .getStrongConnectorStates → Master.equations K ⟨g,ps⟩ ≠ []) (nonempty : ps' ≠ [])
    (running : g'.state ≠ .done) : ∃ c ∈ ps', ¬ g'.finished c := by
  obtain ⟨rfl,rfl,within⟩ := turnSource phases all turned
  by_cases strong : g.state = .getStrongConnectorStates
  · obtain ⟨e,mem⟩ := List.exists_mem_of_ne_nil _ (couples strong)
    obtain ⟨c,memC,end_⟩ := List.mem_map.mp (within strong e mem).1
    have waits := derivedWaits (K := K) (g := g.advance) mem end_.symm (by simp [Control.advance,Control.next,strong])
    exact ⟨_,List.mem_map.mpr ⟨c,memC,rfl⟩,by simpa [entered,strong] using waits⟩
  · obtain ⟨c',mem'⟩ := List.exists_mem_of_ne_nil _ nonempty
    obtain ⟨c,_,rfl⟩ := List.mem_map.mp mem'
    exact ⟨_,mem',enteredWaits resting strong running⟩

theorem roundWaits {K : Coupling} {E : Environment} {x y : Control × List FMIClient} {g₀ : Control} {k : Nat}
    (couples : K.Couples) (solver : g₀.strongConnections ≠ [] → g₀.constraints ≠ [])
    (resting : x.1.state.resting = true) (phases : ∀ c ∈ x.2, InPhase x.1.state c)
    (scheduled : Scheduled g₀ k x.1 x.2) (step : Rounds.Step (rounds K E) x y) :
    (y.2 ≠ [] → y.1.state ≠ .done → ∃ c ∈ y.2, ¬ y.1.finished c) ∨ Disturbs E x.1 x.2 y.1 y.2 := by
  cases step with
  | stay moved waiting =>
    left
    intro _ _
    by_contra none
    exact waiting fun c mem => by_contra fun owes => none ⟨c,mem,owes⟩
  | @turn g l p q r g' ps moved all turned =>
    left
    have inside := Rounds.moveKeepsAll (i := ()) (lockstepKept K E) resting phases moved
    refine turnWaits resting inside all turned fun strong => couples _ (show g.constraints ≠ [] from ?_)
    have sent := scheduled.sent p (by simp)
    rw [show g.state = _ from strong] at sent
    have same : g.constraints = g₀.constraints := clockConstraints scheduled.clock
    exact same ▸ solver (sentStrong sent)
  | disturb disturbed => exact Or.inr disturbed

theorem freshSolver {m₀ : Master} (fresh : m₀.Fresh) (strong : m₀.strongConnections ≠ []) : m₀.constraints ≠ [] := by
  rw [fresh.solver]
  exact fun none => strong (List.map_eq_nil_iff.mp none)

theorem freshWaits {m₀ : Master} (fresh : m₀.Fresh) (nonempty : m₀.slaves ≠ []) :
    ∃ c ∈ m₀.slaves, ¬ m₀.toControl.finished c := by
  obtain ⟨c,mem⟩ := List.exists_mem_of_ne_nil _ nonempty
  refine ⟨c,mem,fun connected => ?_⟩
  simp [Control.finished,fresh.state,(fresh.clients c mem).connected] at connected

theorem stepWaits {K : Coupling} {E : Environment} {m₀ m m' : Master} {e : Event} (configured : Master.Configured m₀)
    (couples : K.Couples) (run : Run K E m₀ m) (step : Step K E m e m') :
    (m'.slaves ≠ [] → m'.state ≠ .done → ∃ c ∈ m'.slaves, ¬ m'.toControl.finished c) ∨
      Disturbs E m.toControl m.slaves m'.toControl m'.slaves := by
  have lock := reachLockstep configured run
  obtain ⟨k,scheduled⟩ := reachScheduled configured run
  exact roundWaits (x := m.parts) couples (freshSolver (Master.configuredFresh configured)) lock.resting lock.phases
    scheduled (stepRounds lock step)

theorem runOpens {K : Coupling} {E : Environment} {m₀ m : Master} (configured : Master.Configured m₀)
    (couples : K.Couples) (calm : ∀ m : Master, m.Lockstep → ∀ g' ps', Disturbs E m.toControl m.slaves g' ps' →
      ¬ g'.Blocked ps') (run : Run K E m₀ m) : ¬ m.toControl.Blocked m.slaves := by
  rintro ⟨nonempty,running,exits,done⟩
  cases run with
  | refl =>
    obtain ⟨c,mem,waiting⟩ := freshWaits (Master.configuredFresh configured) nonempty
    exact waiting (done c mem)
  | @tail m m' run step =>
    obtain ⟨e,step⟩ := step
    rcases stepWaits configured couples run step with waits | disturbed
    · obtain ⟨c,mem,waiting⟩ := waits nonempty running
      exact waiting (done c mem)
    · exact calm m (reachLockstep configured run) _ _ disturbed ⟨nonempty,running,exits,done⟩

end FmiTcpMaster
