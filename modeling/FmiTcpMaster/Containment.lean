import FmiTcpMaster.Crashes
import FmiTcpMaster.History

/-! Runs in which some slaves keep to the protocol and the others send what they like. The lock-step
discipline holds between the master and each slave that keeps to it. -/
namespace FmiTcpMaster

abbrev Mixed (K : Coupling) (E : Environment) (honest : ClientPtr → Prop) := Relation.ReflTransGen fun m m' : Master =>
  ∃ e : Event, e.slave ∈ m.addresses ∧ m.handle K e = .ok m' ∧ (honest e.slave → Step K E m e m')

theorem mixedHeard {K : Coupling} {E : Environment} {honest : ClientPtr → Prop} {m m' : Master}
    (run : Mixed K E honest m m') : Heard K m m' := by
  induction run with
  | refl => exact .refl
  | tail _ step ih =>
    obtain ⟨e,own,handled,_⟩ := step
    exact ih.tail ⟨e,own,handled⟩

theorem runMixed {K : Coupling} {E : Environment} {honest : ClientPtr → Prop} {m m' : Master} (run : Run K E m m') :
    Mixed K E honest m m' := by
  induction run with
  | refl => exact .refl
  | tail _ step ih =>
    obtain ⟨e,step⟩ := step
    exact ih.tail ⟨e,(stepHeard step).1,(stepHeard step).2,fun _ => step⟩

/- What one slave alone has to keep, for it to be kept whatever the other slaves do. -/
structure Contained (E : Environment) (I : Control → FMIClient → Prop) : Prop where
  move : ∀ {g c c'}, InPhase g.state c → I g c → moves E g c c' → I g c'
  turn : ∀ {K g ps c}, InPhase g.state c → g.finished c → I g c → I g.advance (entered K g ps c)
  exits : ∀ {g n c}, I g c → I {g with exits := n} c

theorem honestMoves {K : Coupling} {E : Environment} {m m' : Master} {e : Event} {c c' : FMIClient}
    (distinct : m.addresses.Nodup) (step : Step K E m e m') (ticks : e.ticks = true) (mem : c ∈ m.slaves)
    (self : e.slave = c.self) (phase : InPhase m.state c) (written : e.write m.state c = .ok c') :
    moves E m.toControl c c' := by
  have same : ∀ d ∈ m.slaves, d.self = c.self → d = c := fun d inside eq =>
    List.inj_on_of_nodup_map distinct inside mem eq
  cases step with
  | connect inside down _ =>
    cases same _ inside self
    cases written
    exact connectMoves phase down
  | response inside oldest fits allowed _ =>
    cases same _ inside self
    exact responseMoves phase oldest fits allowed written
  | disconnect | error => cases ticks

section Mixing
variable {K : Coupling} {E : Environment} {honest : ClientPtr → Prop} {I : Control → FMIClient → Prop} {m₀ m m' : Master}

theorem hearsContained {e : Event} (contained : Contained E I) (orderly : m.Orderly m₀.toControl)
    (holds : ∀ c ∈ m.slaves, honest c.self → InPhase m.state c ∧ I m.toControl c) (hears : Hears K e m m')
    (keeps : honest e.slave → Step K E m e m') : ∀ c ∈ m'.slaves, honest c.self → InPhase m'.state c ∧ I m'.toControl c := by
  cases hears with
  | leaves _ control slaves =>
    obtain ⟨n,control⟩ := control
    intro c mem trusted
    obtain ⟨phase,held⟩ := holds c (slaves.subset mem) trusted
    rw [control]
    exact ⟨phase,contained.exits held⟩
  | @ticks l c r q _ ticks self split written heeded turn =>
    have mem : c ∈ m.slaves := by simp [split]
    have after : ∀ p ∈ l ++ q :: r, honest p.self → InPhase m.state p ∧ I m.toControl p := by
      refine replaceMember (split ▸ holds) fun before trusted => ?_
      rw [heeded.self] at trusted
      obtain ⟨phase,held⟩ := before trusted
      have moved := honestMoves orderly.sound.distinct (keeps (self ▸ trusted)) ticks mem self phase written
      exact ⟨(moveInPhase phase moved).1,contained.move phase held moved⟩
    cases turn with
    | rests => exact after
    | enters opened _ _ =>
      intro p mem trusted
      obtain ⟨p₀,inside,rfl⟩ := List.mem_map.mp mem
      obtain ⟨phase,held⟩ := after p₀ inside ((enteredKept K m.toControl (l ++ q :: r) p₀).self ▸ trusted)
      exact ⟨enteredInPhase orderly.sound.resting phase (opened p₀ inside),contained.turn phase (opened p₀ inside) held⟩

theorem mixedKeeps (contained : Contained E I) (configured : Master.Configured m₀)
    (fresh : ∀ c ∈ m₀.slaves, I m₀.toControl c) (run : Mixed K E honest m₀ m) :
    ∀ c ∈ m.slaves, honest c.self → InPhase m.state c ∧ I m.toControl c := by
  induction run with
  | refl =>
    have lock := freshLockstep (Master.configuredFresh configured)
    exact fun c mem _ => ⟨lock.phases c mem,fresh c mem⟩
  | tail before step ih =>
    obtain ⟨e,own,handled,keeps⟩ := step
    have orderly := heardOrderly configured (mixedHeard before)
    exact hearsContained contained orderly ih (handleHears orderly own handled) keeps

theorem containedAlways : Contained E fun _ _ => True := ⟨fun _ _ _ => trivial,fun _ _ _ => trivial,fun _ => trivial⟩

theorem fittingAnswer {g₀ : Control} {e : Event} {c : FMIClient} (orderly : m.Orderly g₀) (mem : c ∈ m.slaves)
    (phase : InPhase m.state c) (self : e.slave = c.self) (possible : m.possible e = true) :
    m.handle K e ≠ .error .assertion := by
  have same : ∀ d ∈ m.slaves, d.self = c.self → d = c := fun d inside eq =>
    List.inj_on_of_nodup_map orderly.sound.distinct inside mem eq
  intro failed
  rcases (orderlyFault orderly (self ▸ List.mem_map_of_mem mem) _).mp failed with ⟨_,stores,d,inside,_,values,status,rfl,wrong⟩ | lost
  · cases same d inside self
    obtain ⟨c₁,inside₁,self₁,r,rest,oldest,fits⟩ := Master.possibleResponse possible
    cases same c₁ inside₁ self₁
    have reading : m.state = .getStrongConnectorStates ∨ m.state = .gettingFutureVelo := by
      unfold MasterState.stores at stores
      split at stores <;> simp_all
    cases (inPhaseOldest phase oldest).2.2 reading
    exact wrong (beq_iff_eq.mp fits).symm
  · cases lost.1

/- Between the master and a slave that keeps to the protocol the others change nothing: at most one
open request, which belongs to the phase and keeps it closed, along the documented cycle. -/
theorem honestUndisturbed (configured : Master.Configured m₀) (run : Mixed K E honest m₀ m) :
    ∀ c ∈ m.slaves, honest c.self →
      c.pending.length ≤ 1 ∧ (∀ r ∈ c.pending, m.state.asks r = true ∧ ¬ m.toControl.finished c) ∧
      (∃ n all rest, m₀.toControl.cycle.Iterations c.getStrongConnectorValueReferences n all ∧
        c.answered.map Exchange.request ++ c.pending ++ rest = m₀.toControl.cycle.startup ++ all) ∧
      ∀ e : Event, e.slave = c.self → m.possible e = true → m.handle K e ≠ .error .assertion := by
  intro c mem trusted
  have orderly := heardOrderly configured (mixedHeard run)
  have phase := (mixedKeeps containedAlways configured (fun _ _ => trivial) run c mem trusted).1
  obtain ⟨k,_,sent⟩ := orderly.scheduled
  obtain ⟨short,asks⟩ := inPhasePending phase
  refine ⟨short,fun r inside => ⟨asks r inside,fun done => ?_⟩,Cycle.sentPrefix (sent c mem),
    fun e self possible => fittingAnswer orderly mem phase self possible⟩
  rw [(finishedIdle phase done).2.1] at inside
  cases inside

end Mixing

def Event.impatient : List Event :=
  [.response 2 .getXml,.connect 1,.connect 2,.response 2 .getXml,.response 1 .getXml,.response 2 (.doStep .ok),
    .response 2 (.instantiate .error),.response 1 (.instantiate .success),.response 2 (.initializeSlave .fatal)]

def Master.heed (K : Coupling) (honest : ClientPtr → Bool) (m : Master) : List Event → Option Master
  | [] => some m
  | e :: es =>
    if e.slave ∈ m.addresses ∧ (honest e.slave = true → m.possible e = true) then
      match m.handle K e with
      | .ok m' => m'.heed K honest es
      | .error _ => none
    else none

theorem heeded {K : Coupling} {honest : ClientPtr → Bool} {m m' : Master} (es : List Event)
    (ok : m.heed K honest es = some m') : Mixed K .anything (fun p => honest p = true) m m' := by
  induction es generalizing m with
  | nil => cases ok; exact .refl
  | cons e es ih =>
    unfold Master.heed at ok
    split at ok <;> try contradiction
    rename_i fair
    split at ok <;> try contradiction
    rename_i next handled
    exact .head ⟨e,fair.1,handled,fun trusted => Master.possibleStep (fair.2 trusted) (anythingAlways e m) handled⟩ (ih ok)

theorem honestUndisturbedPair :
    let m := (Master.pair.heed .perConstraint (· = 1) Event.impatient).getD .pair
    m.state = .initializingSlaves ∧ ∀ c ∈ m.slaves, c.self = 1 → c.pending.length ≤ 1 := by
  intro m
  have run : Mixed .perConstraint .anything (fun p => decide (p = 1) = true) .pair m :=
    heeded Event.impatient (by decide +kernel)
  exact ⟨by decide +kernel,fun c mem self =>
    (honestUndisturbed Master.pairConfigured run c mem (decide_eq_true self)).1⟩

end FmiTcpMaster
