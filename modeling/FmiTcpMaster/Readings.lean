import FmiTcpMaster.Containment
import FmiTcpMaster.ConnectorValues

/-! What the connectors of a slave hold while its derivatives are fetched and the forces set, when
other slaves send what they like: its own readings, of the state that was saved and of the next one. -/
namespace FmiTcpMaster

def MasterState.uses : MasterState → Bool
  | .gettingDirectionalDerivatives | .settingStrongCouplingForces => true
  | _ => false

def Request.quiet : Request → Bool
  | .getDirectionalDerivative _ | .setReal .. => true
  | _ => false

theorem usesAsks {s : MasterState} {r : Request} (uses : s.uses = true) (asks : s.asks r = true) : r.quiet = true := by
  cases s <;> try contradiction
  all_goals cases r <;> first | rfl | contradiction

theorem usesConnectors {s : MasterState} (uses : s.uses = true) (a : Response) (c : FMIClient) :
    c.updatedConnectors s a = c.strongConnectors := by
  cases s <;> first | rfl | contradiction

theorem nextUses {g : Control} (uses : g.next.uses = true) : g.state = .getStrongConnectorStates ∨ g.state.uses = true := by
  have head := loopHeadCases g
  have next : g.next = _ := Control.next.eq_1 g
  cases at_ : g.state <;> simp only [at_] at next <;> rw [next] at uses
  case getStrongConnectorStates => exact .inl rfl
  case initializingSlaves | startSimloop => rcases head with h | h | h <;> rw [h] at uses <;> contradiction
  case settingStrongCouplingForces => exact .inr rfl
  case steppingSlaves =>
    split at uses
    · rcases head with h | h | h <;> rw [h] at uses <;> contradiction
    · contradiction
  case gettingDirectionalDerivatives => exact .inr rfl
  all_goals contradiction

theorem sentUses {C : Cycle} {refs : List Int} {k : Nat} {s : MasterState} {rs : List Request}
    (sent : C.Sent refs k s rs) (uses : s.uses = true) : ∃ head tail,
      rs = head ++ (C.rewindRequests refs (k*C.timeStep) ++ [.setFmuState 0,.getReal refs]) ++ tail ∧
      ∀ r ∈ tail, r.quiet = true := by
  cases sent with
  | @iterate k all s part before begun =>
    cases begun <;> try contradiction
    case derive strong ds =>
      refine ⟨C.startup ++ all,ds.map .getDirectionalDerivative,by simp [Cycle.rewindRequests],fun r mem => ?_⟩
      obtain ⟨d,_,rfl⟩ := List.mem_map.mp mem
      rfl
    case forces strong ds =>
      refine ⟨C.startup ++ all,ds.map .getDirectionalDerivative ++ [.setReal [] []],
        by simp [Cycle.rewindRequests,Cycle.strongRequests],fun r mem => ?_⟩
      rcases List.mem_append.mp mem with derivative | last
      · obtain ⟨d,_,rfl⟩ := List.mem_map.mp derivative
        rfl
      · cases List.mem_singleton.mp last
        rfl
  | connecting | xml | instantiate | initialization | ended => contradiction

theorem answeredReading {s : MasterState} {c : FMIClient} {head since tail : List Request} {refs : List Int}
    (phase : InPhase s c) (uses : s.uses = true)
    (requests : c.answered.map Exchange.request ++ c.pending = head ++ (since ++ [.setFmuState 0,.getReal refs]) ++ tail)
    (quiet : ∀ r ∈ tail, r.quiet = true) : ∃ more,
      c.answered.map Exchange.request = head ++ (since ++ [.setFmuState 0,.getReal refs]) ++ more ∧
        ∀ r ∈ more, r.quiet = true := by
  rcases List.append_eq_append_iff.mp requests with ⟨open_,rest,pending⟩ | ⟨more,all,rest⟩
  · rcases List.eq_nil_or_concat' open_ with rfl | ⟨l,r,rfl⟩
    · exact ⟨[],by simpa using rest.symm,fun r none => absurd none List.not_mem_nil⟩
    · -- the reading would still be open, and in these phases none is
      have last : r = .getReal refs := by
        have ends := congrArg List.getLast? rest
        simpa using ends.symm
      have asks := (inPhasePending phase).2 r (by rw [pending]; simp)
      cases (usesAsks uses asks).symm.trans (congrArg Request.quiet last)
  · exact ⟨more,all,fun r inside => quiet r (rest ▸ List.mem_append_left _ inside)⟩

section Values
variable {S : Type}

theorem trackQuiet (f : Fmu S) (xs : List Exchange) {more : List Exchange} (quiet : ∀ x ∈ more, x.request.quiet = true) :
    (f.track (xs ++ more)).saved = (f.track xs).saved ∧ (f.track (xs ++ more)).stepped = (f.track xs).stepped := by
  induction more generalizing xs with
  | nil => rw [List.append_nil]; exact ⟨rfl,rfl⟩
  | cons x more ih =>
    obtain ⟨first,others⟩ := List.forall_mem_cons.mp quiet
    have one : (f.track (xs ++ [x])).saved = (f.track xs).saved ∧ (f.track (xs ++ [x])).stepped = (f.track xs).stepped := by
      rw [trackSnoc]
      obtain ⟨r,a⟩ := x
      cases r <;> first | exact ⟨rfl,rfl⟩ | contradiction
    rw [List.append_cons]
    exact ⟨(ih _ others).1.trans one.1,(ih _ others).2.trans one.2⟩

def ReadOn (f : Fmu S) (s : MasterState) (c : FMIClient) : Prop :=
  ReadSoFar f s c ∧ (s.uses = true → FutureRead f c ∧ PresentRead f c)

theorem readOnMove {fmus : ClientPtr → Fmu S} {g : Control} {c c' : FMIClient} (phase : InPhase g.state c)
    (read : ReadOn (fmus c.self) g.state c) (moved : moves (.reading fmus) g c c') : ReadOn (fmus c'.self) g.state c' := by
  refine ⟨readMove phase moved read.1,fun uses => ?_⟩
  rcases moveCases phase moved with ⟨connecting,rfl⟩ | ⟨r,a,reply⟩
  · exact read.2 uses
  · have quiet : ∀ x ∈ [Exchange.mk r a], x.request.quiet = true := List.forall_mem_singleton.mpr (usesAsks uses reply.asks)
    obtain ⟨saved,stepped⟩ := trackQuiet (fmus c.self) c.answered quiet
    have held := read.2 uses
    rw [FutureRead,PresentRead,reply.absorbed.connectors,usesConnectors uses,reply.absorbed.answered,reply.absorbed.self,
      saved,stepped]
    exact held

theorem readOnTurn {K : Coupling} {g : Control} {ps : List FMIClient} {c : FMIClient} {f : Fmu S} (idle : c.pending = [])
    (read : ReadOn f g.state c) : ReadOn f g.next (entered K g ps c) := by
  refine ⟨readEntered idle read.1,fun uses => ?_⟩
  have kept := enteredKept K g ps c
  rw [FutureRead,PresentRead,kept.connectors,kept.answered]
  rcases nextUses uses with strong | before
  · have sofar := read.1
    rw [strong] at sofar
    exact ⟨sofar.1,sofar.2.2 idle⟩
  · exact read.2 before

theorem readOnContained (fmus : ClientPtr → Fmu S) :
    Contained (.reading fmus) fun g c => ReadOn (fmus c.self) g.state c where
  move phase read moved := readOnMove phase read moved
  turn := by
    intro K g ps c phase done read
    rw [(enteredKept K g ps c).self]
    exact readOnTurn (finishedIdle phase done).2.1 read
  exits read := read

/- While readings are used, those of a slave that keeps to the protocol are what its connectors hold:
`before` is its history when the iteration began. -/
theorem readingsUndisturbed {K : Coupling} {fmus : ClientPtr → Fmu S} {honest : ClientPtr → Prop} {m₀ m : Master}
    (configured : Master.Configured m₀) (run : Mixed K (.reading fmus) honest m₀ m) (uses : m.state.uses = true) :
    ∀ c ∈ m.slaves, honest c.self → ∃ before since more, c.answered = before ++ since ++ more ∧
      since.map Exchange.request = m.toControl.cycle.rewindRequests c.getStrongConnectorValueReferences m.time ++
        [.setFmuState 0,.getReal c.getStrongConnectorValueReferences] ∧
      ∀ k ∈ c.strongConnectors, k.Present ((fmus c.self).out ((fmus c.self).state before)) ∧
        k.Future ((fmus c.self).out ((fmus c.self).exec ((fmus c.self).state before)
          (.doStep m.time m.timeStep true))) := by
  intro c mem trusted
  have fresh : ∀ d ∈ m₀.slaves, ReadOn (fmus d.self) m₀.state d := fun d _ => by
    rw [(Master.configuredFresh configured).state]
    exact ⟨trivial,fun wrong => by cases wrong⟩
  obtain ⟨phase,_,read⟩ := mixedKeeps (readOnContained fmus) configured fresh run c mem trusted
  obtain ⟨future,present⟩ := read uses
  obtain ⟨k,clock,sent⟩ := (heardOrderly configured (mixedHeard run)).scheduled
  obtain ⟨head,tail,requests,quiet⟩ := sentUses (sent c mem) uses
  have time : m.time = k*m₀.toControl.cycle.timeStep := by
    have elapsed : m.toControl.elapsed k = k := by
      rw [Control.elapsed,if_neg]
      rintro (at_ | at_) <;> rw [at_] at uses <;> contradiction
    rw [clock.time,elapsed]
    rfl
  rw [FMIClient.requests,← time,← clockCycle clock] at requests
  obtain ⟨more,split,quietly⟩ := answeredReading phase uses requests quiet
  obtain ⟨read_,after,whole,begun,rest⟩ := List.map_eq_append_iff.mp split
  obtain ⟨before,since,rfl,_,same⟩ := List.map_eq_append_iff.mp begun
  have silent : ∀ x ∈ after, x.request.quiet = true := fun x inside => quietly _ (rest ▸ List.mem_map_of_mem inside)
  obtain ⟨saved,stepped⟩ := trackQuiet (fmus c.self) (before ++ since) silent
  obtain ⟨savedAt,steppedAt⟩ := trackRewind (fmus c.self) before same
  rw [← whole] at saved stepped
  refine ⟨before,since,after,whole,same,fun k inside => ⟨?_,?_⟩⟩
  · exact saved.trans savedAt ▸ present k inside
  · exact stepped.trans steppedAt ▸ future k inside

end Values

theorem readingsUndisturbedCoupled :
    let m := Master.coupled.after .perConstraint (readingEvents ++ [.response 1 (.getReal (List.replicate 13 0) .ok)])
    ∃ m', m.handle .perConstraint (.response 2 (.getReal [7] .error)) = .ok m' ∧
      m'.state = .gettingDirectionalDerivatives ∧ ∀ c ∈ m'.slaves, c.self = 1 → ∃ before : List Exchange,
        before <+: c.answered ∧ ∀ k ∈ c.strongConnectors,
          k.Present ((countingFmus c.self).out ((countingFmus c.self).state before)) := by
  intro m
  have run : Run .perConstraint (.reading countingFmus) .coupled m :=
    Master.afterPermitted (m := .coupled) (by decide +kernel) (by decide +kernel)
  obtain ⟨m',handled,phase⟩ : ∃ m', m.handle .perConstraint (.response 2 (.getReal [7] .error)) = .ok m' ∧
      m'.state = .gettingDirectionalDerivatives :=
    ⟨(m.handle .perConstraint (.response 2 (.getReal [7] .error))).toOption.getD m,by decide +kernel,by decide +kernel⟩
  have before : Mixed .perConstraint (.reading countingFmus) (· = 1) .coupled m := runMixed run
  have mixed : Mixed .perConstraint (.reading countingFmus) (· = 1) .coupled m' :=
    before.tail ⟨_,by decide +kernel,handled,fun own => absurd own (by decide)⟩
  refine ⟨m',handled,phase,fun c mem self => ?_⟩
  obtain ⟨before,since,more,split,_,held⟩ :=
    readingsUndisturbed Master.coupledConfigured mixed (by rw [phase]; rfl) c mem self
  exact ⟨before,⟨since ++ more,by rw [split,List.append_assoc]⟩,fun k inside => (held k inside).1⟩

end FmiTcpMaster
