import FmiTcpMaster.Schedule

/-! What network timing cannot change. Slaves that answer as a function of what they have been
asked leave the rounds deterministic, in whatever order their answers arrive. -/
namespace FmiTcpMaster

structure Slave (S : Type) where
  start : S
  execute : S → Request → S
  respond : S → Request → Response

section Slaves
variable {S : Type}

def Slave.state (s : Slave S) (rs : List Request) : S := rs.foldl s.execute s.start

def Environment.determined (slaves : ClientPtr → Slave S) : Environment :=
  .lasting fun _ c r a => a = (slaves c.self).respond ((slaves c.self).state (c.answered.map Exchange.request)) r

instance (slaves : ClientPtr → Slave S) (m : Master) (e : Event) :
    Decidable ((Environment.determined slaves).Allows m e) :=
  have : ∀ g c r a, Decidable ((Environment.determined slaves).answers g c r a) := fun _ c r a =>
    inferInstanceAs (Decidable (a = (slaves c.self).respond ((slaves c.self).state (c.answered.map Exchange.request)) r))
  have : ∀ m c, Decidable ((Environment.determined slaves).leaves m c) := fun _ _ => .isFalse id
  have : ∀ m c, Decidable ((Environment.determined slaves).fails m c) := fun _ _ => .isFalse id
  inferInstance

theorem roundsDeterministic (K : Coupling) (slaves : ClientPtr → Slave S) :
    Rounds.Deterministic (rounds K (.determined slaves)) where
  move := by
    intro g c x y left right
    rcases left.2 with ⟨connecting,rfl⟩ | ⟨begun,r,rest,a,oldest,_,allowed,ok⟩
    · rcases right.2 with ⟨_,rfl⟩ | ⟨begun,_⟩
      · rfl
      · exact absurd connecting begun
    · rcases right.2 with ⟨connecting,_⟩ | ⟨_,r',rest',a',oldest',_,allowed',ok'⟩
      · exact absurd connecting begun
      · cases oldest.symm.trans oldest'
        have same : a = a' := Eq.trans allowed (Eq.symm allowed')
        rw [same] at ok
        exact Except.ok.inj (ok.symm.trans ok')
  halted := fun done moved => moved.1 done
  turn := by
    intro g ps g' ps' g'' ps'' left right
    cases Except.ok.inj (left.2.2.symm.trans right.2.2)
    exact ⟨rfl,rfl⟩

theorem overTurns {K : Coupling} {g g' : Control} {ps ps' : List FMIClient} (ended : g.state = .done) :
    ¬ turns K g ps g' ps' := by
  intro turned
  have phase := turned.1
  simp [ended,MasterState.awaited] at phase

theorem overMoves {E : Environment} {g : Control} {c c' : FMIClient} (ended : g.state = .done)
    (phase : InPhase g.state c) : ¬ moves E g c c' := by
  intro moved
  have waits := movesPhase phase moved
  simp [ended,MasterState.awaited] at waits

theorem timingIrrelevant {K : Coupling} {slaves : ClientPtr → Slave S} {m₀ m m' : Master}
    (configured : Master.Configured m₀) (left : Run K (.determined slaves) m₀ m)
    (right : Run K (.determined slaves) m₀ m') (ended : m.state = .done) (ended' : m'.state = .done) :
    m'.time = m.time ∧ List.Forall₂ (fun c c' : FMIClient => c'.self = c.self ∧ c'.requests = c.requests ∧
      c'.strongConnectors = c.strongConnectors ∧
      (slaves c.self).state c'.requests = (slaves c.self).state c.requests) m.slaves m'.slaves ∧ m' = m := by
  have fresh := freshLockstep (Master.configuredFresh configured)
  obtain ⟨lock,rounds⟩ := runRounds fresh left
  obtain ⟨lock',rounds'⟩ := runRounds fresh right
  have parts : m.parts = m'.parts :=
    Rounds.determined (roundsDeterministic K slaves) (lastingCalm K _) rounds rounds'
      (fun _ _ _ => overTurns ended) (fun _ _ _ => overTurns ended')
      (fun c mem _ => overMoves ended (lock.phases c mem)) fun c mem _ => overMoves ended' (lock'.phases c mem)
  have same : m' = m := by
    cases m
    cases m'
    cases parts
    rfl
  subst same
  exact ⟨rfl,List.forall₂_same.mpr fun _ _ => ⟨rfl,rfl,rfl,rfl⟩,rfl⟩

end Slaves

def countingSlave : Slave Nat where
  start := 0
  execute s _ := s+1
  respond s r := match r with
    | .getXml => .getXml
    | .instantiate => .instantiate .success
    | .initializeSlave .. => .initializeSlave .ok
    | .getFmuState => .getFmuState 0 .ok
    | .setFmuState _ => .setFmuState .ok
    | .doStep .. => .doStep .ok
    | .getReal refs => .getReal (refs.map fun _ => s) .ok
    | .setReal .. => .setReal .ok
    | .getDirectionalDerivative _ => .getDirectionalDerivative [] .ok

def countingAnswers : List Response :=
  [.getXml,.instantiate .success,.initializeSlave .ok,.getFmuState 0 .ok,.doStep .ok,
    .getReal (List.replicate 13 5) .ok,.setFmuState .ok,.getReal (List.replicate 13 7) .ok,
    .getDirectionalDerivative [] .ok,.setReal .ok,.getReal [] .ok,.setReal .ok,.doStep .ok]

def deliveries (p q : ClientPtr) : List Event :=
  [.connect p,.connect q] ++ countingAnswers.flatMap fun a => [.response p a,.response q a]

theorem timingIrrelevantCoupled :
    (Master.coupled.after .perConstraint (deliveries 1 2)).state = .done ∧
    Master.coupled.after .perConstraint (deliveries 2 1) = Master.coupled.after .perConstraint (deliveries 1 2) := by
  have run : ∀ p q, Master.Permits .perConstraint (.determined fun _ => countingSlave) .coupled (deliveries p q) →
      (Master.coupled.replay .perConstraint (deliveries p q)).isSome = true →
      Run .perConstraint (.determined fun _ => countingSlave) .coupled (Master.coupled.after .perConstraint (deliveries p q)) :=
    fun _ _ permits ok => Master.afterPermitted permits ok
  have ended : (Master.coupled.after .perConstraint (deliveries 1 2)).state = .done := by decide +kernel
  exact ⟨ended,(timingIrrelevant Master.coupledConfigured (run 1 2 (by decide +kernel) (by decide +kernel))
    (run 2 1 (by decide +kernel) (by decide +kernel)) ended (by decide +kernel)).2.2⟩

end FmiTcpMaster
