import FmiTcpMaster.Schedule

/-! Slaves that leave. slaveDisconnected() takes the slave out of m_slaves and does nothing
else: it does not call tick(), and it leaves the connections of the slave where they are. -/
namespace FmiTcpMaster
namespace Master

def Live (m : Master) : Prop :=
  m.slaves = [] ∨ 0 < m.exits ∨ m.state = .done ∨ ∃ c ∈ m.slaves, c.connected = false ∨ c.pending ≠ []

def OnlyAwaited (m : Master) (c : FMIClient) : Prop :=
  m.exits = 0 ∧ m.state ≠ .done ∧ (∃ d ∈ m.slaves, d.self ≠ c.self) ∧
    ∀ d ∈ m.slaves, d.self ≠ c.self → m.toControl.finished d

def ConnectionsLive (m : Master) : Prop := ∀ p, p ∈ m.weakEnds ∨ p ∈ m.strongEnds → p ∈ m.addresses

end Master

def Environment.unawaited : Environment := ⟨fun _ _ _ _ => True,fun m c => ¬ m.OnlyAwaited c,fun _ _ => True⟩

def Environment.unconnected : Environment :=
  ⟨fun _ _ _ _ => True,fun m c => ¬ (c.self ∈ m.weakEnds ∨ c.self ∈ m.strongEnds),fun _ _ => True⟩

def Coupling.OfConstraints (K : Coupling) : Prop :=
  ∀ m : Master, ∀ e ∈ K.getEquations m, ∃ s ∈ m.constraints, s.userDataA = e.connA ∧ s.userDataB = e.connB

theorem perConstraintOfConstraints : Coupling.perConstraint.OfConstraints := by
  intro m e mem
  obtain ⟨s,memS,rfl⟩ := List.mem_map.mp mem
  exact ⟨s,memS,rfl,rfl⟩

theorem liveOpen {m : Master} (lock : m.Lockstep) : m.Live ↔ ¬ m.toControl.Blocked m.slaves := by
  constructor
  · rintro live ⟨nonempty,running,exits,done⟩
    rcases live with none | some | ended | ⟨c,mem,owes⟩
    · exact nonempty none
    · exact some.ne' exits
    · exact running ended
    · exact (unfinishedOwes (lock.phases c mem) running).mpr owes (done c mem)
  · intro opened
    by_contra dead
    simp only [Master.Live,not_or,not_exists,not_and,Nat.pos_iff_ne_zero,not_not] at dead
    obtain ⟨nonempty,exits,running,idle⟩ := dead
    refine opened ⟨nonempty,running,exits,fun c mem => ?_⟩
    by_contra waiting
    rcases (unfinishedOwes (lock.phases c mem) running).mp waiting with down | owes
    · exact (idle c mem).1 down
    · exact owes (idle c mem).2

theorem othersAt {l r : List FMIClient} {c : FMIClient} (distinct : ((l ++ c :: r).map FMIClient.self).Nodup)
    (d : FMIClient) : d ∈ l ++ r ↔ d ∈ l ++ c :: r ∧ d.self ≠ c.self := by
  constructor
  · intro mem
    refine ⟨?_,fun same => ?_⟩
    · rcases List.mem_append.mp mem with left | right
      · exact List.mem_append_left _ left
      · exact List.mem_append_right _ (List.mem_cons_of_mem _ right)
    · rw [List.map_append,List.map_cons,List.nodup_append,List.nodup_cons] at distinct
      rcases List.mem_append.mp mem with left | right
      · exact distinct.2.2 d.self (List.mem_map.mpr ⟨d,left,rfl⟩) c.self List.mem_cons_self same
      · exact distinct.2.1.1 (same ▸ List.mem_map.mpr ⟨d,right,rfl⟩)
  · rintro ⟨mem,other⟩
    rcases List.mem_append.mp mem with left | right
    · exact List.mem_append_left _ left
    · rcases List.mem_cons.mp right with rfl | right
      · exact absurd rfl other
      · exact List.mem_append_right _ right

theorem leaveBlocked {g : Control} {l r : List FMIClient} {c : FMIClient}
    (distinct : ((l ++ c :: r).map FMIClient.self).Nodup) :
    (if l ++ r = [] then {g with exits := g.exits+1} else g).Blocked (l ++ r) ↔
      Master.OnlyAwaited ⟨g,l ++ c :: r⟩ c := by
  have others := othersAt distinct
  by_cases none : l ++ r = []
  · constructor
    · exact fun blocked => absurd none blocked.1
    · rintro ⟨_,_,⟨d,mem,other⟩,_⟩
      have inside := (others d).mpr ⟨mem,other⟩
      simp [none] at inside
  · rw [if_neg none]
    constructor
    · rintro ⟨nonempty,running,exits,done⟩
      obtain ⟨d,mem⟩ := List.exists_mem_of_ne_nil _ nonempty
      exact ⟨exits,running,⟨d,(others d).mp mem⟩,fun x memX other => done x ((others x).mpr ⟨memX,other⟩)⟩
    · rintro ⟨exits,running,_,done⟩
      exact ⟨none,running,exits,fun x memX => done x ((others x).mp memX).1 ((others x).mp memX).2⟩

theorem unawaitedCalm (m : Master) (lock : m.Lockstep) (g' : Control) (ps' : List FMIClient)
    (disturbed : Disturbs .unawaited m.toControl m.slaves g' ps') : ¬ g'.Blocked ps' := by
  have distinct := lock.distinct
  rw [Master.addresses] at distinct
  generalize m.toControl = g at disturbed
  generalize m.slaves = ps at disturbed distinct
  cases disturbed with
  | leave allowed => exact fun blocked => allowed ((leaveBlocked distinct).mp blocked)
  | fail => exact fun blocked => Nat.succ_ne_zero _ blocked.2.2.1

/- The master stalls only when the slave that leaves is the only one awaited, and then always. -/
theorem liveUnlessOnlyAwaitedLeaves {K : Coupling} {m₀ m : Master} (configured : Master.Configured m₀)
    (couples : K.Couples) (run : Run K .unawaited m₀ m) :
    m.Live ∧ ∀ c ∈ m.slaves, (m.slaveDisconnected c.self).Live ↔ ¬ m.OnlyAwaited c := by
  have lock := reachLockstep configured run
  refine ⟨(liveOpen lock).mpr (runOpens configured couples unawaitedCalm run),fun c mem => ?_⟩
  obtain ⟨l,r,split⟩ := List.append_of_mem mem
  have left : (m.slaveDisconnected c.self).Lockstep :=
    stepLockstep (K := K) (E := .anything) lock (.disconnect mem trivial rfl)
  have whole : m = ⟨m.toControl,l ++ c :: r⟩ := by rw [← split]
  have distinct := lock.distinct
  rw [Master.addresses,split] at distinct
  rw [liveOpen left,slaveDisconnectedAt split lock.distinct,leaveBlocked distinct,← whole]

theorem stallWhenOnlyAwaitedLeaves : ¬ ∀ m, Run .perConstraint .anything .pair m → m.Live := by
  intro live
  have stalled := live _ (Master.afterRun [.connect 1,.connect 2,.response 1 .getXml,.disconnect 2]
    (fun e _ => anythingAlways e) rfl)
  revert stalled
  unfold Master.Live
  decide

theorem liveUnlessOnlyAwaitedLeavesPair :
    let m := Master.pair.after .perConstraint [.connect 1,.connect 2,.response 1 .getXml]
    m.Live ∧ ∀ c ∈ m.slaves, (m.slaveDisconnected c.self).Live ↔ ¬ m.OnlyAwaited c :=
  liveUnlessOnlyAwaitedLeaves Master.pairConfigured perConstraintCouples
    (Master.afterRun _ (messagesAlways (fun _ => true) (fun _ _ _ _ _ => trivial) rfl) rfl)

theorem disturbedKeeps {E : Environment} {g g' : Control} {ps ps' : List FMIClient} {p : ClientPtr}
    (disturbed : Disturbs E g ps g' ps') (mem : p ∈ ps.map FMIClient.self)
    (stays : ∀ c, E.leaves ⟨g,ps⟩ c → c.self ≠ p) : p ∈ ps'.map FMIClient.self := by
  cases disturbed with
  | @leave l c r allowed =>
    rw [List.map_append,List.map_cons,List.mem_append,List.mem_cons] at mem
    rw [List.map_append,List.mem_append]
    rcases mem with left | same | right
    · exact Or.inl left
    · exact absurd same.symm (stays c allowed)
    · exact Or.inr right
  | fail => exact mem

theorem clockEnds {m₀ m : Master} {k : Nat} (clock : Clock m₀.toControl k m.toControl) :
    m.weakEnds = m₀.weakEnds ∧ m.strongEnds = m₀.strongEnds := by
  have weak : m.weakConnections = m₀.weakConnections := by rw [clock.kept]
  exact ⟨by rw [Master.weakEnds,Master.weakEnds,weak],
    by rw [Master.strongEnds,Master.strongEnds,clockConstraints clock]⟩

theorem runConnectionsLive {K : Coupling} {m₀ m : Master} (configured : Master.Configured m₀)
    (run : Run K .unconnected m₀ m) : m.ConnectionsLive := by
  have fresh := Master.configuredFresh configured
  induction run with
  | refl => exact fun p ends => ends.elim (fresh.weak p) (fresh.strong p)
  | @tail m m' run step ih =>
    obtain ⟨e,step⟩ := step
    have lock := reachLockstep configured run
    obtain ⟨k,scheduled⟩ := reachScheduled configured run
    obtain ⟨k',scheduled'⟩ := reachScheduled configured (run.tail ⟨e,step⟩)
    obtain ⟨weak,strong⟩ := clockEnds scheduled.clock
    obtain ⟨weak',strong'⟩ := clockEnds scheduled'.clock
    intro p ends
    rw [weak',strong',← weak,← strong] at ends
    rcases roundsAddresses lock.resting lock.phases (stepRounds lock step) with same | disturbed
    · exact (show m'.addresses = m.addresses from same) ▸ ih p ends
    · exact disturbedKeeps disturbed (ih p ends) fun c allowed same => allowed (same ▸ ends)

theorem fetchLive {K : Coupling} {m : Master} (lock : m.Lockstep) (solver : K.OfConstraints)
    (live : m.ConnectionsLive) (phase : m.state = .getStrongConnectorStates)
    (opened : m.allClientsHaveState .doneGetReal = true) : ∃ m', m.fetchDirectionalDerivatives K = .ok m' := by
  have all := (Master.barrierOpen (by rw [phase]; rfl)).mp opened
  refine ⟨_,Master.fetchEnters lock.distinct (finishedQueues lock all) fun e mem => ?_⟩
  obtain ⟨s,memS,a,b⟩ := solver _ e mem
  have ends : ∀ p, p = s.userDataA ∨ p = s.userDataB → p ∈ m.strongEnds := fun p h =>
    List.mem_flatMap.mpr ⟨s,memS,by rcases h with rfl | rfl <;> simp⟩
  exact ⟨live _ (Or.inr (ends _ (Or.inl a.symm))),live _ (Or.inr (ends _ (Or.inr b.symm)))⟩

theorem leaveConnections {m : Master} {c : FMIClient} (lock : m.Lockstep) (live : m.ConnectionsLive) (mem : c ∈ m.slaves) :
    (m.slaveDisconnected c.self).ConnectionsLive ↔ ¬ (c.self ∈ m.weakEnds ∨ c.self ∈ m.strongEnds) := by
  obtain ⟨l,r,split⟩ := List.append_of_mem mem
  have distinct := lock.distinct
  rw [Master.addresses,split] at distinct
  have left := slaveDisconnectedAt split lock.distinct
  have addresses : (m.slaveDisconnected c.self).addresses = (l ++ r).map FMIClient.self := by rw [left]; rfl
  have weak : (m.slaveDisconnected c.self).weakEnds = m.weakEnds := by rw [left]; split <;> rfl
  have strong : (m.slaveDisconnected c.self).strongEnds = m.strongEnds := by rw [left]; split <;> rfl
  rw [Master.ConnectionsLive,addresses,weak,strong]
  constructor
  · intro still ends
    obtain ⟨d,memD,same⟩ := List.mem_map.mp (still _ ends)
    exact ((othersAt distinct d).mp memD).2 same
  · intro unreferred p ends
    obtain ⟨d,memD,rfl⟩ := List.mem_map.mp (live p ends)
    refine List.mem_map.mpr ⟨d,(othersAt distinct d).mpr ⟨split ▸ memD,fun same => ?_⟩,rfl⟩
    exact unreferred (same ▸ ends)

/- The connections refer to live slaves until one that they refer to leaves, and no longer. -/
theorem connectionsReferToLiveSlaves {K : Coupling} {m₀ : Master} (configured : Master.Configured m₀)
    (solver : K.OfConstraints) :
    (∀ m, Run K .unconnected m₀ m → m.ConnectionsLive ∧ ∀ c ∈ m.slaves,
      (m.slaveDisconnected c.self).ConnectionsLive ↔ ¬ (c.self ∈ m.weakEnds ∨ c.self ∈ m.strongEnds)) ∧
    ∀ m, Master.Ticked K .unconnected m₀ m → m.state = .getStrongConnectorStates →
      m.allClientsHaveState .doneGetReal = true → ∃ m', m.fetchDirectionalDerivatives K = .ok m' := by
  constructor
  · intro m run
    have lock := reachLockstep configured run
    have live := runConnectionsLive configured run
    exact ⟨live,fun c mem => leaveConnections lock live mem⟩
  · intro m ticked phase opened
    obtain ⟨m₁,l,p,q,r,run,lock,split,moved,rfl⟩ := tickedMoves configured ticked
    have live := runConnectionsLive configured run
    refine fetchLive (movedLockstep lock split moved) solver (fun x ends => ?_) phase opened
    rw [Master.addresses,replaceAddresses (moveInPhase (lock.phases p (by simp [split])) moved).2,← split]
    exact live x ends

theorem connectionsReferToLiveSlavesCoupled :
    let m := Master.coupled.after .perConstraint ([.connect 1,.connect 2] ++ Event.both .getXml)
    m.ConnectionsLive ∧ ∀ c ∈ m.slaves,
      (m.slaveDisconnected c.self).ConnectionsLive ↔ ¬ (c.self ∈ m.weakEnds ∨ c.self ∈ m.strongEnds) :=
  (connectionsReferToLiveSlaves Master.coupledConfigured perConstraintOfConstraints).1 _
    (Master.afterRun _ (messagesAlways (fun _ => true) (fun _ _ _ _ _ => trivial) rfl) rfl)

theorem deletedSlaveReferred :
    (¬ ∀ m, Run .perConstraint .anything .coupled m → m.ConnectionsLive) ∧
    ∃ m, Run .perConstraint .anything .coupled m ∧ m.possible (.response 1 (.getReal (List.replicate 13 0) .ok)) = true ∧
      m.handle .perConstraint (.response 1 (.getReal (List.replicate 13 0) .ok)) = .error .deletedClient := by
  have run := Master.afterRun (K := .perConstraint) (m := .coupled) (Event.speculation 0 0 ++
    Event.both (.setFmuState .ok) ++ [.disconnect 2]) (fun e _ => anythingAlways e) (by decide +kernel)
  constructor
  · intro live
    exact absurd (live _ run 2 (Or.inr (by decide +kernel))) (by decide +kernel)
  · exact ⟨_,run,by decide +kernel,by decide +kernel⟩

end FmiTcpMaster
