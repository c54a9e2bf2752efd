import FmiTcpMaster.Lockstep

/-! Every run of the event loop is a run of the rounds, and what the rounds keep is kept in
every state that the master can reach. -/
namespace FmiTcpMaster

structure Master.Lockstep (m : Master) : Prop where
  distinct : m.addresses.Nodup
  resting : m.state.resting = true
  phases : ∀ c ∈ m.slaves, InPhase m.state c

def Master.parts (m : Master) : Control × List FMIClient := (m.toControl,m.slaves)

theorem freshLockstep {m : Master} (fresh : m.Fresh) : m.Lockstep := by
  refine ⟨fresh.distinct,by rw [fresh.state]; rfl,fun c mem => ?_⟩
  have client := fresh.clients c mem
  rw [fresh.state]
  exact .connecting client.answered client.pending ⟨client.vRefs,client.zRefs,client.dvs⟩

theorem enteredAddresses (K : Coupling) (g : Control) (ps : List FMIClient) :
    (ps.map (entered K g ps)).map FMIClient.self = ps.map FMIClient.self := by
  rw [List.map_map]
  exact List.map_congr_left fun c _ => (enteredKept K g ps c).self

theorem replaceAddresses {l r : List FMIClient} {c c' : FMIClient} (same : c'.self = c.self) :
    (l ++ c' :: r).map FMIClient.self = (l ++ c :: r).map FMIClient.self := by
  simp only [List.map_append,List.map_cons,same]

theorem downConnecting {s : MasterState} {c : FMIClient} (phase : InPhase s c) (down : c.connected = false) :
    s = .connectingSlaves := by
  cases phase with
  | connecting => rfl
  | asked connected => simp [down] at connected
  | finished connected => simp [down] at connected
  | ended connected => simp [down] at connected

theorem inPhasePending {s : MasterState} {c : FMIClient} (phase : InPhase s c) :
    c.pending.length ≤ 1 ∧ ∀ r ∈ c.pending, s.asks r = true := by
  cases phase with
  | connecting _ pending => simp [pending]
  | asked _ asks pending => simpa [pending] using asks
  | finished _ pending => simp [pending]
  | ended _ pending => simp [pending]

theorem asksAwaited {s : MasterState} {r : Request} (asks : s.asks r = true) : s.awaited.isSome = true := by
  cases s <;> first | rfl | simp [MasterState.asks] at asks

theorem movesPhase {E : Environment} {g : Control} {c c' : FMIClient} (phase : InPhase g.state c)
    (moved : moves E g c c') : g.state = .connectingSlaves ∨ g.state.awaited.isSome = true := by
  rcases moveCases phase moved with ⟨connecting,_⟩ | ⟨r,a,reply⟩
  · exact Or.inl connecting
  · exact Or.inr (asksAwaited reply.asks)

/- What one handler leaves behind, in terms of the rounds: the slave moved, and then tick()
either found the barrier closed or turned the round. -/
theorem tickRounds {K : Coupling} {E : Environment} {m m' : Master} {l r : List FMIClient} {c c' : FMIClient}
    (lock : m.Lockstep) (split : m.slaves = l ++ c :: r) (moved : moves E m.toControl c c')
    (ticked : Master.tick K {m with slaves := l ++ c' :: r} = .ok m') :
    Rounds.Step (rounds K E) m.parts m'.parts := by
  have phase := lock.phases c (by simp [split])
  have parts : m.parts = (m.toControl,l ++ c :: r) := by rw [Master.parts,split]
  rw [parts]
  by_cases all : ∀ x ∈ l ++ c' :: r, m.toControl.finished x
  · refine .turn (q := c') moved all ⟨movesPhase phase moved,?_,ticked⟩
    rw [replaceAddresses (moveInPhase phase moved).2,← split]
    exact lock.distinct
  · have stays := Master.tickStays (K := K) (m := {m with slaves := l ++ c' :: r}) lock.resting all
    cases Except.ok.inj (stays.symm.trans ticked)
    exact .stay (q := c') moved all

theorem slaveDisconnectedAt {m : Master} {l r : List FMIClient} {c : FMIClient} (split : m.slaves = l ++ c :: r)
    (distinct : m.addresses.Nodup) :
    m.slaveDisconnected c.self =
      ⟨if l ++ r = [] then {m.toControl with exits := m.exits+1} else m.toControl,l ++ r⟩ := by
  have before : ∀ x ∈ l, ¬ x.self = c.self := by
    intro x mem same
    rw [Master.addresses,split,List.map_append,List.map_cons,List.nodup_append] at distinct
    exact distinct.2.2 x.self (List.mem_map.mpr ⟨x,mem,rfl⟩) c.self List.mem_cons_self same
  have erased : m.slaves.eraseP (fun x => x.self = c.self) = l ++ r := by
    rw [split,List.eraseP_append_right _ (by simpa using before)]
    simp
  simp only [Master.slaveDisconnected,erased,List.length_eq_zero_iff]
  split <;> rfl

theorem connectMoves {E : Environment} {m : Master} {c : FMIClient} (phase : InPhase m.state c)
    (down : c.connected = false) : moves E m.toControl c {c with connected := true} := by
  have connecting := downConnecting phase down
  exact ⟨by simp [Control.finished,connecting,down],Or.inl ⟨connecting,rfl⟩⟩

theorem responseMoves {E : Environment} {m : Master} {c c' : FMIClient} {req : Request} {rest : List Request}
    {a : Response} (phase : InPhase m.state c) (oldest : c.pending = req :: rest) (fits : a.answers req = true)
    (allowed : E.answers m.toControl c req a) (absorbs : c.absorb m.state a = .ok c') :
    moves E m.toControl c c' := by
  have open_ : ¬ m.toControl.finished c := fun done => by
    simp [(finishedIdle phase done).2.1] at oldest
  have started : m.state ≠ .connectingSlaves := fun connecting => by
    have asks := (inPhaseOldest phase oldest).2.1
    simp [connecting,MasterState.asks] at asks
  exact ⟨open_,Or.inr ⟨started,req,rest,a,oldest,fits,allowed,absorbs⟩⟩

theorem stepRounds {K : Coupling} {E : Environment} {m m' : Master} {e : Event} (lock : m.Lockstep)
    (step : Step K E m e m') : Rounds.Step (rounds K E) m.parts m'.parts := by
  cases step with
  | @connect _ c mem down handled =>
    obtain ⟨l,r,split⟩ := List.append_of_mem mem
    refine tickRounds lock split (connectMoves (lock.phases c mem) down) ?_
    simp only [Master.handle,Master.derefAt split lock.distinct] at handled
    exact handled
  | @response _ c req rest a mem oldest fits allowed handled =>
    obtain ⟨l,r,split⟩ := List.append_of_mem mem
    have phase := lock.phases c mem
    obtain ⟨c',absorbs,_⟩ := inPhaseAbsorbs phase oldest fits
    refine tickRounds lock split (responseMoves phase oldest fits allowed absorbs) ?_
    simpa only [Master.handle,Master.receiveAbsorbs a split lock.distinct,absorbs,Except.bind] using handled
  | @disconnect _ c mem allowed handled =>
    obtain ⟨l,r,split⟩ := List.append_of_mem mem
    cases (Except.ok.inj handled).symm.trans (slaveDisconnectedAt split lock.distinct)
    rw [Master.parts,split]
    have same : m = ⟨m.toControl,l ++ c :: r⟩ := by rw [← split]
    exact .disturb (.leave (same ▸ allowed))
  | @error _ c mem allowed handled =>
    cases Except.ok.inj handled
    exact .disturb (.fail mem allowed)

theorem roundsAddresses {K : Coupling} {E : Environment} {x y : Control × List FMIClient}
    (resting : x.1.state.resting = true) (phases : ∀ c ∈ x.2, InPhase x.1.state c)
    (step : Rounds.Step (rounds K E) x y) :
    y.2.map FMIClient.self = x.2.map FMIClient.self ∨ Disturbs E x.1 x.2 y.1 y.2 := by
  cases step with
  | @stay g l p q r moved _ => exact Or.inl (replaceAddresses (moveInPhase (phases p (by simp)) moved).2)
  | @turn g l p q r g' ps moved all turned =>
    left
    have inside := Rounds.moveKeepsAll (i := ()) (lockstepKept K E) resting phases moved
    obtain ⟨_,rfl,_⟩ := turnSource inside all turned
    rw [enteredAddresses,replaceAddresses (moveInPhase (phases p (by simp)) moved).2]
  | disturb disturbed => exact Or.inr disturbed

theorem stepLockstep {K : Coupling} {E : Environment} {m m' : Master} {e : Event} (lock : m.Lockstep)
    (step : Step K E m e m') : m'.Lockstep := by
  have round := stepRounds lock step
  obtain ⟨_,resting,phases⟩ := Rounds.stepKeeps (lockstepKept K E) ⟨(),lock.resting,lock.phases⟩ round
  refine ⟨?_,resting,phases⟩
  rcases roundsAddresses lock.resting lock.phases round with same | disturbed
  · rw [Master.addresses,show m'.slaves.map FMIClient.self = _ from same]
    exact lock.distinct
  · exact ((disturbedParties disturbed).2.map FMIClient.self).nodup lock.distinct

theorem runRounds {K : Coupling} {E : Environment} {m m' : Master} (lock : m.Lockstep) (run : Run K E m m') :
    m'.Lockstep ∧ Rounds.Run (rounds K E) m.parts m'.parts := by
  induction run with
  | refl => exact ⟨lock,.refl⟩
  | tail _ step ih =>
    obtain ⟨e,step⟩ := step
    exact ⟨stepLockstep ih.1 step,ih.2.tail (stepRounds ih.1 step)⟩

theorem reachLockstep {K : Coupling} {E : Environment} {m₀ m : Master} (configured : Master.Configured m₀)
    (run : Run K E m₀ m) : m.Lockstep :=
  (runRounds (freshLockstep (Master.configuredFresh configured)) run).1

inductive Master.Ticked (K : Coupling) (E : Environment) (m₀ : Master) : Master → Prop where
  | connect {m c m₁} (run : Run K E m₀ m) (mem : c ∈ m.slaves) (down : c.connected = false)
      (written : m.deref c.self (fun c => .ok {c with connected := true}) = .ok m₁) : Ticked K E m₀ m₁
  | response {m c r rest a m₁} (run : Run K E m₀ m) (mem : c ∈ m.slaves) (oldest : c.pending = r :: rest)
      (fits : a.answers r = true) (allowed : E.answers m.toControl c r a)
      (written : m.deref c.self (FMIClient.absorb m.state a) = .ok m₁) : Ticked K E m₀ m₁

theorem tickedMoves {K : Coupling} {E : Environment} {m₀ m₁ : Master} (configured : Master.Configured m₀)
    (ticked : Master.Ticked K E m₀ m₁) :
    ∃ m l p q r, Run K E m₀ m ∧ m.Lockstep ∧ m.slaves = l ++ p :: r ∧ moves E m.toControl p q ∧
      m₁ = {m with slaves := l ++ q :: r} := by
  cases ticked with
  | @connect m c _ run mem down written =>
    have lock := reachLockstep configured run
    obtain ⟨l,r,split⟩ := List.append_of_mem mem
    rw [Master.derefAt split lock.distinct] at written
    exact ⟨m,l,c,_,r,run,lock,split,connectMoves (lock.phases c mem) down,(Except.ok.inj written).symm⟩
  | @response m c req rest a _ run mem oldest fits allowed written =>
    have lock := reachLockstep configured run
    obtain ⟨l,r,split⟩ := List.append_of_mem mem
    obtain ⟨c',absorbs,_⟩ := inPhaseAbsorbs (lock.phases c mem) oldest fits
    rw [Master.derefAt split lock.distinct,absorbs] at written
    exact ⟨m,l,c,c',r,run,lock,split,responseMoves (lock.phases c mem) oldest fits allowed absorbs,
      (Except.ok.inj written).symm⟩

def Master.hearing (m : Master) (p : ClientPtr) (a : Response) : Master :=
  (m.deref p (FMIClient.absorb m.state a)).toOption.getD m

theorem hearingTicked {K : Coupling} {E : Environment} {m₀ m : Master} {p : ClientPtr} {a : Response}
    (run : Run K E m₀ m) (possible : m.possible (.response p a) = true) (allows : E.Allows m (.response p a))
    (ok : (m.deref p (FMIClient.absorb m.state a)).toOption.isSome = true) :
    Master.Ticked K E m₀ (m.hearing p a) := by
  obtain ⟨c,mem,rfl,r,rest,oldest,fits⟩ := Master.possibleResponse possible
  refine .response run mem oldest fits (allows c mem rfl r (by simp [oldest]) fits) ?_
  rw [Master.hearing]
  cases written : m.deref c.self (FMIClient.absorb m.state a) with
  | error f => simp [written,Except.toOption] at ok
  | ok m' => rfl

theorem movedLockstep {E : Environment} {m : Master} {l r : List FMIClient} {p q : FMIClient}
    (lock : m.Lockstep) (split : m.slaves = l ++ p :: r) (moved : moves E m.toControl p q) :
    Master.Lockstep {m with slaves := l ++ q :: r} := by
  have phases : ∀ c ∈ l ++ p :: r, InPhase m.state c := split ▸ lock.phases
  refine ⟨?_,lock.resting,
    Rounds.moveKeepsAll (i := ()) (lockstepKept (Coupling.source fun _ => []) E) lock.resting phases moved⟩
  rw [Master.addresses,replaceAddresses (moveInPhase (phases p (by simp)) moved).2,← split]
  exact lock.distinct

section Invariants
variable {ι : Type} {K : Coupling} {E : Environment} {J : ι → Control → Prop} {I : ι → Control → FMIClient → Prop}

theorem lockKeeps {m m' : Master} (lock : m.Lockstep)
    (keeps : Rounds.KeepsUnder (rounds K E) (fun g => g.state.resting = true) (fun g c => InPhase g.state c) J I)
    (holds : Rounds.Holds J I m.parts) (run : Run K E m m') : Rounds.Holds J I m'.parts := by
  obtain ⟨i,control,parties⟩ := holds
  obtain ⟨j,control',parties'⟩ := Rounds.runKeeps (Rounds.keepsBoth (lockstepKept K E) keeps)
    ⟨i,⟨lock.resting,control⟩,fun c mem => ⟨lock.phases c mem,parties c mem⟩⟩ (runRounds lock run).2
  exact ⟨j,control'.2,fun c mem => (parties' c mem).2⟩

theorem reachKeeps {m₀ m : Master} (configured : Master.Configured m₀)
    (keeps : Rounds.KeepsUnder (rounds K E) (fun g => g.state.resting = true) (fun g c => InPhase g.state c) J I)
    (holds : Rounds.Holds J I m₀.parts) (run : Run K E m₀ m) : Rounds.Holds J I m.parts :=
  lockKeeps (freshLockstep (Master.configuredFresh configured)) keeps holds run

theorem tickedKeeps {m₀ m₁ : Master} (configured : Master.Configured m₀)
    (keeps : Rounds.KeepsUnder (rounds K E) (fun g => g.state.resting = true) (fun g c => InPhase g.state c) J I)
    (holds : Rounds.Holds J I m₀.parts) (ticked : Master.Ticked K E m₀ m₁) : Rounds.Holds J I m₁.parts := by
  obtain ⟨m,l,p,q,r,run,lock,split,moved,rfl⟩ := tickedMoves configured ticked
  obtain ⟨i,control,parties⟩ := reachKeeps configured keeps holds run
  have both := Rounds.moveKeepsAll (Rounds.keepsBoth (lockstepKept K E) keeps) ⟨lock.resting,control⟩
    (fun c mem => ⟨lock.phases c (split ▸ mem),parties c (show c ∈ m.slaves from split ▸ mem)⟩) moved
  exact ⟨i,control,fun c mem => (both c mem).2⟩

theorem tickedLockstep {m₀ m₁ : Master} (configured : Master.Configured m₀) (ticked : Master.Ticked K E m₀ m₁) :
    m₁.Lockstep := by
  obtain ⟨m,l,p,q,r,_,lock,split,moved,rfl⟩ := tickedMoves configured ticked
  exact movedLockstep lock split moved

end Invariants

theorem finishedQueues {m : Master} (lock : m.Lockstep) (all : ∀ c ∈ m.slaves, m.toControl.finished c) :
    ∀ c ∈ m.slaves, c.Queue [] := fun c mem => (finishedIdle (lock.phases c mem) (all c mem)).2.2

theorem tickOk {K : Coupling} {m : Master} (lock : m.Lockstep)
    (within : m.state = .getStrongConnectorStates → Equation.within (m.equations K) m.addresses) :
    ∃ m', m.tick K = .ok m' := by
  by_cases all : ∀ c ∈ m.slaves, m.toControl.finished c
  · by_cases strong : m.state = .getStrongConnectorStates
    · have fetched := Master.fetchEnters lock.distinct (finishedQueues lock all) (within strong)
      exact ⟨_,(Master.tickFetches strong all).trans fetched⟩
    · unfold Master.tick
      cases at_ : m.state
      case getStrongConnectorStates => exact absurd at_ strong
      all_goals exact ⟨_,rfl⟩
  · exact ⟨m,Master.tickStays lock.resting all⟩

theorem handleTicks {K : Coupling} {m : Master} {e : Event} (lock : m.Lockstep) (possible : m.possible e = true) :
    (∃ m', m.handle K e = .ok m') ∨ ∃ m₁ : Master, m₁.Lockstep ∧ m₁.toControl = m.toControl ∧
      m₁.addresses = m.addresses ∧ m.handle K e = m₁.tick K := by
  have after : ∀ {l c q r}, m.slaves = l ++ c :: r → moves .anything m.toControl c q →
      Master.Lockstep {m with slaves := l ++ q :: r} ∧ Master.addresses {m with slaves := l ++ q :: r} = m.addresses := by
    intro l c q r split moved
    refine ⟨movedLockstep lock split moved,?_⟩
    rw [Master.addresses,Master.addresses,split]
    exact replaceAddresses (moveInPhase (lock.phases c (by simp [split])) moved).2
  cases e with
  | connect p =>
    obtain ⟨c,mem,rfl,down⟩ := Master.possibleConnect possible
    obtain ⟨l,r,split⟩ := List.append_of_mem mem
    obtain ⟨inside,same⟩ := after split (connectMoves (lock.phases c mem) down)
    exact Or.inr ⟨_,inside,rfl,same,by simp only [Master.handle,Master.derefAt split lock.distinct]; rfl⟩
  | response p a =>
    obtain ⟨c,mem,rfl,req,rest,oldest,fits⟩ := Master.possibleResponse possible
    obtain ⟨l,r,split⟩ := List.append_of_mem mem
    obtain ⟨c',absorbs,_⟩ := inPhaseAbsorbs (lock.phases c mem) oldest fits
    obtain ⟨inside,same⟩ := after split (responseMoves (lock.phases c mem) oldest fits trivial absorbs)
    refine Or.inr ⟨_,inside,rfl,same,?_⟩
    simp only [Master.handle,Master.receiveAbsorbs a split lock.distinct,absorbs,Except.bind]
  | disconnect p => exact Or.inl ⟨_,rfl⟩
  | error p => exact Or.inl ⟨_,rfl⟩

theorem handled {K : Coupling} {m : Master} {e : Event} (lock : m.Lockstep) (possible : m.possible e = true)
    (within : m.state = .getStrongConnectorStates → ∀ m', m'.addresses = m.addresses →
      m'.constraints = m.constraints → Equation.within (K.getEquations m') m.addresses) :
    ∃ m', m.handle K e = .ok m' := by
  rcases handleTicks (K := K) lock possible with done | ⟨m₁,lock₁,control,same,ticks⟩
  · exact done
  · have state : m₁.state = m.state := congrArg Control.state control
    have constraints : m₁.constraints = m.constraints := congrArg Control.constraints control
    obtain ⟨m',ok⟩ := tickOk (K := K) lock₁ fun strong => by
      rw [same]
      exact within (state ▸ strong) (m₁.setState .gettingDirectionalDerivatives) same constraints
    exact ⟨m',ticks.trans ok⟩

end FmiTcpMaster
