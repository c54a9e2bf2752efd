import FmiTcpMaster.Answer
import FmiTcpMaster.Rounds

/-! The lock-step discipline. In each phase a slave has either one open request, of the type
that belongs to the phase, or none and the state the phase waits for. The master with its
slaves is a system of rounds: slaves move on their own, tick() turns the round. -/
namespace FmiTcpMaster

inductive InPhase : MasterState → FMIClient → Prop where
  | connecting {c} (answered : c.answered = []) (pending : c.pending = []) (queue : c.Queue []) :
      InPhase .connectingSlaves c
  | asked {s c r q} (connected : c.connected = true) (asks : s.asks r = true) (pending : c.pending = [r])
      (state : s.waiting = some c.state) (queue : c.Queue q)
      (short : s ≠ .gettingDirectionalDerivatives → q = [])
      (reads : s = .getStrongConnectorStates ∨ s = .gettingFutureVelo →
        r = .getReal c.getStrongConnectorValueReferences) : InPhase s c
  | finished {s c} (connected : c.connected = true) (pending : c.pending = [])
      (state : s.awaited = some c.state) (queue : c.Queue []) : InPhase s c
  | ended {c} (connected : c.connected = true) (pending : c.pending = []) (queue : c.Queue []) : InPhase .done c

def FMIClient.updatedConnectors (phase : MasterState) (a : Response) (c : FMIClient) : List StrongConnector :=
  match phase, a with
  | .getStrongConnectorStates, .getReal values _ =>
    c.strongConnectors.map (·.assignValues (c.getStrongConnectorValueReferences.zip values))
  | .gettingFutureVelo, .getReal values _ =>
    c.strongConnectors.map (·.assignFutureValues (c.getStrongSeedOutputValueReferences.zip values))
  | _, _ => c.strongConnectors

structure Absorbed (phase : MasterState) (r : Request) (a : Response) (c c' : FMIClient) : Prop where
  self : c'.self = c.self
  connected : c'.connected = c.connected
  answered : c'.answered = c.answered ++ [⟨r,a⟩]
  initialized : c'.initialized = true → c.initialized = true ∨ phase = .initializingSlaves
  connectors : c'.strongConnectors = c.updatedConnectors phase a
  rest : (c.Queue [] ∧ c'.pending = [] ∧ phase.awaited = some c'.state ∧ c'.Queue []) ∨
    (phase = .gettingDirectionalDerivatives ∧ ∃ q d, c.Queue (q ++ [d]) ∧
      c'.pending = [.getDirectionalDerivative d] ∧ c'.state = c.state ∧ c'.Queue q)

theorem deliverOldest {c : FMIClient} {r : Request} {a : Response} (pending : c.pending = [r])
    (fits : a.answers r = true) : c.deliver a = {c with answered := c.answered ++ [⟨r,a⟩], pending := []} := by
  simp [FMIClient.deliver,pending,fits]

theorem setValuesAll {c : FMIClient} {refs : List Int} {values : List ℚ} (same : refs.length = values.length) :
    c.setConnectorValues refs values =
      .ok {c with strongConnectors := c.strongConnectors.map (·.assignValues (refs.zip values))} := by
  have all : c.strongConnectors.mapM (·.setValues refs values) =
    .ok (c.strongConnectors.map (·.assignValues (refs.zip values))) := Keyed.mapMOk fun _ _ => if_pos same
  simp only [FMIClient.setConnectorValues,all,bind,Except.bind]

theorem setFutureValuesAll {c : FMIClient} {refs : List Int} {values : List ℚ} (same : refs.length = values.length) :
    c.setConnectorFutureVelocities refs values =
      .ok {c with strongConnectors := c.strongConnectors.map (·.assignFutureValues (refs.zip values))} := by
  have all : c.strongConnectors.mapM (·.setFutureValues refs values) =
    .ok (c.strongConnectors.map (·.assignFutureValues (refs.zip values))) := Keyed.mapMOk fun _ _ => if_pos same
  simp only [FMIClient.setConnectorFutureVelocities,all,bind,Except.bind]

theorem waitingNotAwaited {s : MasterState} {w : FMIClientState} (waiting : s.waiting = some w) :
    s.awaited ≠ some w := by
  cases s <;> simp only [MasterState.waiting,reduceCtorEq,Option.some.injEq] at waiting <;> subst waiting <;> decide

theorem absorbPlain {s : MasterState} {c : FMIClient} {r : Request} {a : Response} (asks : s.asks r = true)
    (pending : c.pending = [r]) (fits : a.answers r = true) (queue : c.Queue [])
    (other : s ≠ .gettingDirectionalDerivatives)
    (reads : s = .getStrongConnectorStates ∨ s = .gettingFutureVelo →
      r = .getReal c.getStrongConnectorValueReferences) :
    ∃ c', c.absorb s a = .ok c' ∧ Absorbed s r a c c' := by
  have delivered := deliverOldest pending fits
  have outcome : ∀ c' : FMIClient, c'.self = c.self → c'.connected = c.connected →
      c'.answered = c.answered ++ [⟨r,a⟩] → (c'.initialized = true → c.initialized = true ∨ s = .initializingSlaves) →
      c'.strongConnectors = c.updatedConnectors s a → c'.pending = [] → s.awaited = some c'.state →
      c'.Queue [] → Absorbed s r a c c' := fun c' self connected answered initialized connectors p state q =>
    ⟨self,connected,answered,initialized,connectors,Or.inl ⟨queue,p,state,q⟩⟩
  have empty : ∀ {c' : FMIClient}, c'.ddVRefs = c.ddVRefs → c'.ddZRefs = c.ddZRefs → c'.ddDvs = c.ddDvs → c'.Queue [] :=
    fun v z d => ⟨v.trans queue.vRefs,z.trans queue.zRefs,d.trans queue.dvs⟩
  cases s <;> cases r <;> simp only [MasterState.asks,Bool.false_eq_true] at asks <;> cases a <;>
    simp only [Response.answers,Bool.false_eq_true] at fits
  case getStrongConnectorStates.getReal.getReal refs values status =>
    cases reads (Or.inl rfl)
    have lengths := (beq_iff_eq.mp fits).symm
    simp only [FMIClient.absorb,delivered]
    exact ⟨_,setValuesAll lengths,outcome _ rfl rfl rfl Or.inl rfl rfl rfl (empty rfl rfl rfl)⟩
  case gettingFutureVelo.getReal.getReal refs values status =>
    cases reads (Or.inr rfl)
    have lengths := (beq_iff_eq.mp fits).symm
    simp only [FMIClient.absorb,delivered]
    exact ⟨_,setFutureValuesAll lengths,outcome _ rfl rfl rfl Or.inl rfl rfl rfl (empty rfl rfl rfl)⟩
  case gettingDirectionalDerivatives.getDirectionalDerivative.getDirectionalDerivative => exact absurd rfl other
  case initializingSlaves.initializeSlave.initializeSlave =>
    simp only [FMIClient.absorb,delivered]
    exact ⟨_,rfl,outcome _ rfl rfl rfl (fun _ => Or.inr rfl) rfl rfl rfl (empty rfl rfl rfl)⟩
  all_goals
    simp only [FMIClient.absorb,delivered]
    exact ⟨_,rfl,outcome _ rfl rfl rfl Or.inl rfl rfl rfl (empty rfl rfl rfl)⟩

theorem absorbDerivative {c : FMIClient} {r : Request} {a : Response} {q : List DerivativeRequest}
    (asks : MasterState.asks .gettingDirectionalDerivatives r = true)
    (pending : c.pending = [r]) (fits : a.answers r = true) (queue : c.Queue q) :
    ∃ c', c.absorb .gettingDirectionalDerivatives a = .ok c' ∧
      Absorbed .gettingDirectionalDerivatives r a c c' := by
  have delivered := deliverOldest pending fits
  cases r <;> simp only [MasterState.asks,Bool.false_eq_true] at asks
  cases a <;> simp only [Response.answers,Bool.false_eq_true] at fits
  rename_i d dz status
  obtain ⟨counted,same⟩ : ∃ c₁ : FMIClient, c₁ = {c with
      answered := c.answered ++ [⟨.getDirectionalDerivative d,.getDirectionalDerivative dz status⟩]
      pending := []
      numDirectionalDerivativesLeft := c.numDirectionalDerivativesLeft-1} := ⟨_,rfl⟩
  have absorbs : c.absorb .gettingDirectionalDerivatives (.getDirectionalDerivative dz status) =
      if counted.numDirectionalDerivativeRequests = 0 then
        .ok {counted with state := .doneDirectionalDerivatives}
      else counted.shiftExecuteDirectionalDerivativeRequest := by
    rw [same]
    simp only [FMIClient.absorb,delivered]
  have queued : counted.Queue q := by rw [same]; exact ⟨queue.vRefs,queue.zRefs,queue.dvs⟩
  rw [absorbs,FMIClient.queueLength queued]
  rcases List.eq_nil_or_concat' q with none | ⟨rest,e,some⟩
  · subst none
    refine ⟨_,if_pos rfl,?_⟩
    rw [same]
    exact ⟨rfl,rfl,rfl,Or.inl,rfl,Or.inl ⟨queue,rfl,rfl,queue.vRefs,queue.zRefs,queue.dvs⟩⟩
  · subst some
    rw [if_neg (by simp),FMIClient.shiftQueue queued]
    refine ⟨_,rfl,?_⟩
    rw [same]
    exact ⟨rfl,rfl,rfl,Or.inl,rfl,Or.inr ⟨rfl,rest,e,queue,rfl,rfl,rfl,rfl,rfl⟩⟩

theorem inPhaseOpen {s : MasterState} {c : FMIClient} {r : Request} {rest : List Request} (phase : InPhase s c)
    (oldest : c.pending = r :: rest) : c.pending = [r] ∧ c.connected = true ∧ s.asks r = true ∧
    s.waiting = some c.state ∧ (∃ q, c.Queue q ∧ (s ≠ .gettingDirectionalDerivatives → q = [])) ∧
    (s = .getStrongConnectorStates ∨ s = .gettingFutureVelo → r = .getReal c.getStrongConnectorValueReferences) := by
  cases phase with
  | connecting _ pending _ => simp [pending] at oldest
  | finished _ pending _ _ => simp [pending] at oldest
  | ended _ pending _ => simp [pending] at oldest
  | asked connected asks pending state queue short reads =>
    cases pending.symm.trans oldest
    exact ⟨pending,connected,asks,state,⟨_,queue,short⟩,reads⟩

theorem inPhaseAbsorbs {s : MasterState} {c : FMIClient} {r : Request} {rest : List Request} {a : Response}
    (phase : InPhase s c) (oldest : c.pending = r :: rest) (fits : a.answers r = true) :
    ∃ c', c.absorb s a = .ok c' ∧ Absorbed s r a c c' := by
  obtain ⟨pending,_,asks,_,⟨q,queue,short⟩,reads⟩ := inPhaseOpen phase oldest
  by_cases derivatives : s = .gettingDirectionalDerivatives
  · subst derivatives
    exact absorbDerivative asks pending fits queue
  · rw [short derivatives] at queue
    exact absorbPlain asks pending fits queue derivatives reads

theorem inPhaseOldest {s : MasterState} {c : FMIClient} {r : Request} {rest : List Request} (phase : InPhase s c)
    (oldest : c.pending = r :: rest) : c.pending = [r] ∧ s.asks r = true ∧
    (s = .getStrongConnectorStates ∨ s = .gettingFutureVelo → r = .getReal c.getStrongConnectorValueReferences) := by
  obtain ⟨pending,_,asks,_,_,reads⟩ := inPhaseOpen phase oldest
  exact ⟨pending,asks,reads⟩

theorem absorbedInPhase {s : MasterState} {c c' : FMIClient} {r : Request} {rest : List Request} {a : Response}
    (phase : InPhase s c) (oldest : c.pending = r :: rest) (absorbed : Absorbed s r a c c') : InPhase s c' := by
  obtain ⟨_,connected,_,state,_⟩ := inPhaseOpen phase oldest
  have up := absorbed.connected.trans connected
  rcases absorbed.rest with ⟨_,pending,done,queue⟩ | ⟨rfl,q,d,_,pending,same,queue⟩
  · exact .finished up pending done queue
  · exact .asked up rfl pending (same.symm ▸ state) queue (fun other => absurd rfl other)
      fun wrong => by rcases wrong with h | h <;> cases h

theorem finishedIdle {g : Control} {c : FMIClient} (phase : InPhase g.state c) (done : g.finished c) :
    c.connected = true ∧ c.pending = [] ∧ c.Queue [] := by
  generalize at_ : g.state = s at phase
  cases phase with
  | connecting _ pending queue =>
    simp only [Control.finished,at_] at done
    exact ⟨done,pending,queue⟩
  | asked _ _ _ state _ _ _ =>
    have other : s ≠ .connectingSlaves := by rintro rfl; simp [MasterState.waiting] at state
    have awaited : s.awaited = some c.state := by
      unfold Control.finished at done
      split at done
      · rename_i connecting
        exact absurd (at_.symm.trans connecting) other
      · exact at_ ▸ done
    exact absurd awaited (waitingNotAwaited state)
  | finished connected pending _ queue => exact ⟨connected,pending,queue⟩
  | ended connected pending queue => exact ⟨connected,pending,queue⟩

def moves (E : Environment) (g : Control) (c c' : FMIClient) : Prop :=
  ¬ g.finished c ∧
  ((g.state = .connectingSlaves ∧ c' = {c with connected := true}) ∨
   (g.state ≠ .connectingSlaves ∧ ∃ r rest a, c.pending = r :: rest ∧ a.answers r = true ∧
     E.answers g c r a ∧ c.absorb g.state a = .ok c'))

def turns (K : Coupling) (g : Control) (ps : List FMIClient) (g' : Control) (ps' : List FMIClient) : Prop :=
  (g.state = .connectingSlaves ∨ g.state.awaited.isSome = true) ∧ (ps.map FMIClient.self).Nodup ∧
  Master.tick K ⟨g,ps⟩ = .ok ⟨g',ps'⟩

inductive Disturbs (E : Environment) : Control → List FMIClient → Control → List FMIClient → Prop where
  | leave {g l c r} (allowed : E.leaves ⟨g,l ++ c :: r⟩ c) :
      Disturbs E g (l ++ c :: r) (if l ++ r = [] then {g with exits := g.exits+1} else g) (l ++ r)
  | fail {g ps c} (mem : c ∈ ps) (allowed : E.fails ⟨g,ps⟩ c) : Disturbs E g ps {g with exits := g.exits+1} ps

def rounds (K : Coupling) (E : Environment) : Rounds.System Control FMIClient :=
  ⟨Control.finished,moves E,turns K,Disturbs E⟩

def entered (K : Coupling) (g : Control) (ps : List FMIClient) (c : FMIClient) : FMIClient :=
  if g.state = .getStrongConnectorStates then K.derive (Master.equations K ⟨g,ps⟩) c else g.enter c

theorem turnSource {K : Coupling} {g : Control} {ps : List FMIClient} {g' : Control} {ps' : List FMIClient}
    (phases : ∀ c ∈ ps, InPhase g.state c) (all : ∀ c ∈ ps, g.finished c) (turned : turns K g ps g' ps') :
    g' = g.advance ∧ ps' = ps.map (entered K g ps) ∧
      (g.state = .getStrongConnectorStates → Equation.within (Master.equations K ⟨g,ps⟩) (ps.map FMIClient.self)) := by
  obtain ⟨phase,distinct,ticked⟩ := turned
  by_cases strong : g.state = .getStrongConnectorStates
  · have queues : ∀ c ∈ ps, c.Queue [] := fun c mem => (finishedIdle (phases c mem) (all c mem)).2.2
    have fetch := (Master.tickFetches (m := ⟨g,ps⟩) strong all).symm.trans ticked
    obtain ⟨within,same⟩ := Master.fetchSource (m := ⟨g,ps⟩) distinct queues fetch
    have next : g.next = .gettingDirectionalDerivatives := by rw [Control.next,strong]
    have enters : entered K g ps = K.derive (Master.equations K ⟨g,ps⟩) := funext fun c => if_pos strong
    rw [advanceOther next (by decide) (by decide),enters]
    cases same
    exact ⟨rfl,rfl,fun _ => within⟩
  · have enters : entered K g ps = g.enter := funext fun c => if_neg strong
    rw [Master.tickEnters phase all strong] at ticked
    rw [enters]
    cases Except.ok.inj ticked
    exact ⟨rfl,rfl,fun h => absurd h strong⟩

theorem requestAsks {g : Control} {s : MasterState} {c : FMIClient} {r : Request} (request : g.request s c = some r) :
    s.asks r = true ∧ (s = .getStrongConnectorStates ∨ s = .gettingFutureVelo →
      r = .getReal c.getStrongConnectorValueReferences) := by
  cases s <;> simp only [Control.request,Option.some.injEq,reduceCtorEq] at request <;> subst request <;>
    (simp [MasterState.asks]; try rfl)

theorem requestOrDone {g : Control} {s : MasterState} (resting : s.resting = true) (other : s ≠ .connectingSlaves)
    (notDerivative : s ≠ .gettingDirectionalDerivatives) (c : FMIClient) :
    s = .done ∨ ∃ r w, g.request s c = some r ∧ s.waiting = some w := by
  cases s <;> simp only [MasterState.resting,Bool.false_eq_true,ne_eq,not_true_eq_false] at resting other notDerivative
  case done => exact Or.inl rfl
  all_goals exact Or.inr ⟨_,_,rfl,rfl⟩

theorem nextResting {g : Control} (resting : g.state.resting = true) :
    g.next.resting = true ∧ g.next ≠ .connectingSlaves := by
  have either : ∀ {b : Prop} [Decidable b] {s t : MasterState}, (s.resting = true ∧ s ≠ .connectingSlaves) →
      (t.resting = true ∧ t ≠ .connectingSlaves) →
      ((if b then s else t).resting = true ∧ (if b then s else t) ≠ .connectingSlaves) := by
    intro b _ s t left right
    split
    · exact left
    · exact right
  have head : g.loopHead.resting = true ∧ g.loopHead ≠ .connectingSlaves :=
    either (by decide) (either (by decide) (by decide))
  unfold Control.next
  cases at_ : g.state <;> simp only [at_,MasterState.resting,Bool.false_eq_true] at resting
  case initializingSlaves => exact head
  case settingStrongCouplingForces => exact either (by decide) (by decide)
  case steppingSlaves => exact either head (by decide)
  all_goals exact ⟨by simp only [MasterState.resting],by simp only [ne_eq,reduceCtorEq,not_false_eq_true]⟩

theorem nextDerivative {g : Control} (other : g.state ≠ .getStrongConnectorStates) : g.next ≠ .gettingDirectionalDerivatives := by
  intro derivative
  unfold Control.next Control.loopHead at derivative
  cases at_ : g.state <;> simp only [at_,reduceCtorEq] at derivative <;> try contradiction
  all_goals (repeat' split at derivative) <;> contradiction

theorem enterInPhase {g : Control} {c : FMIClient} (resting : g.state.resting = true)
    (other : g.state ≠ .getStrongConnectorStates) (idle : c.connected = true ∧ c.pending = [] ∧ c.Queue []) :
    InPhase g.next (g.enter c) := by
  obtain ⟨connected,pending,queue⟩ := idle
  obtain ⟨restingNext,started⟩ := nextResting resting
  have notDerivative := nextDerivative other
  rcases requestOrDone (g := g) restingNext started notDerivative c with done | ⟨r,w,request,waiting⟩
  · have enters : g.enter c = c := by simp only [Control.enter,done,Control.request]
    rw [done,enters]
    exact .ended connected pending queue
  · obtain ⟨asks,reads⟩ := requestAsks request
    have enters : g.enter c = FMIClient.send {c with state := w} r := by simp only [Control.enter,request,waiting]
    rw [enters]
    exact .asked connected asks (by simp [FMIClient.send,pending]) waiting
      ⟨queue.vRefs,queue.zRefs,queue.dvs⟩ (fun _ => rfl) reads

theorem deriveInPhase (K : Coupling) (eqs : List Equation) {c : FMIClient}
    (idle : c.connected = true ∧ c.pending = [] ∧ c.Queue []) :
    InPhase .gettingDirectionalDerivatives (K.derive eqs c) := by
  obtain ⟨connected,pending,queue⟩ := idle
  rcases List.eq_nil_or_concat' (K.pushed eqs c.self) with none | ⟨q,d,some⟩
  · rw [deriveNone none]
    exact .finished connected pending rfl ⟨queue.vRefs,queue.zRefs,queue.dvs⟩
  · rw [deriveSome some]
    exact .asked (r := .getDirectionalDerivative d) connected rfl
      (by simp [FMIClient.send,FMIClient.withQueue,pending]) rfl ⟨rfl,rfl,rfl⟩
      (fun other => absurd rfl other) fun wrong => by rcases wrong with h | h <;> cases h

theorem enteredInPhase {K : Coupling} {g : Control} {ps : List FMIClient} {c : FMIClient}
    (resting : g.state.resting = true) (phase : InPhase g.state c) (done : g.finished c) :
    InPhase g.next (entered K g ps c) := by
  have idle := finishedIdle phase done
  unfold entered
  split
  · rename_i strong
    rw [Control.next,strong]
    exact deriveInPhase K _ idle
  · rename_i other
    exact enterInPhase resting other idle

structure Kept (c c' : FMIClient) : Prop where
  self : c'.self = c.self
  answered : c'.answered = c.answered
  initialized : c'.initialized = c.initialized
  connectors : c'.strongConnectors = c.strongConnectors

theorem deriveKept (K : Coupling) (eqs : List Equation) (c : FMIClient) : Kept c (K.derive eqs c) := by
  rcases List.eq_nil_or_concat' (K.pushed eqs c.self) with none | ⟨q,d,some⟩
  · rw [deriveNone none]
    exact ⟨rfl,rfl,rfl,rfl⟩
  · rw [deriveSome some]
    exact ⟨rfl,rfl,rfl,rfl⟩

theorem enteredKept (K : Coupling) (g : Control) (ps : List FMIClient) (c : FMIClient) : Kept c (entered K g ps c) := by
  unfold entered
  split
  · exact deriveKept K _ c
  · unfold Control.enter
    split <;> exact ⟨rfl,rfl,rfl,rfl⟩

theorem disturbedParties {E : Environment} {g g' : Control} {ps ps' : List FMIClient}
    (disturbed : Disturbs E g ps g' ps') :
    (∃ n, g' = {g with exits := n}) ∧ ps'.Sublist ps := by
  cases disturbed with
  | @leave l c r allowed =>
    refine ⟨?_,List.Sublist.append_left (List.sublist_cons_self c r) l⟩
    split
    · exact ⟨_,rfl⟩
    · exact ⟨g.exits,rfl⟩
  | fail => exact ⟨⟨_,rfl⟩,List.Sublist.refl _⟩

structure Reply (E : Environment) (g : Control) (r : Request) (a : Response) (c c' : FMIClient) : Prop where
  begun : g.state ≠ .connectingSlaves
  pending : c.pending = [r]
  asks : g.state.asks r = true
  reads : g.state = .getStrongConnectorStates ∨ g.state = .gettingFutureVelo →
    r = .getReal c.getStrongConnectorValueReferences
  fits : a.answers r = true
  allowed : E.answers g c r a
  absorbed : Absorbed g.state r a c c'

theorem moveCases {E : Environment} {g : Control} {c c' : FMIClient} (phase : InPhase g.state c)
    (moved : moves E g c c') :
    (g.state = .connectingSlaves ∧ c' = {c with connected := true}) ∨ ∃ r a, Reply E g r a c c' := by
  rcases moved.2 with connects | ⟨begun,r,rest,a,oldest,fits,allowed,ok⟩
  · exact Or.inl connects
  · obtain ⟨c₁,absorbs,absorbed⟩ := inPhaseAbsorbs phase oldest fits
    cases Except.ok.inj (absorbs.symm.trans ok)
    obtain ⟨pending,asks,reads⟩ := inPhaseOldest phase oldest
    exact Or.inr ⟨r,a,begun,pending,asks,reads,fits,allowed,absorbed⟩

theorem moveInPhase {E : Environment} {g : Control} {c c' : FMIClient} (phase : InPhase g.state c)
    (moved : moves E g c c') : InPhase g.state c' ∧ c'.self = c.self := by
  rcases moveCases phase moved with ⟨connecting,rfl⟩ | ⟨r,a,reply⟩
  · rw [connecting] at phase ⊢
    cases phase with
    | connecting answered pending queue =>
      exact ⟨.connecting answered pending ⟨queue.vRefs,queue.zRefs,queue.dvs⟩,rfl⟩
    | asked _ asks => simp [MasterState.asks] at asks
    | finished _ _ state => simp [MasterState.awaited] at state
  · exact ⟨absorbedInPhase phase reply.pending reply.absorbed,reply.absorbed.self⟩

section Obligations
variable {ι : Type} {J : ι → Control → Prop} {I : ι → Control → FMIClient → Prop}

theorem turnHolds {K : Coupling} {g g' : Control} {ps ps' : List FMIClient} (i : ι)
    (phases : ∀ c ∈ ps, InPhase g.state c) (all : ∀ c ∈ ps, g.finished c) (turned : turns K g ps g' ps')
    (control : J i g.advance) (parties : ∀ c ∈ ps, I i g.advance (entered K g ps c)) : Rounds.Holds J I (g',ps') := by
  obtain ⟨rfl,rfl,_⟩ := turnSource phases all turned
  refine ⟨i,control,fun c mem => ?_⟩
  obtain ⟨c₀,mem₀,rfl⟩ := List.mem_map.mp mem
  exact parties c₀ mem₀

theorem disturbHolds {E : Environment} {g g' : Control} {ps ps' : List FMIClient} (i : ι)
    (disturbed : Disturbs E g ps g' ps') (control : ∀ n, J i {g with exits := n})
    (parties : ∀ n, ∀ c ∈ ps, I i {g with exits := n} c) : Rounds.Holds J I (g',ps') := by
  obtain ⟨⟨n,rfl⟩,sub⟩ := disturbedParties disturbed
  exact ⟨i,control n,fun c mem => parties n c (sub.subset mem)⟩

end Obligations

theorem lockstepKept (K : Coupling) (E : Environment) :
    Rounds.Keeps (rounds K E) (fun _ : Unit => fun g => g.state.resting = true) fun _ g c => InPhase g.state c where
  move _ phase moved := (moveInPhase phase moved).1
  turn resting phases all turned := turnHolds () phases all turned (nextResting resting).1 fun c mem =>
    enteredInPhase resting (phases c mem) (all c mem)
  disturb resting phases disturbed := disturbHolds () disturbed (fun _ => resting) fun _ => phases

end FmiTcpMaster
