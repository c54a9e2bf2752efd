import FmiTcpMaster.Phases

/-! Entry to the derivative phase. The loop over the equations pushes to any two clients in
any order; for one client only the triples pushed for it count. -/
namespace FmiTcpMaster

/- The triples pushed for one client, in the order of the equations, A before B. -/
def Coupling.pushed (K : Coupling) (eqs : List Equation) (p : ClientPtr) : List DerivativeRequest :=
  eqs.flatMap fun e =>
    (if e.connA = p then [K.requestA e] else []) ++ (if e.connB = p then [K.requestB e] else [])

def Equation.within (eqs : List Equation) (ps : List ClientPtr) : Prop :=
  ∀ e ∈ eqs, e.connA ∈ ps ∧ e.connB ∈ ps

instance (eqs : List Equation) (ps : List ClientPtr) : Decidable (Equation.within eqs ps) :=
  inferInstanceAs (Decidable (∀ e ∈ eqs, e.connA ∈ ps ∧ e.connB ∈ ps))

namespace FMIClient

structure Queue (c : FMIClient) (q : List DerivativeRequest) : Prop where
  vRefs : c.ddVRefs = q.map DerivativeRequest.vRef
  zRefs : c.ddZRefs = q.map DerivativeRequest.zRef
  dvs : c.ddDvs = q.map DerivativeRequest.dv

def withQueue (c : FMIClient) (q : List DerivativeRequest) : FMIClient :=
  {c with
    ddVRefs := q.map DerivativeRequest.vRef
    ddZRefs := q.map DerivativeRequest.zRef
    ddDvs := q.map DerivativeRequest.dv}

theorem queueWith {c : FMIClient} {q : List DerivativeRequest} (queue : c.Queue q) : c.withQueue q = c := by
  cases c
  obtain ⟨v,z,d⟩ := queue
  simp_all [withQueue]

theorem withQueueQueue (c : FMIClient) (q : List DerivativeRequest) : (c.withQueue q).Queue q := ⟨rfl,rfl,rfl⟩

theorem queueLength {c : FMIClient} {q : List DerivativeRequest} (queue : c.Queue q) :
    c.numDirectionalDerivativeRequests = q.length := by
  rw [numDirectionalDerivativeRequests,queue.vRefs,List.length_map]

theorem queueUnique {c : FMIClient} {q q' : List DerivativeRequest} (left : c.Queue q) (right : c.Queue q') :
    q = q' := by
  have v := left.vRefs.symm.trans right.vRefs
  have z := left.zRefs.symm.trans right.zRefs
  have d := left.dvs.symm.trans right.dvs
  refine List.ext_getElem? fun n => ?_
  have vn := congrArg (·[n]?) v
  have zn := congrArg (·[n]?) z
  have dn := congrArg (·[n]?) d
  simp only [List.getElem?_map] at vn zn dn
  cases hq : q[n]? with
  | none => cases hq' : q'[n]? with
    | none => rfl
    | some b => simp [hq,hq'] at vn
  | some a => cases hq' : q'[n]? with
    | none => simp [hq,hq'] at vn
    | some b =>
      simp only [hq,hq',Option.map_some,Option.some.injEq] at vn zn dn
      cases a; cases b
      simp_all

theorem shiftQueue {c : FMIClient} {q : List DerivativeRequest} {d : DerivativeRequest} (queue : c.Queue (q ++ [d])) :
    c.shiftExecuteDirectionalDerivativeRequest = .ok ((c.withQueue q).send (.getDirectionalDerivative d)) := by
  simp [shiftExecuteDirectionalDerivativeRequest,withQueue,queue.vRefs,queue.zRefs,queue.dvs]

end FMIClient

def Coupling.derive (K : Coupling) (eqs : List Equation) (c : FMIClient) : FMIClient :=
  let q := K.pushed eqs c.self
  match q.getLast? with
  | none => {c with numDirectionalDerivativesLeft := 0, state := .doneDirectionalDerivatives}
  | some d =>
    (FMIClient.withQueue {c with numDirectionalDerivativesLeft := 0, state := .waitingDirectionalDerivatives}
      q.dropLast).send (.getDirectionalDerivative d)

theorem deriveNone {K : Coupling} {eqs : List Equation} {c : FMIClient} (none : K.pushed eqs c.self = []) :
    K.derive eqs c = {c with numDirectionalDerivativesLeft := 0, state := .doneDirectionalDerivatives} := by
  simp [Coupling.derive,none]

theorem deriveSome {K : Coupling} {eqs : List Equation} {c : FMIClient} {q : List DerivativeRequest}
    {d : DerivativeRequest} (some : K.pushed eqs c.self = q ++ [d]) :
    K.derive eqs c =
      (FMIClient.withQueue {c with numDirectionalDerivativesLeft := 0, state := .waitingDirectionalDerivatives} q).send
        (.getDirectionalDerivative d) := by
  simp [Coupling.derive,some]

namespace Master

theorem derefMap {m : Master} {p : ClientPtr} {f : FMIClient → FMIClient} (distinct : m.addresses.Nodup)
    (present : p ∈ m.addresses) :
    m.deref p (fun c => .ok (f c)) = .ok {m with slaves := m.slaves.map fun c => if c.self = p then f c else c} := by
  simp only [deref,Keyed.updateMap FMIClient.self distinct present]
  rfl

theorem derefMissing {m : Master} {p : ClientPtr} {f : FMIClient → Except Fault FMIClient}
    (absent : p ∉ m.addresses) : m.deref p f = .error .deletedClient := by
  simp only [deref,Keyed.updateMissing FMIClient.self absent]
  rfl

def pushAll (K : Coupling) (eqs : List Equation) (c : FMIClient) : FMIClient :=
  FMIClient.withQueue {c with
    state := if K.pushed eqs c.self = [] then c.state else .waitingDirectionalDerivatives
    numDirectionalDerivativesLeft := 0} (K.pushed eqs c.self)

theorem pushAllAddresses (K : Coupling) (eqs : List Equation) (g : Control) (ps : List FMIClient) :
    addresses ⟨g,ps.map (pushAll K eqs)⟩ = ps.map FMIClient.self := by
  rw [addresses,List.map_map]
  rfl

theorem pushedSnoc (K : Coupling) (eqs : List Equation) (e : Equation) (p : ClientPtr) :
    K.pushed (eqs ++ [e]) p = K.pushed eqs p ++
      ((if e.connA = p then [K.requestA e] else []) ++ (if e.connB = p then [K.requestB e] else [])) := by
  simp [Coupling.pushed]

theorem derefKept {g : Control} {ps qs : List FMIClient} {p : ClientPtr} {f : FMIClient → FMIClient}
    (self : ∀ c, (f c).self = c.self) (distinct : (ps.map FMIClient.self).Nodup)
    (same : qs.map FMIClient.self = ps.map FMIClient.self) (present : p ∈ ps.map FMIClient.self) :
    deref ⟨g,qs⟩ p (fun c => .ok (f c)) = .ok ⟨g,qs.map fun c => if c.self = p then f c else c⟩ ∧
    (qs.map fun c => if c.self = p then f c else c).map FMIClient.self = ps.map FMIClient.self := by
  refine ⟨derefMap (by rw [addresses,same]; exact distinct) (by rw [addresses,same]; exact present),?_⟩
  rw [List.map_map,← same]
  refine List.map_congr_left fun c _ => ?_
  simp only [Function.comp]
  split
  · exact self c
  · rfl

theorem derefLost {g : Control} {ps qs : List FMIClient} {p : ClientPtr} {f : FMIClient → Except Fault FMIClient}
    (same : qs.map FMIClient.self = ps.map FMIClient.self) (absent : p ∉ ps.map FMIClient.self) :
    deref ⟨g,qs⟩ p f = .error .deletedClient :=
  derefMissing (by rw [addresses,same]; exact absent)

theorem pushEquationAll {K : Coupling} {g : Control} {ps : List FMIClient} {eqs : List Equation} {e : Equation}
    (distinct : (ps.map FMIClient.self).Nodup) (a : e.connA ∈ ps.map FMIClient.self)
    (b : e.connB ∈ ps.map FMIClient.self) :
    pushEquation K ⟨g,ps.map (pushAll K eqs)⟩ e = .ok ⟨g,ps.map (pushAll K (eqs ++ [e]))⟩ := by
  have mark : ∀ c : FMIClient, FMIClient.self {c with state := .waitingDirectionalDerivatives} = c.self := fun _ => rfl
  have push : ∀ d (c : FMIClient), (c.pushDirectionalDerivativeRequest d).self = c.self := fun _ _ => rfl
  obtain ⟨one,after⟩ := derefKept (g := g) mark distinct (pushAllAddresses K eqs g ps) b
  obtain ⟨two,after⟩ := derefKept (g := g) mark distinct after a
  obtain ⟨three,after⟩ := derefKept (g := g) (push (K.requestA e)) distinct after a
  obtain ⟨four,_⟩ := derefKept (g := g) (push (K.requestB e)) distinct after b
  simp only [pushEquation,bind,Except.bind,one,two,three,four]
  simp only [List.map_map]
  refine congrArg (fun qs => Except.ok (Master.mk g qs)) (List.map_congr_left fun c _ => ?_)
  have selfA : c.self = e.connA ↔ e.connA = c.self := eq_comm
  have selfB : c.self = e.connB ↔ e.connB = c.self := eq_comm
  by_cases isA : e.connA = c.self <;> by_cases isB : e.connB = c.self <;>
    simp [pushAll,FMIClient.withQueue,FMIClient.pushDirectionalDerivativeRequest,pushedSnoc,selfA,selfB,isA,isB]

theorem pushEquationWithin {K : Coupling} {m m' : Master} {e : Equation} (distinct : m.addresses.Nodup)
    (ok : pushEquation K m e = .ok m') : e.connA ∈ m.addresses ∧ e.connB ∈ m.addresses := by
  by_cases b : e.connB ∈ m.addresses
  · refine ⟨?_,b⟩
    by_contra a
    obtain ⟨one,after⟩ := derefKept (g := m.toControl) (f := fun c => {c with state := .waitingDirectionalDerivatives})
      (fun _ => rfl) distinct rfl b
    have two := derefLost (g := m.toControl) (f := fun c => .ok {c with state := .waitingDirectionalDerivatives}) after a
    simp only [pushEquation,bind,Except.bind,one,two,reduceCtorEq] at ok
  · simp only [pushEquation,bind,Except.bind,derefMissing b,reduceCtorEq] at ok

theorem pushEquations {K : Coupling} {g : Control} {ps : List FMIClient} {eqs : List Equation}
    (distinct : (ps.map FMIClient.self).Nodup) (done : List Equation)
    (within : Equation.within eqs (ps.map FMIClient.self)) :
    eqs.foldlM (pushEquation K) ⟨g,ps.map (pushAll K done)⟩ = .ok ⟨g,ps.map (pushAll K (done ++ eqs))⟩ := by
  induction eqs generalizing done with
  | nil => simp [pure,Except.pure]
  | cons e eqs ih =>
    obtain ⟨a,b⟩ := within e List.mem_cons_self
    rw [List.foldlM_cons,pushEquationAll distinct a b]
    have rest := ih (done ++ [e]) fun x mem => within x (List.mem_cons_of_mem _ mem)
    rw [List.append_assoc] at rest
    exact rest

theorem pushEquationsWithin {K : Coupling} {g : Control} {ps : List FMIClient} {eqs : List Equation} {m' : Master}
    (distinct : (ps.map FMIClient.self).Nodup) (done : List Equation)
    (ok : eqs.foldlM (pushEquation K) ⟨g,ps.map (pushAll K done)⟩ = .ok m') :
    Equation.within eqs (ps.map FMIClient.self) := by
  induction eqs generalizing done with
  | nil => exact fun e mem => absurd mem List.not_mem_nil
  | cons e eqs ih =>
    have same := pushAllAddresses K done g ps
    rw [List.foldlM_cons] at ok
    cases first : pushEquation K ⟨g,ps.map (pushAll K done)⟩ e with
    | error f => simp only [first,bind,Except.bind,reduceCtorEq] at ok
    | ok next =>
      have ends := pushEquationWithin (same ▸ distinct) first
      rw [same] at ends
      rw [pushEquationAll distinct ends.1 ends.2] at ok
      intro x mem
      rcases List.mem_cons.mp mem with rfl | later
      · exact ends
      · exact ih (done ++ [e]) ok x later

theorem startRequestsDerive (K : Coupling) (eqs : List Equation) (c : FMIClient) (queue : c.Queue []) :
    startRequests (pushAll K eqs c) = .ok (K.derive eqs c) := by
  have queued : (pushAll K eqs c).Queue (K.pushed eqs c.self) := FMIClient.withQueueQueue _ _
  rcases List.eq_nil_or_concat' (K.pushed eqs c.self) with none | ⟨rest,d,some⟩
  · rw [startRequests,if_pos (by rw [FMIClient.queueLength queued,none]; rfl)]
    simp only [deriveNone none,pushAll,none,if_true]
    rw [FMIClient.queueWith (c := {c with numDirectionalDerivativesLeft := 0}) ⟨queue.vRefs,queue.zRefs,queue.dvs⟩]
  · have nonzero : (pushAll K eqs c).numDirectionalDerivativeRequests ≠ 0 := by
      rw [FMIClient.queueLength queued,some]; simp
    rw [some] at queued
    rw [startRequests,if_neg nonzero,FMIClient.shiftQueue queued]
    simp [deriveSome some,pushAll,some,FMIClient.withQueue]

def equations (K : Coupling) (m : Master) : List Equation := K.getEquations (m.setState .gettingDirectionalDerivatives)

theorem pushNone {c : FMIClient} {K : Coupling} (queue : c.Queue []) :
    pushAll K [] c = {c with numDirectionalDerivativesLeft := 0} := by
  simp only [pushAll,Coupling.pushed,List.flatMap_nil,if_true]
  exact FMIClient.queueWith (c := {c with numDirectionalDerivativesLeft := 0}) ⟨queue.vRefs,queue.zRefs,queue.dvs⟩

theorem fetchPushes {K : Coupling} {m : Master} (queues : ∀ c ∈ m.slaves, c.Queue []) :
    m.fetchDirectionalDerivatives K = (do
      let m' ← (m.equations K).foldlM (pushEquation K)
        ⟨{m.toControl with state := .gettingDirectionalDerivatives},m.slaves.map (pushAll K [])⟩
      let slaves ← m'.slaves.mapM startRequests
      .ok {m' with slaves := slaves}) := by
  have reset : m.slaves.map (pushAll K []) = m.slaves.map fun c => {c with numDirectionalDerivativesLeft := 0} :=
    List.map_congr_left fun c mem => pushNone (queues c mem)
  rw [reset]
  rfl

theorem fetchEnters {K : Coupling} {m : Master} (distinct : m.addresses.Nodup)
    (queues : ∀ c ∈ m.slaves, c.Queue []) (within : Equation.within (m.equations K) m.addresses) :
    m.fetchDirectionalDerivatives K = .ok ⟨{m.toControl with state := .gettingDirectionalDerivatives},
      m.slaves.map (K.derive (m.equations K))⟩ := by
  rw [fetchPushes queues,pushEquations distinct [] within]
  have started : (m.slaves.map (pushAll K (m.equations K))).mapM startRequests =
      .ok (m.slaves.map (K.derive (m.equations K))) := by
    rw [List.mapM_map]
    exact Keyed.mapMOk fun c mem => startRequestsDerive K _ c (queues c mem)
  simp only [bind,Except.bind,List.nil_append,started]

theorem fetchSource {K : Coupling} {m m' : Master} (distinct : m.addresses.Nodup)
    (queues : ∀ c ∈ m.slaves, c.Queue []) (ok : m.fetchDirectionalDerivatives K = .ok m') :
    Equation.within (m.equations K) m.addresses ∧ m' = ⟨{m.toControl with state := .gettingDirectionalDerivatives},
      m.slaves.map (K.derive (m.equations K))⟩ := by
  have within : Equation.within (m.equations K) m.addresses := by
    have pushes := ok
    rw [fetchPushes queues] at pushes
    cases pushed : (m.equations K).foldlM (pushEquation K)
        ⟨{m.toControl with state := .gettingDirectionalDerivatives},m.slaves.map (pushAll K [])⟩ with
    | error f => simp only [pushed,bind,Except.bind,reduceCtorEq] at pushes
    | ok next => exact pushEquationsWithin distinct [] pushed
  rw [fetchEnters distinct queues within] at ok
  exact ⟨within,(Except.ok.inj ok).symm⟩

end Master
end FmiTcpMaster
