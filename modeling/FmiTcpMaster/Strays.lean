import FmiTcpMaster.Heard
import FmiTcpMaster.Scatter

/-! Responses that answer nothing. Every handler writes its DONE state and calls tick(), so a
stray response is without effect only where all of that is there already. -/
namespace FmiTcpMaster

namespace StrongConnector

theorem assignSame (k : StrongConnector) (pairs : List (Int × ℚ)) :
    k.assignValues pairs = k ↔ ∀ g, Misses pairs (k.slots g) (k.present g) := by
  refine ⟨fun same g => ?_,fun misses => ?_⟩
  · rw [← overwrittenSame (k.presentLength g).le,← assignPresentList,same]
  · exact sameConnector (layoutAssign k pairs)
      (fun g => (assignPresentList k pairs g).trans ((overwrittenSame (k.presentLength g).le).mpr (misses g)))
      (assignStillFuture k pairs)

theorem assignFutureSame (k : StrongConnector) (pairs : List (Int × ℚ)) :
    k.assignFutureValues pairs = k ↔ ∀ g, Misses pairs (k.slots g) (k.future g) := by
  refine ⟨fun same g => ?_,fun misses => ?_⟩
  · rw [← overwrittenSame (k.futureLength g),← assignFutureList,same]
  · exact sameConnector (layoutAssignFuture k pairs) (assignFutureStill k pairs)
      fun g => (assignFutureList k pairs g).trans ((overwrittenSame (k.futureLength g)).mpr (misses g))

end StrongConnector

structure FMIClient.View where
  self : ClientPtr
  state : FMIClientState
  strongConnectors : List StrongConnector
  ddVRefs : List (List Int)
  ddZRefs : List (List Int)
  ddDvs : List (List ℚ)
  requests : List Request
  deriving DecidableEq

def FMIClient.view (c : FMIClient) : FMIClient.View :=
  ⟨c.self,c.state,c.strongConnectors,c.ddVRefs,c.ddZRefs,c.ddDvs,c.requests⟩

structure Master.Untouched (m m' : Master) : Prop where
  state : m'.state = m.state
  time : m'.time = m.time
  slaves : m'.slaves.map FMIClient.view = m.slaves.map FMIClient.view

def Response.written : Response → Option FMIClientState
  | .getXml => some .doneGetXml
  | .instantiate _ => some .doneInstantiateSlave
  | .initializeSlave _ => some .doneInitializeSlave
  | .terminate _ => some .doneTerminateSlave
  | .doStep _ => some .doneDoStep
  | .setReal _ => some .doneSetReal
  | .getReal .. => some .doneGetReal
  | .getFmuState .. => some .doneGetState
  | .setFmuState _ => some .doneSetState
  | .freeFmuState _ => some .doneFreeState
  | .getDirectionalDerivative .. => some .doneDirectionalDerivatives
  | .freeInstance | .getVersion => none

def FMIClient.Repeats (phase : MasterState) (values : List ℚ) (c : FMIClient) : Prop :=
  match phase with
  | .getStrongConnectorStates => ∀ k ∈ c.strongConnectors,
      c.getStrongConnectorValueReferences.length = values.length ∧
      ∀ g, StrongConnector.Misses (c.getStrongConnectorValueReferences.zip values) (k.slots g) (k.present g)
  | .gettingFutureVelo => ∀ k ∈ c.strongConnectors,
      c.getStrongSeedOutputValueReferences.length = values.length ∧
      ∀ g, StrongConnector.Misses (c.getStrongSeedOutputValueReferences.zip values) (k.slots g) (k.future g)
  | _ => True

/- What must hold already for a stray response to leave no trace in its slave. -/
structure FMIClient.Unmoved (phase : MasterState) (a : Response) (c : FMIClient) : Prop where
  state : ∀ d ∈ a.written, c.state = d
  values : ∀ values status, a = .getReal values status → c.Repeats phase values
  queue : ∀ dz status, a = .getDirectionalDerivative dz status → c.ddVRefs = []

theorem setAllSame {ks ks' : List StrongConnector} {f : StrongConnector → Except Fault StrongConnector}
    {g : StrongConnector → StrongConnector} {p : Prop} [Decidable p]
    (each : ∀ k, f k = if p then .ok (g k) else .error .assertion) (ok : ks.mapM f = .ok ks') :
    ks' = ks ↔ ∀ k ∈ ks, p ∧ g k = k := by
  induction ks generalizing ks' with
  | nil => cases ok; simp
  | cons k ks ih =>
    rw [List.mapM_cons] at ok
    obtain ⟨k',first,ok⟩ := Master.bindOk ok
    obtain ⟨rest,others,last⟩ := Master.bindOk ok
    cases last
    rw [each k] at first
    split at first <;> try contradiction
    rename_i fits
    cases Except.ok.inj first
    rw [List.cons.injEq,ih others,List.forall_mem_cons]
    exact ⟨fun same => ⟨⟨fits,same.1⟩,same.2⟩,fun same => ⟨same.1.2,same.2⟩⟩

theorem setAllOk {ks : List StrongConnector} {f : StrongConnector → Except Fault StrongConnector}
    {g : StrongConnector → StrongConnector} {p : Prop} [Decidable p]
    (each : ∀ k, f k = if p then .ok (g k) else .error .assertion) (all : ∀ k ∈ ks, p ∧ g k = k) :
    ks.mapM f = .ok ks := by
  have mapped : ks.mapM f = .ok (ks.map id) := Keyed.mapMOk fun k mem => by
    rw [each k,if_pos (all k mem).1,(all k mem).2]
    rfl
  rwa [List.map_id] at mapped

theorem connectorsSame {c : FMIClient} {f : StrongConnector → Except Fault StrongConnector}
    {g : StrongConnector → StrongConnector} {p : Prop} [Decidable p]
    (each : ∀ k, f k = if p then .ok (g k) else .error .assertion) {d : FMIClient}
    (written : d.strongConnectors = c.strongConnectors) :
    (∃ c', (do let ks ← d.strongConnectors.mapM f; .ok {d with strongConnectors := ks}) = Except.ok c' ∧
      c'.view = c.view) ↔ d.view = c.view ∧ ∀ k ∈ c.strongConnectors, p ∧ g k = k := by
  constructor
  · rintro ⟨c',ok,view⟩
    obtain ⟨ks,mapped,last⟩ := Master.bindOk ok
    cases last
    simp only [FMIClient.view,FMIClient.View.mk.injEq] at view ⊢
    obtain ⟨self,state,connectors,v,z,dv,requests⟩ := view
    rw [← written] at connectors ⊢
    exact ⟨⟨self,state,rfl,v,z,dv,requests⟩,(setAllSame each mapped).mp connectors⟩
  · rintro ⟨view,all⟩
    refine ⟨d,?_,view⟩
    rw [written,setAllOk each all,← written]
    rfl

theorem setValuesSame {c d : FMIClient} (refs : List Int) (values : List ℚ)
    (written : d.strongConnectors = c.strongConnectors) :
    (∃ c', d.setConnectorValues refs values = .ok c' ∧ c'.view = c.view) ↔ d.view = c.view ∧
      ∀ k ∈ c.strongConnectors, refs.length = values.length ∧ k.assignValues (refs.zip values) = k :=
  connectorsSame (f := fun k => k.setValues refs values) (g := fun k => k.assignValues (refs.zip values))
    (p := refs.length = values.length) (fun _ => rfl) written

theorem setFutureSame {c d : FMIClient} (refs : List Int) (values : List ℚ)
    (written : d.strongConnectors = c.strongConnectors) :
    (∃ c', d.setConnectorFutureVelocities refs values = .ok c' ∧ c'.view = c.view) ↔ d.view = c.view ∧
      ∀ k ∈ c.strongConnectors, refs.length = values.length ∧ k.assignFutureValues (refs.zip values) = k :=
  connectorsSame (f := fun k => k.setFutureValues refs values) (g := fun k => k.assignFutureValues (refs.zip values))
    (p := refs.length = values.length) (fun _ => rfl) written

section Absorbing
variable {phase : MasterState} {c : FMIClient}

theorem strayReal {values : List ℚ} {status : Fmi2Status} (stray : c.deliver (.getReal values status) = c) :
    (∃ c', c.absorb phase (.getReal values status) = .ok c' ∧ c'.view = c.view) ↔
      c.state = .doneGetReal ∧ c.Repeats phase values := by
  have viewed : ∀ d : FMIClient, d = {c with getRealValues := values, state := .doneGetReal} →
      (d.view = c.view ↔ c.state = .doneGetReal) := by
    rintro d rfl
    simp only [FMIClient.view,FMIClient.View.mk.injEq,true_and]
    exact ⟨fun h => h.1.symm,fun h => ⟨h.symm,rfl⟩⟩
  simp only [FMIClient.absorb,stray]
  cases phase
  case getStrongConnectorStates =>
    refine (setValuesSame (c := c) (d := {c with getRealValues := values, state := .doneGetReal})
      c.getStrongConnectorValueReferences values rfl).trans ?_
    rw [viewed _ rfl]
    refine and_congr_right fun _ => forall₂_congr fun k _ => and_congr_right fun _ => ?_
    exact k.assignSame _
  case gettingFutureVelo =>
    refine (setFutureSame (c := c) (d := {c with getRealValues := values, state := .doneGetReal})
      c.getStrongSeedOutputValueReferences values rfl).trans ?_
    rw [viewed _ rfl]
    refine and_congr_right fun _ => forall₂_congr fun k _ => and_congr_right fun _ => ?_
    exact k.assignFutureSame _
  all_goals
    refine ⟨?_,fun h => ⟨_,rfl,(viewed _ rfl).mpr h.1⟩⟩
    rintro ⟨c',ok,view⟩
    cases ok
    exact ⟨(viewed _ rfl).mp view,trivial⟩

theorem strayDerivative {dz : List ℚ} {status : Fmi2Status} (stray : c.deliver (.getDirectionalDerivative dz status) = c) :
    (∃ c', c.absorb phase (.getDirectionalDerivative dz status) = .ok c' ∧ c'.view = c.view) ↔
      c.state = .doneDirectionalDerivatives ∧ c.ddVRefs = [] := by
  simp only [FMIClient.absorb,stray]
  constructor
  · rintro ⟨c',ok,view⟩
    split at ok
    · rename_i empty
      cases ok
      exact ⟨(congrArg FMIClient.View.state view).symm,List.eq_nil_of_length_eq_zero empty⟩
    · rename_i some
      unfold FMIClient.shiftExecuteDirectionalDerivativeRequest at ok
      split at ok <;> try contradiction
      cases ok
      have queue := congrArg (fun v => v.ddVRefs.length) view
      simp only [FMIClient.view,FMIClient.send,List.length_dropLast,FMIClient.numDirectionalDerivativeRequests] at queue some
      omega
  · rintro ⟨done,empty⟩
    refine ⟨_,if_pos (by simp [FMIClient.numDirectionalDerivativeRequests,empty]),?_⟩
    simp only [FMIClient.view,done]
    rfl

theorem strayPlain {a : Response} {c₁ : FMIClient} {d : FMIClientState} (ok : c.absorb phase a = .ok c₁)
    (view : c₁.view = {c.view with state := d}) :
    (∃ c', c.absorb phase a = .ok c' ∧ c'.view = c.view) ↔ c.state = d := by
  constructor
  · rintro ⟨c₂,ok₂,same⟩
    cases ok.symm.trans ok₂
    exact (congrArg FMIClient.View.state (view.symm.trans same)).symm
  · rintro rfl
    exact ⟨c₁,ok,view⟩

theorem absorbUnmoved {a : Response} (stray : c.deliver a = c) :
    (∃ c', c.absorb phase a = .ok c' ∧ c'.view = c.view) ↔ c.Unmoved phase a := by
  have unmoved : ∀ {d}, a.written = some d → (∀ values status, a ≠ .getReal values status) →
      (∀ dz status, a ≠ .getDirectionalDerivative dz status) → (c.state = d ↔ c.Unmoved phase a) := by
    refine fun {d} written noReal noDerivative => ⟨fun state => ⟨fun d' mem => ?_,?_,?_⟩,fun h => h.state d written⟩
    · cases Option.some.inj (written.symm.trans mem)
      exact state
    · exact fun values status same => absurd same (noReal values status)
    · exact fun dz status same => absurd same (noDerivative dz status)
  have silent : a.written = none → c.absorb phase a = .ok c →
      ((∃ c', c.absorb phase a = .ok c' ∧ c'.view = c.view) ↔ c.Unmoved phase a) := by
    refine fun written ok => ⟨fun _ => ⟨fun d mem => ?_,fun v s same => ?_,fun dz s same => ?_⟩,fun _ => ⟨c,ok,rfl⟩⟩
    · cases written.symm.trans mem
    · subst same
      cases written
    · subst same
      cases written
  cases a with
  | getReal values status =>
    rw [strayReal stray]
    refine ⟨fun h => ⟨fun d mem => ?_,fun v s same => ?_,fun dz s same => ?_⟩,fun h => ⟨h.state _ rfl,h.values _ _ rfl⟩⟩
    · cases mem
      exact h.1
    · cases same
      exact h.2
    · cases same
  | getDirectionalDerivative dz status =>
    rw [strayDerivative stray]
    refine ⟨fun h => ⟨fun d mem => ?_,fun v s same => ?_,fun _ _ _ => h.2⟩,fun h => ⟨h.state _ rfl,h.queue _ _ rfl⟩⟩
    · cases mem
      exact h.1
    · cases same
  | freeInstance => exact silent rfl (by rw [FMIClient.absorb,stray])
  | getVersion => exact silent rfl (by rw [FMIClient.absorb,stray])
  | _ =>
    refine Iff.trans ?_ (unmoved rfl (by rintro _ _ ⟨⟩) (by rintro _ _ ⟨⟩))
    exact strayPlain (by rw [FMIClient.absorb,stray]) rfl

end Absorbing

theorem strayDelivers {c : FMIClient} {a : Response} (stray : ∀ r ∈ c.pending.head?, a.answers r = false) :
    c.deliver a = c := by
  unfold FMIClient.deliver
  cases pending : c.pending with
  | nil => rfl
  | cons r rest => simp [stray r (by simp [pending])]

theorem finishedSame {g : Control} {c c' : FMIClient} (state : c'.state = c.state) (connected : c'.connected = c.connected) :
    g.finished c' ↔ g.finished c := by
  unfold Control.finished
  split
  · rw [connected]
  · rw [state]

theorem closedSame {g : Control} {l r : List FMIClient} {c c' : FMIClient} (state : c'.state = c.state)
    (connected : c'.connected = c.connected) :
    (∃ x ∈ l ++ c' :: r, ¬ g.finished x) ↔ ∃ x ∈ l ++ c :: r, ¬ g.finished x := by
  simp only [List.mem_append,List.mem_cons,or_and_right,exists_or,exists_eq_left,finishedSame state connected]

theorem enteredTouched {m m' : Master} {l r : List FMIClient} {c c' : FMIClient} (sound : m.Sound)
    (split : m.slaves = l ++ c :: r) (extends_ : c.Extends c') (running : m.state ≠ .done)
    (control : m'.toControl = m.toControl.advance)
    (plain : m.state ≠ .getStrongConnectorStates → m'.slaves = (l ++ c' :: r).map m.toControl.enter) :
    ¬ m.Untouched m' := by
  intro same
  have state : m'.state = m.toControl.next := by rw [control,Control.advance]
  by_cases step : m.toControl.next = .steppingSlaves
  · have views := same.slaves
    rw [plain (Master.stepNotStrong step),split,List.map_map,List.map_append,List.map_append,List.map_cons,
      List.map_cons] at views
    have here := (List.cons.inj (List.append_inj views (by simp)).2).1
    have lengths := congrArg (fun v : FMIClient.View => v.requests.length) here
    obtain ⟨more,requests⟩ := extends_.requests
    simp only [Function.comp,FMIClient.view,Master.stepEnters step,requests,List.length_append,List.length_cons] at lengths
    omega
  · exact absurd (state.symm.trans same.state) (Master.nextOther sound.resting running step)

/- A stray response is harmless exactly when its slave shows already what the handler writes and
the barrier is closed. -/
theorem strayExact {K : Coupling} {m₀ m : Master} (configured : Master.Configured m₀) (heard : Heard K m₀ m)
    {c : FMIClient} (mem : c ∈ m.slaves) {a : Response} (stray : ∀ r ∈ c.pending.head?, a.answers r = false) :
    (∃ m', m.handle K (.response c.self a) = .ok m' ∧ m.Untouched m') ↔
      c.Unmoved m.state a ∧ ∃ x ∈ m.slaves, ¬ m.toControl.finished x := by
  have sound := heardSound configured heard
  obtain ⟨l,r,split⟩ := List.append_of_mem mem
  rw [← absorbUnmoved (strayDelivers stray)]
  simp only [Master.handle,Master.receiveAbsorbs a split sound.distinct]
  constructor
  · rintro ⟨m',handled,same⟩
    obtain ⟨c',absorbs,ticked⟩ := Master.bindOk handled
    have more := FMIClient.absorbExtends absorbs
    cases Master.tickTock (writtenSound sound split more.self) ticked with
    | enters _ running control _ plain => exact absurd same (enteredTouched sound split more running control plain)
    | rests closed =>
      have views := same.slaves
      rw [split,List.map_append,List.map_append,List.map_cons,List.map_cons] at views
      have view : c'.view = c.view := (List.cons.inj (List.append_cancel_left views)).1
      refine ⟨⟨c',absorbs,view⟩,?_⟩
      rcases closed with ended | waiting
      · have ended : m.state = .done := ended
        exact ⟨c,mem,by simp [Control.finished,ended,MasterState.awaited]⟩
      · rw [split]
        exact (closedSame (congrArg FMIClient.View.state view) more.connected).mp waiting
  · rintro ⟨⟨c',absorbs,view⟩,waiting⟩
    have more := FMIClient.absorbExtends absorbs
    rw [split] at waiting
    have closed : ∃ x ∈ l ++ c' :: r, ¬ m.toControl.finished x :=
      (closedSame (congrArg FMIClient.View.state view) more.connected).mpr waiting
    have ticked := Master.tickRests (K := K) (m := {m with slaves := l ++ c' :: r}) sound.resting (Or.inr closed)
    refine ⟨{m with slaves := l ++ c' :: r},by rw [absorbs]; exact ticked,rfl,rfl,?_⟩
    rw [split,List.map_append,List.map_append,List.map_cons,List.map_cons,view]

def Event.halfInitialized : List Event := Event.startup ++ [.response 1 (.initializeSlave .ok)]

theorem strayExactPair :
    let m := Master.pair.after .perConstraint Event.halfInitialized
    ∃ c ∈ m.slaves, c.pending = [] ∧
      ((∃ m', m.handle .perConstraint (.response c.self (.initializeSlave .ok)) = .ok m' ∧ m.Untouched m') ↔
        c.Unmoved m.state (.initializeSlave .ok) ∧ ∃ x ∈ m.slaves, ¬ m.toControl.finished x) := by
  intro m
  have run : Run .perConstraint .anything .pair m := Master.afterRun _ (fun e _ => anythingAlways e) (by decide +kernel)
  obtain ⟨c,mem,idle⟩ : ∃ c ∈ m.slaves, c.pending = [] := by decide +kernel
  exact ⟨c,mem,idle,strayExact Master.pairConfigured (runHeard run) mem (by simp [idle])⟩

theorem strayHarmful :
    (∃ m, Run .perConstraint .anything .coupled m ∧
      m.handle .perConstraint (.response 1 (.getReal [] .ok)) = .error .assertion) ∧
    ¬ ∀ m, Run .perConstraint .anything .pair m → ∀ c ∈ m.slaves, ∀ a : Response,
      (∀ r ∈ c.pending.head?, a.answers r = false) →
      ∃ m', m.handle .perConstraint (.response c.self a) = .ok m' ∧ m.Untouched m' := by
  constructor
  · exact ⟨_,Master.afterRun (Event.startup ++ Event.both (.initializeSlave .ok) ++ Event.both (.getFmuState 0 .ok) ++
      Event.both (.doStep .ok)) (fun e _ => anythingAlways e) (by decide +kernel),by decide +kernel⟩
  · intro harmless
    have run := Master.afterRun (K := .perConstraint) (m := .pair) Event.halfInitialized (fun e _ => anythingAlways e)
      (by decide +kernel)
    obtain ⟨c,mem,self,idle⟩ : ∃ c ∈ (Master.pair.after .perConstraint Event.halfInitialized).slaves,
        c.self = 1 ∧ c.pending = [] := by decide +kernel
    obtain ⟨m',handled,same⟩ := harmless _ run c mem (.doStep .ok) (by simp [idle])
    rw [self] at handled
    obtain ⟨m₁,handled₁,differs⟩ : ∃ m₁ : Master, (Master.pair.after .perConstraint Event.halfInitialized).handle
        .perConstraint (.response 1 (.doStep .ok)) = .ok m₁ ∧ m₁.slaves.map FMIClient.view ≠
          (Master.pair.after .perConstraint Event.halfInitialized).slaves.map FMIClient.view :=
      ⟨_,rfl,by decide +kernel⟩
    cases handled.symm.trans handled₁
    exact differs same.slaves

end FmiTcpMaster
