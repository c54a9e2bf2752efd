import FmiTcpMaster.History

/-! The rewind of an iteration. Each slave keeps a store of snapshots under ids of its own
choosing; the master drops the ids it is told and asks for the snapshot under the id 0. -/
namespace FmiTcpMaster

structure Snapshots (S : Type) where
  current : S
  store : Int → Option S

section Slave
variable {S : Type}

def Snapshots.exchange (exec : S → Request → S) (f : Snapshots S) (x : Exchange) : Snapshots S :=
  match x.request, x.response with
  | .getFmuState, .getFmuState id _ => {f with store := fun i => if i = id then some f.current else f.store i}
  | .setFmuState id, _ => {f with current := (f.store id).getD f.current}
  | r, _ => {f with current := exec f.current r}

def Snapshots.after (exec : S → Request → S) (f : Snapshots S) (xs : List Exchange) : Snapshots S :=
  xs.foldl (Snapshots.exchange exec) f

end Slave

def savedId (xs : List Exchange) : Option Int :=
  (xs.filterMap fun x =>
    match x.request, x.response with
    | .getFmuState, .getFmuState id _ => some id
    | _, _ => none).getLast?

def Environment.zeroIds : Environment :=
  ⟨fun _ _ _ a => ∀ id status, a = .getFmuState id status → id = 0,fun _ _ => True,fun _ _ => True⟩

def Cycle.rewindRequests (C : Cycle) (refs : List Int) (t : ℚ) : List Request :=
  [.getFmuState,.doStep t C.timeStep true,.getReal refs]

theorem sentRewind {C : Cycle} {refs : List Int} {k : Nat} {rs : List Request}
    (sent : C.Sent refs k .settingStates rs) :
    ∃ head, rs = head ++ C.rewindRequests refs (k*C.timeStep) ++ [.setFmuState 0] := by
  cases sent with
  | @iterate k all s part before begun =>
    cases begun with
    | restore => exact ⟨C.startup ++ all,by simp [Cycle.rewindRequests]⟩

theorem rewindAnswers {P : List Exchange → Request → Response → Prop} {before since tail : List Exchange} {C : Cycle}
    {refs : List Int} {t : ℚ} (history : History P (before ++ since ++ tail))
    (requests : since.map Exchange.request = C.rewindRequests refs t) :
    ∃ id status a b, since = [⟨.getFmuState,.getFmuState id status⟩,⟨.doStep t C.timeStep true,a⟩,⟨.getReal refs,b⟩] ∧
      P before .getFmuState (.getFmuState id status) := by
  obtain ⟨x,y,z,rfl⟩ : ∃ x y z, since = [x,y,z] := List.length_eq_three.mp (by
    rw [← List.length_map Exchange.request,requests]; rfl)
  obtain ⟨r,a⟩ := x
  obtain ⟨r',b⟩ := y
  obtain ⟨r'',d⟩ := z
  simp only [Cycle.rewindRequests,List.map_cons,List.map_nil,List.cons.injEq,and_true] at requests
  obtain ⟨rfl,rfl,rfl⟩ := requests
  obtain ⟨fits,allowed⟩ := historyAt (x := ⟨.getFmuState,a⟩) history (by rw [List.append_assoc]; rfl)
  cases a <;> simp only [Response.answers,Bool.false_eq_true] at fits
  exact ⟨_,_,_,_,rfl,allowed⟩

theorem savedIdSince {before tail : List Exchange} {id : Int} {status : Fmi2Status} {C : Cycle} {refs : List Int}
    {t : ℚ} {a b : Response} (restores : ∀ x ∈ tail, x.request = .setFmuState 0) :
    savedId (before ++ [⟨.getFmuState,.getFmuState id status⟩,⟨.doStep t C.timeStep true,a⟩,⟨.getReal refs,b⟩] ++ tail) =
      some id := by
  have none : tail.filterMap (fun x =>
      match x.request, x.response with
      | .getFmuState, .getFmuState id _ => some id
      | _, _ => none) = [] := by
    refine List.filterMap_eq_nil_iff.mpr fun x mem => ?_
    rw [restores x mem]
  rw [savedId,List.filterMap_append,none,List.append_nil,List.filterMap_append]
  simp

theorem rewindCurrent {S : Type} (exec : S → Request → S) (f : Snapshots S) (before : List Exchange)
    {status : Fmi2Status} {C : Cycle} {refs : List Int} {t : ℚ} {a b d : Response} :
    (f.after exec (before ++ [⟨.getFmuState,.getFmuState 0 status⟩,⟨.doStep t C.timeStep true,a⟩,⟨.getReal refs,b⟩,
      ⟨.setFmuState 0,d⟩])).current = (f.after exec before).current := by
  simp [Snapshots.after,Snapshots.exchange]

theorem rewindSent {K : Coupling} {E : Environment} {P : ClientPtr → List Exchange → Request → Response → Prop}
    {m₀ m : Master} (policy : ∀ g c r a, E.answers g c r a → P c.self c.answered r a)
    (configured : Master.Configured m₀) (run : Run K E m₀ m) (phase : m.state = .settingStates) {c : FMIClient}
    (mem : c ∈ m.slaves) : ∃ id status before, savedId c.answered = some id ∧
      P c.self before .getFmuState (.getFmuState id status) ∧ c.requests.getLast? = some (.setFmuState 0) := by
  have lock := reachLockstep configured run
  obtain ⟨k,scheduled⟩ := reachScheduled configured run
  have history := reachHistory policy configured run c mem
  have sent := scheduled.sent c mem
  rw [phase] at sent
  obtain ⟨head,requests⟩ := sentRewind sent
  obtain ⟨before,since,tail,split,_,same,last⟩ := answeredParts (inPhasePending (lock.phases c mem)).1 requests
  rw [split] at history ⊢
  obtain ⟨id,status,a,b,rfl,allowed⟩ := rewindAnswers history same
  refine ⟨id,status,before,savedIdSince fun x inside => ?_,allowed,?_⟩
  · have one : x.request ∈ tail.map Exchange.request ++ c.pending :=
      List.mem_append_left _ (List.mem_map_of_mem inside)
    rw [last] at one
    exact List.mem_singleton.mp one
  · rw [requests,List.getLast?_append_of_ne_nil _ (by simp)]
    rfl

theorem rewindLeft {K : Coupling} {m₀ m : Master} (configured : Master.Configured m₀)
    (ticked : Master.Ticked K .zeroIds m₀ m) (phase : m.state = .settingStates)
    (opened : m.allClientsHaveState .doneSetState = true) {c : FMIClient} (mem : c ∈ m.slaves) :
    ∃ before since, c.answered = before ++ since ∧
      since.map Exchange.request =
        m.toControl.cycle.rewindRequests c.getStrongConnectorValueReferences m.time ++ [.setFmuState 0] ∧
      ∀ (S : Type) (exec : S → Request → S) (f : Snapshots S),
        (f.after exec c.answered).current = (f.after exec before).current := by
  have lock := tickedLockstep configured ticked
  obtain ⟨k,scheduled⟩ := tickedScheduled configured ticked
  have history := tickedHistory (P := fun _ _ _ a => ∀ id status, a = .getFmuState id status → id = 0)
    (fun _ _ _ _ zero => zero) configured ticked c mem
  have done := (Master.barrierOpen (by rw [phase]; rfl)).mp opened c mem
  have idle := (finishedIdle (lock.phases c mem) done).2.1
  have sent := scheduled.sent c mem
  rw [phase] at sent
  obtain ⟨head,requests⟩ := sentRewind sent
  obtain ⟨before,since,tail,split,_,same,last⟩ := answeredParts (by simp [idle]) requests
  rw [split] at history
  obtain ⟨id,status,a,b,rfl,zero⟩ := rewindAnswers history same
  cases zero id status rfl
  rw [idle,List.append_nil] at last
  obtain ⟨x,rfl⟩ : ∃ x, tail = [x] := List.length_eq_one_iff.mp (by
    rw [← List.length_map Exchange.request,last]; rfl)
  obtain ⟨r,d⟩ := x
  cases List.head_eq_of_cons_eq last
  have time : m.time = k*m₀.toControl.cycle.timeStep := by
    rw [scheduled.clock.time,Control.elapsed,phase]
    simp [Control.cycle]
  rw [List.append_assoc] at split
  refine ⟨before,_,split,?_,fun S exec f => ?_⟩
  · rw [List.map_append,same,last,time,clockCycle scheduled.clock]
  · rw [split]
    exact rewindCurrent exec f before

/- The id that is sent is the id that was returned just when that was 0. If it always was, every
slave is back where the iteration began when the master leaves the state. -/
theorem rewindExact {K : Coupling} {m₀ : Master} (configured : Master.Configured m₀) :
    (∀ m, Run K .anything m₀ m → m.state = .settingStates → ∀ c ∈ m.slaves, ∃ id, savedId c.answered = some id ∧
      (c.requests.getLast? = some (.setFmuState id) ↔ id = 0)) ∧
    (∀ m, Run K .zeroIds m₀ m → m.state = .settingStates → ∀ c ∈ m.slaves, ∃ id, savedId c.answered = some id ∧
      c.requests.getLast? = some (.setFmuState id)) ∧
    ∀ m, Master.Ticked K .zeroIds m₀ m → m.state = .settingStates → m.allClientsHaveState .doneSetState = true →
      ∀ c ∈ m.slaves, ∃ before since, c.answered = before ++ since ∧
        since.map Exchange.request =
          m.toControl.cycle.rewindRequests c.getStrongConnectorValueReferences m.time ++ [.setFmuState 0] ∧
        ∀ (S : Type) (exec : S → Request → S) (f : Snapshots S),
          (f.after exec c.answered).current = (f.after exec before).current := by
  refine ⟨fun m run phase c mem => ?_,fun m run phase c mem => ?_,fun m ticked phase opened c mem =>
    rewindLeft configured ticked phase opened mem⟩
  · obtain ⟨id,_,_,saved,_,sent⟩ := rewindSent (P := fun _ _ _ _ => True) (fun _ _ _ _ _ => trivial) configured run
      phase mem
    refine ⟨id,saved,?_⟩
    rw [sent]
    simp [eq_comm]
  · obtain ⟨id,status,_,saved,zero,sent⟩ := rewindSent
      (P := fun _ _ _ a => ∀ id status, a = .getFmuState id status → id = 0) (fun _ _ _ _ h => h) configured run
      phase mem
    cases zero id status rfl
    exact ⟨0,saved,sent⟩

theorem rewindExactCoupled :
    let m := Master.coupled.after .perConstraint (Event.speculation 0 0)
    m.state = .settingStates ∧ ∀ c ∈ m.slaves, ∃ id, savedId c.answered = some id ∧
      c.requests.getLast? = some (.setFmuState id) := by
  have phase : (Master.coupled.after .perConstraint (Event.speculation 0 0)).state = .settingStates := by decide +kernel
  have run : Run .perConstraint .zeroIds .coupled (Master.coupled.after .perConstraint (Event.speculation 0 0)) :=
    Master.afterRun _ (messagesAlways (fun a => match a with | .getFmuState id _ => id = 0 | _ => true)
      (fun _ _ _ a allowed id status same => by simpa [same] using allowed) (by decide +kernel)) (by decide +kernel)
  exact ⟨phase,(rewindExact Master.coupledConfigured).2.1 _ run phase⟩

theorem rewindDropsId : ¬ ∀ m, Run .perConstraint .anything .coupled m → m.state = .settingStates →
    ∀ c ∈ m.slaves, ∀ id, savedId c.answered = some id → c.requests.getLast? = some (.setFmuState id) := by
  intro claimed
  have run := Master.afterRun (K := .perConstraint) (m := .coupled) (Event.speculation 7 0) (fun e _ => anythingAlways e)
    (by decide +kernel)
  have seven : ∀ c ∈ (Master.coupled.after .perConstraint (Event.speculation 7 0)).slaves,
      savedId c.answered = some 7 → c.requests.getLast? = some (.setFmuState 7) := fun c mem =>
    claimed _ run (by decide +kernel) c mem 7
  revert seven
  decide +kernel

end FmiTcpMaster
