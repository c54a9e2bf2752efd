import FmiTcpMaster.Cycle

/-! What a slave has answered. The history of a slave only grows, by answers that its
environment allows after what it answered before. -/
namespace FmiTcpMaster

inductive History (P : List Exchange → Request → Response → Prop) : List Exchange → Prop where
  | nil : History P []
  | snoc {xs r a} (before : History P xs) (fits : a.answers r = true) (allowed : P xs r a) : History P (xs ++ [⟨r,a⟩])

theorem historyAt {P : List Exchange → Request → Response → Prop} {xs before after : List Exchange} {x : Exchange}
    (history : History P xs) (split : xs = before ++ x :: after) :
    x.response.answers x.request = true ∧ P before x.request x.response := by
  induction history generalizing after with
  | nil => simp at split
  | @snoc xs r a _ fits allowed ih =>
    rcases List.eq_nil_or_concat' after with rfl | ⟨rest,y,rfl⟩
    · obtain ⟨rfl,same⟩ := List.append_inj' split rfl
      cases List.head_eq_of_cons_eq same
      exact ⟨fits,allowed⟩
    · rw [← List.cons_append,← List.append_assoc] at split
      exact ih (List.append_inj' split rfl).1

section Histories
variable {K : Coupling} {E : Environment} {P : ClientPtr → List Exchange → Request → Response → Prop}

theorem historyKept (policy : ∀ g c r a, E.answers g c r a → P c.self c.answered r a) :
    Rounds.KeepsUnder (rounds K E) (fun g => g.state.resting = true) (fun g c => InPhase g.state c)
      (fun _ : Unit => fun _ => True) fun _ _ c => History (P c.self) c.answered where
  move := by
    intro _ g c c' _ phase _ _ history moved
    rcases moveCases phase moved with ⟨_,rfl⟩ | ⟨r,a,reply⟩
    · exact history
    · rw [reply.absorbed.self,reply.absorbed.answered]
      exact .snoc history reply.fits (policy g c r a reply.allowed)
  turn := by
    intro _ g ps g' ps' _ phases _ histories all turned
    refine turnHolds () phases all turned trivial fun c mem => ?_
    rw [(enteredKept K g ps c).answered,(enteredKept K g ps c).self]
    exact histories c mem
  disturb := by
    intro _ g ps g' ps' _ _ _ histories disturbed
    exact disturbHolds () disturbed (fun _ => trivial) fun _ => histories

theorem freshHistory {m₀ : Master} (fresh : m₀.Fresh) : Rounds.Holds (fun _ : Unit => fun _ => True)
    (fun _ _ c => History (P c.self) c.answered) m₀.parts := by
  refine ⟨(),trivial,fun c mem => ?_⟩
  show History (P c.self) c.answered
  rw [(fresh.clients c mem).answered]
  exact .nil

theorem reachHistory {m₀ m : Master} (policy : ∀ g c r a, E.answers g c r a → P c.self c.answered r a)
    (configured : Master.Configured m₀) (run : Run K E m₀ m) : ∀ c ∈ m.slaves, History (P c.self) c.answered := by
  obtain ⟨_,_,histories⟩ := reachKeeps configured (historyKept policy)
    (freshHistory (Master.configuredFresh configured)) run
  exact histories

theorem tickedHistory {m₀ m : Master} (policy : ∀ g c r a, E.answers g c r a → P c.self c.answered r a)
    (configured : Master.Configured m₀) (ticked : Master.Ticked K E m₀ m) :
    ∀ c ∈ m.slaves, History (P c.self) c.answered := by
  obtain ⟨_,_,histories⟩ := tickedKeeps configured (historyKept policy)
    (freshHistory (Master.configuredFresh configured)) ticked
  exact histories

end Histories

theorem answeredParts {c : FMIClient} {head part : List Request} {last : Request} (short : c.pending.length ≤ 1)
    (requests : c.requests = head ++ part ++ [last]) :
    ∃ before since tail, c.answered = before ++ since ++ tail ∧ before.map Exchange.request = head ∧
      since.map Exchange.request = part ∧ tail.map Exchange.request ++ c.pending = [last] := by
  rw [FMIClient.requests] at requests
  rcases FMIClient.noneOrOne short with none | ⟨r,one⟩
  · rw [none,List.append_nil] at requests
    obtain ⟨l,tail,split,first,last⟩ := List.map_eq_append_iff.mp requests
    obtain ⟨before,since,rfl,head,part⟩ := List.map_eq_append_iff.mp first
    exact ⟨before,since,tail,split,head,part,by rw [none,List.append_nil]; exact last⟩
  · rw [one] at requests
    obtain ⟨first,last⟩ := List.append_inj' requests rfl
    obtain ⟨before,since,split,head,part⟩ := List.map_eq_append_iff.mp first
    exact ⟨before,since,[],by rw [split,List.append_nil],head,part,by rw [one]; exact last⟩

end FmiTcpMaster
