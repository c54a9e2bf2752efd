import FmiTcpMaster.Simulation
import FmiTcpMaster.History

/-! Runs with their events. What the master hears of a slave is one message for each request, in
order: the slaves' messages can be interleaved, and nothing else. -/
namespace FmiTcpMaster

inductive Trace (K : Coupling) (E : Environment) (m₀ : Master) : List Event → Master → Prop where
  | nil : Trace K E m₀ [] m₀
  | snoc {es e m m'} (before : Trace K E m₀ es m) (step : Step K E m e m') : Trace K E m₀ (es ++ [e]) m'

theorem traceRun {K : Coupling} {E : Environment} {m₀ m : Master} {es : List Event} (trace : Trace K E m₀ es m) :
    Run K E m₀ m := by
  induction trace with
  | nil => exact .refl
  | snoc _ step ih => exact ih.tail ⟨_,step⟩

theorem runTrace {K : Coupling} {E : Environment} {m m' : Master} (run : Run K E m m') : ∃ es, Trace K E m es m' := by
  induction run with
  | refl => exact ⟨[],.nil⟩
  | tail _ step ih =>
    obtain ⟨es,before⟩ := ih
    obtain ⟨e,step⟩ := step
    exact ⟨es ++ [e],.snoc before step⟩

theorem traceThen {K : Coupling} {E : Environment} {m₀ m m' : Master} {es ds : List Event} (first : Trace K E m₀ es m)
    (rest : Trace K E m ds m') : Trace K E m₀ (es ++ ds) m' := by
  induction rest with
  | nil => rwa [List.append_nil]
  | snoc _ step ih =>
    rw [← List.append_assoc]
    exact .snoc ih step

theorem traceNil {K : Coupling} {E : Environment} {m₀ m : Master} (trace : Trace K E m₀ [] m) : m = m₀ := by
  generalize none : ([] : List Event) = es at trace
  cases trace with
  | nil => rfl
  | snoc => simp at none

namespace FMIClient

def messages (c : FMIClient) : List Event :=
  (if c.connected then [.connect c.self] else []) ++ c.answered.map fun x => .response c.self x.response

theorem messagesOf {c c' : FMIClient} (self : c'.self = c.self) (connected : c'.connected = c.connected)
    (answered : c'.answered = c.answered) : c'.messages = c.messages := by
  rw [messages,self,connected,answered]
  rfl

theorem messagesAnswered {c c' : FMIClient} {x : Exchange} (self : c'.self = c.self)
    (connected : c'.connected = c.connected) (answered : c'.answered = c.answered ++ [x]) :
    c'.messages = c.messages ++ [.response c.self x.response] := by
  rw [messages,messages,self,connected,answered,List.map_append,List.append_assoc]
  rfl

theorem messagesConnected {s : MasterState} {c : FMIClient} (phase : InPhase s c) (down : c.connected = false) :
    messages {c with connected := true} = c.messages ++ [.connect c.self] := by
  have silent : c.answered = [] := by
    cases phase with
    | connecting answered => exact answered
    | asked connected | finished connected | ended connected => cases down.symm.trans connected
  simp [messages,down,silent]

end FMIClient

theorem enteredConnected (K : Coupling) (g : Control) (ps : List FMIClient) (c : FMIClient) :
    (entered K g ps c).connected = c.connected := by
  unfold entered
  split
  · rcases List.eq_nil_or_concat' (K.pushed (Master.equations K ⟨g,ps⟩) c.self) with none | ⟨q,d,some⟩
    · rw [deriveNone none]
    · rw [deriveSome some]
      rfl
  · unfold Control.enter
    split <;> rfl

theorem turnMessages {K : Coupling} {m m' : Master} (turn : Turn K m m') :
    ∀ p ∈ m'.slaves, ∃ c ∈ m.slaves, p.self = c.self ∧ p.messages = c.messages := by
  intro p mem
  cases turn with
  | rests => exact ⟨p,mem,rfl,rfl⟩
  | enters =>
    obtain ⟨c,inside,rfl⟩ := List.mem_map.mp mem
    have kept := enteredKept K m.toControl m.slaves c
    exact ⟨c,inside,kept.self,FMIClient.messagesOf kept.self (enteredConnected K _ _ c) kept.answered⟩

section Lasting
variable {K : Coupling} {answers : Control → FMIClient → Request → Response → Prop} {m₀ m m' : Master}

theorem stepMessages {e : Event} (configured : Master.Configured m₀) (run : Run K (.lasting answers) m₀ m)
    (step : Step K (.lasting answers) m e m') : e.slave ∈ m.addresses ∧ ∀ p ∈ m'.slaves, ∃ c ∈ m.slaves,
      p.self = c.self ∧ p.messages = c.messages ++ if e.slave = c.self then [e] else [] := by
  have lock := reachLockstep configured run
  have orderly := heardOrderly configured (runHeard run)
  have written : ∀ c ∈ m.slaves, e.slave = c.self → m.handle K e = .ok m' →
      (∀ c', e.write m.state c = .ok c' → c'.messages = c.messages ++ [e]) → e.ticks = true →
      ∀ p ∈ m'.slaves, ∃ d ∈ m.slaves, p.self = d.self ∧ p.messages = d.messages ++ if e.slave = d.self then [e] else [] := by
    intro c mem own handled sent ticks p inside
    cases handleHears orderly (own ▸ List.mem_map_of_mem mem) handled with
    | leaves quiet => cases ticks.symm.trans quiet
    | @ticks l d r c' _ _ self split written heeded turn =>
      have here : d ∈ m.slaves := split ▸ List.mem_append_right _ List.mem_cons_self
      cases List.inj_on_of_nodup_map lock.distinct mem here (own.symm.trans self)
      obtain ⟨q,old,same,silent⟩ := turnMessages turn p inside
      rw [same,silent]
      have apart : ∀ d ∈ l ++ r, e.slave ≠ d.self := fun d away clash => by
        have distinct := lock.distinct
        rw [Master.addresses,split,List.map_append,List.map_cons,List.nodup_middle,List.nodup_cons,← List.map_append] at distinct
        exact distinct.1 (own ▸ clash ▸ List.mem_map_of_mem away)
      rcases List.mem_append.mp old with left | right
      · exact ⟨q,split ▸ List.mem_append_left _ left,rfl,by rw [if_neg (apart q (List.mem_append_left _ left)),List.append_nil]⟩
      · rcases List.mem_cons.mp right with rfl | right
        · exact ⟨c,mem,heeded.self,by rw [if_pos own,sent _ written]⟩
        · refine ⟨q,split ▸ List.mem_append_right _ (List.mem_cons_of_mem _ right),rfl,?_⟩
          rw [if_neg (apart q (List.mem_append_right _ right)),List.append_nil]
  cases step with
  | @connect _ c mem down handled =>
    refine ⟨List.mem_map_of_mem mem,written c mem rfl handled (fun c' ok => ?_) rfl⟩
    cases ok
    exact FMIClient.messagesConnected (lock.phases c mem) down
  | @response _ c req rest a mem oldest fits allowed handled =>
    refine ⟨List.mem_map_of_mem mem,written c mem rfl handled (fun c' ok => ?_) rfl⟩
    obtain ⟨c₁,absorbs,absorbed⟩ := inPhaseAbsorbs (lock.phases c mem) oldest fits
    cases absorbs.symm.trans ok
    exact FMIClient.messagesAnswered absorbed.self absorbed.connected absorbed.answered
  | disconnect _ allowed => exact allowed.elim
  | error _ allowed => exact allowed.elim

theorem traceMessages {es : List Event} (configured : Master.Configured m₀) (trace : Trace K (.lasting answers) m₀ es m) :
    (∀ e ∈ es, e.slave ∈ m.addresses) ∧ ∀ c ∈ m.slaves, es.filter (·.slave = c.self) = c.messages := by
  induction trace with
  | nil =>
    refine ⟨fun e none => absurd none List.not_mem_nil,fun c mem => ?_⟩
    have client := (Master.configuredFresh configured).clients c mem
    simp [FMIClient.messages,client.connected,client.answered]
  | @snoc es e m m' before step ih =>
    have run := traceRun before
    obtain ⟨own,each⟩ := stepMessages configured run step
    have same : m'.addresses = m.addresses :=
      (lastingAddresses configured (run.tail ⟨e,step⟩)).trans (lastingAddresses configured run).symm
    rw [same]
    refine ⟨List.forall_mem_append.mpr ⟨ih.1,List.forall_mem_singleton.mpr own⟩,fun p mem => ?_⟩
    obtain ⟨c,old,self,sent⟩ := each p mem
    rw [sent,self,List.filter_append,ih.2 c old,List.filter_singleton]
    simp

theorem traceLength {es : List Event} (configured : Master.Configured m₀) (trace : Trace K (.lasting answers) m₀ es m) :
    es.length = (m.slaves.map fun c => c.messages.length).sum := by
  obtain ⟨own,each⟩ := traceMessages configured trace
  rw [← Keyed.lengthByKey Event.slave (reachLockstep configured (traceRun trace)).distinct own,Master.addresses,List.map_map]
  exact congrArg List.sum (List.map_congr_left fun c mem => congrArg List.length (each c mem))

theorem traceAnswers {es : List Event} {c : FMIClient} (configured : Master.Configured m₀)
    (trace : Trace K (.lasting answers) m₀ es m) (mem : c ∈ m.slaves) (up : c.connected = true) (idle : c.pending = []) :
    ∃ rs, es.filter (·.slave = c.self) = .connect c.self :: rs ∧
      List.Forall₂ (fun e r => ∃ a, e = .response c.self a ∧ a.answers r = true) rs c.requests := by
  have history := reachHistory (P := fun _ _ _ _ => True) (fun _ _ _ _ _ => trivial) configured (traceRun trace) c mem
  refine ⟨c.answered.map fun x => .response c.self x.response,?_,?_⟩
  · rw [(traceMessages configured trace).2 c mem,FMIClient.messages,if_pos up]
    rfl
  · rw [FMIClient.requests,idle,List.append_nil,List.forall₂_map_left_iff,List.forall₂_map_right_iff,List.forall₂_same]
    intro x inside
    obtain ⟨before,after,split⟩ := List.append_of_mem inside
    exact ⟨x.response,rfl,(historyAt history split).1⟩

end Lasting

theorem plannedLength (relativeTolerance startTime timeStep endTime : ℚ) (weak : Bool) :
    (planned relativeTolerance startTime timeStep endTime weak).length =
      3+⌈endTime/timeStep⌉₊*(if weak then 3 else 1) := by
  rw [planned,List.length_append,List.length_flatMap]
  cases weak <;> simp

theorem doneUp {c : FMIClient} (phase : InPhase .done c) : c.connected = true := by
  cases phase <;> assumption

namespace MasterMain
section Readied
variable {K : Machine} {C : Coupling} {words : List Word} {T : ℚ} {m m' : Master}

theorem readyLength {es : List Event} (ready : Ready K words m) (given : endTime K words = some T) (positive : 0 < T)
    (trace : Trace C .reliable m es m') (done : m'.state = .done) :
    es.length = slaveCount words*(4+⌈T/(timeStepSize K words).getD (1/10)⌉₊*(if couples words then 3 else 1)) := by
  have run := traceRun trace
  have sent := (readySent ready given positive run done).2
  have each : ∀ c ∈ m'.slaves, c.messages.length =
      4+⌈T/(timeStepSize K words).getD (1/10)⌉₊*(if couples words then 3 else 1) := by
    intro c mem
    have requests := congrArg List.length (sent c mem).2
    have up := doneUp (done ▸ (reachLockstep ready.configured run).phases c mem)
    rw [plannedLength,FMIClient.requests,(sent c mem).1,List.append_nil,List.length_map] at requests
    rw [FMIClient.messages,if_pos up,List.length_append,List.length_map,requests,List.length_singleton]
    omega
  rw [traceLength ready.configured trace,List.map_congr_left each,List.map_const',List.sum_replicate_nat]
  rw [← ready.count,← lastingAddresses ready.configured run,Master.addresses,List.length_map]

end Readied

/- What a master made by main() has heard when it is done: of each slave that it is connected and one
answer to each request, and nothing more whichever way these were interleaved. -/
theorem argumentsTrace {K : Machine} (C : Coupling) {words : List Word} {T : ℚ} (valid : ∀ w ∈ words, w.Valid K)
    (formed : WellFormed K words) (slaves : slaveCount words ≠ 0) (given : endTime K words = some T) :
    let h := (timeStepSize K words).getD (1/10)
    let messages := slaveCount words*(4+⌈T/h⌉₊*(if couples words then 3 else 1))
    ∃ m, main K (commandLine words) = .ok m ∧ ∀ es m', Trace C .reliable m es m' →
      es.length ≤ messages ∧ (es.length = messages ↔ m'.state = .done) ∧
      (m'.state = .done → ∀ p ∈ m.addresses, ∃ rs, es.filter (·.slave = p) = .connect p :: rs ∧
        List.Forall₂ (fun e r => ∃ a, e = .response p a ∧ a.answers r = true) rs
          (planned (1/10000) 0 h T (couples words))) := by
  intro h messages
  obtain ⟨m,ok,ready⟩ := mainReady valid formed slaves
  have positive := endTimePositive valid given
  obtain ⟨enabled,ends⟩ := readyEnds ready given
  refine ⟨m,ok,fun es m' trace => ?_⟩
  obtain ⟨m₁,rest,over_⟩ := runsOut ready.configured ready.step enabled (ends.symm ▸ positive) (readySettles ready) (traceRun trace)
  obtain ⟨ds,further⟩ := runTrace rest
  have total : es.length+ds.length = messages :=
    List.length_append.symm.trans (readyLength ready given positive (traceThen trace further) over_)
  refine ⟨total ▸ Nat.le_add_right _ _,⟨fun all => ?_,readyLength ready given positive trace⟩,fun done p mem => ?_⟩
  · have none : ds = [] := List.eq_nil_of_length_eq_zero (Nat.add_eq_left.mp (total.trans all.symm))
    subst none
    exact traceNil further ▸ over_
  · rw [← lastingAddresses ready.configured (traceRun trace)] at mem
    obtain ⟨c,inside,rfl⟩ := List.mem_map.mp mem
    obtain ⟨idle,requests⟩ := (readySent ready given positive (traceRun trace) done).2 c inside
    have up := doneUp (done ▸ (reachLockstep ready.configured (traceRun trace)).phases c inside)
    rw [← requests]
    exact traceAnswers ready.configured trace inside up idle

theorem argumentsTracePair :
    ∃ m, main plain (commandLine timedPair) = .ok m ∧ ∀ es m', Trace .perConstraint .reliable m es m' →
      es.length ≤ 68 ∧ (es.length = 68 ↔ m'.state = .done) := by
  obtain ⟨m,ok,traces⟩ := argumentsTrace .perConstraint timedValid timedFormed (by decide) rfl
  have steps : ⌈(1 : ℚ)/(1/10)⌉₊ = 10 := by norm_num
  have messages : slaveCount timedPair*(4+⌈(1 : ℚ)/(1/10)⌉₊*(if couples timedPair then 3 else 1)) = 68 := by
    rw [steps]
    decide
  refine ⟨m,ok,fun es m' trace => ?_⟩
  obtain ⟨most,exactly,_⟩ := traces es m' trace
  exact ⟨messages ▸ most,messages ▸ exactly⟩

end MasterMain
end FmiTcpMaster
