import FmiTcpMaster.ConnectionStrings
import FmiTcpMaster.Schedule
import FmiTcpMaster.Crashes

/-! From the arguments of main() to the last request. No option of main() makes a strong
connection, so what the slaves are sent is settled by the words on the command line. -/
namespace FmiTcpMaster

theorem tickBlind {m : Master} (plain : m.state ≠ .getStrongConnectorStates) (K C : Coupling) : m.tick K = m.tick C := by
  unfold Master.tick
  split <;> first | rfl | exact absurd (by assumption) plain

theorem stepBlind {K : Coupling} {E : Environment} {m m' : Master} {e : Event} (distinct : m.addresses.Nodup)
    (plain : m.state ≠ .getStrongConnectorStates) (step : Step K E m e m') (C : Coupling) : Step C E m e m' := by
  have same : ∀ c ∈ m.slaves, e.ticks = true → e.slave = c.self → m.handle K e = m.handle C e := by
    intro c mem ticks self
    obtain ⟨l,r,split⟩ := List.append_of_mem mem
    rw [handleWrites ticks self split distinct,handleWrites ticks self split distinct]
    exact congrArg _ (funext fun c' => tickBlind (m := {m with slaves := l ++ c' :: r}) plain K C)
  cases step with
  | connect mem down handled => exact .connect mem down (same _ mem rfl rfl ▸ handled)
  | response mem oldest fits allowed handled => exact .response mem oldest fits allowed (same _ mem rfl rfl ▸ handled)
  | disconnect mem allowed handled => exact .disconnect mem allowed handled
  | error mem allowed handled => exact .error mem allowed handled

section Uncoupled
variable {K : Coupling} {answers : Control → FMIClient → Request → Response → Prop} {m₀ m : Master}

theorem uncoupledState (configured : Master.Configured m₀) (nonempty : m₀.slaves ≠ [])
    (uncoupled : m₀.strongConnections = []) (run : Run K (.lasting answers) m₀ m) : m.state ≠ .getStrongConnectorStates := by
  intro strong
  obtain ⟨k,scheduled⟩ := reachScheduled configured run
  have slaves : m.slaves ≠ [] := by
    intro none
    have addresses := lastingAddresses configured run
    rw [Master.addresses,none] at addresses
    exact nonempty (List.map_eq_nil_iff.mp addresses.symm)
  obtain ⟨c,mem⟩ := List.exists_mem_of_ne_nil _ slaves
  have some : m₀.toControl.cycle.strong := sentStrong (strong ▸ scheduled.sent c mem)
  exact some uncoupled

theorem runBlind (configured : Master.Configured m₀) (nonempty : m₀.slaves ≠ []) (uncoupled : m₀.strongConnections = [])
    (C : Coupling) (run : Run K (.lasting answers) m₀ m) : Run C (.lasting answers) m₀ m := by
  induction run with
  | refl => exact .refl
  | tail run step ih =>
    obtain ⟨e,step⟩ := step
    have plain := uncoupledState configured nonempty uncoupled run
    exact ih.tail ⟨e,stepBlind (reachLockstep configured run).distinct plain step C⟩

end Uncoupled

/- Master::simulate(): the event loop runs until a handler has called exitEventLoop(), and tick()
is called once more. -/
def Master.Simulates (K : Coupling) (E : Environment) (m m' : Master) : Prop :=
  ∃ m₁, Run K E m m₁ ∧ 0 < m₁.exits ∧ m₁.tick K = .ok m'

namespace Cycle

theorem iterationUncoupled {C : Cycle} {refs : List Int} {t : ℚ} {it : List Request} (uncoupled : ¬ C.strong)
    {weak : List Request} (only : ∀ b, C.WeakPart b → b = weak) (iteration : C.Iteration refs t it) :
    it = weak ++ [.doStep t C.timeStep true] := by
  obtain ⟨strong,part⟩ := iteration
  cases strong with
  | absent => rw [List.nil_append,only _ part]
  | present strong => exact absurd strong uncoupled

theorem iterationsUncoupled {C : Cycle} {refs : List Int} {n : Nat} {all : List Request} (uncoupled : ¬ C.strong)
    {weak : List Request} (only : ∀ b, C.WeakPart b → b = weak) (its : C.Iterations refs n all) :
    all = (List.range n).flatMap fun k => weak ++ [.doStep (k*C.timeStep) C.timeStep true] := by
  induction its with
  | none => rfl
  | next _ last ih => rw [ih,iterationUncoupled uncoupled only last,List.range_succ,List.flatMap_append,List.flatMap_singleton]

theorem weakOnly (g : Control) :
    ∀ b, g.cycle.WeakPart b → b = if g.weakConnections = [] then [] else weakRequests := by
  intro b part
  cases part with
  | absent none =>
    rw [if_pos]
    by_contra some
    exact none some
  | present some => exact (if_neg some).symm

end Cycle

def planned (relativeTolerance startTime timeStep endTime : ℚ) (weak : Bool) : List Request :=
  [.getXml,.instantiate,.initializeSlave true relativeTolerance startTime true endTime] ++
    (List.range ⌈endTime/timeStep⌉₊).flatMap fun k =>
      (if weak then [.getReal [],.setReal [] []] else []) ++ [.doStep (k*timeStep) timeStep true]

theorem plannedDone {g : Control} {refs : List Int} {k : Nat} {rs : List Request} (uncoupled : g.strongConnections = [])
    (enabled : g.endTimeDefined = true) (count : k+1 = ⌈g.endTime/g.timeStep⌉₊) (sent : g.cycle.Sent refs k .done rs) :
    rs = planned g.relativeTolerance g.startTime g.timeStep g.endTime !g.weakConnections.isEmpty := by
  cases sent with
  | iterate _ begun => cases begun
  | ended all =>
    rw [Cycle.iterationsUncoupled (fun strong : g.strongConnections ≠ [] => strong uncoupled) (Cycle.weakOnly g) all,planned,count]
    cases none : g.weakConnections <;> simp [Cycle.startup,Control.cycle,Cycle.weakRequests,enabled,none]

section Ends
variable {K : Coupling} {m₀ m : Master}

theorem uncoupledSettles (configured : Master.Configured m₀) (nonempty : m₀.slaves ≠ []) (uncoupled : m₀.strongConnections = [])
    (run : Run K .reliable m₀ m) (bounds : Bounds m.toControl) (stuck : ∀ e m', ¬ Step K .reliable m e m') :
    m.state = .done := by
  have plain := uncoupledState configured nonempty uncoupled run
  have distinct := (reachLockstep configured run).distinct
  exact stuckDone configured nonempty perConstraintCouples (perConstraintOver _)
    (runBlind configured nonempty uncoupled .perConstraint run) bounds
    fun e m' step => stuck e m' (stepBlind distinct plain step K)

theorem runsOut (configured : Master.Configured m₀) (step : 0 < m₀.timeStep) (enabled : m₀.endTimeDefined = true)
    (end_ : 0 < m₀.endTime) (settles : ∀ m₁, Run K .reliable m₀ m₁ → Bounds m₁.toControl →
      (∀ e m', ¬ Step K .reliable m₁ e m') → m₁.state = .done) (run : Run K .reliable m₀ m) :
    ∃ m₁, Run K .reliable m m₁ ∧ m₁.state = .done := by
  have lock := reachLockstep configured run
  have bounds := reachBounds configured step enabled end_ run
  obtain ⟨m₁,rest,stop⟩ := Rounds.restsSomewhere (stepsTerminate lock (roundsTerminate lock bounds))
  exact ⟨m₁,rest,settles m₁ (run.trans rest) (reachBounds configured step enabled end_ (run.trans rest))
    fun e m' step => stop m' ⟨e,step⟩⟩

theorem simulates (configured : Master.Configured m₀) (step : 0 < m₀.timeStep) (enabled : m₀.endTimeDefined = true)
    (end_ : 0 < m₀.endTime) (settles : ∀ m₁, Run K .reliable m₀ m₁ → Bounds m₁.toControl →
      (∀ e m', ¬ Step K .reliable m₁ e m') → m₁.state = .done) (run : Run K .reliable m₀ m) :
    ∃ m', m.Simulates K .reliable m' := by
  obtain ⟨m₁,rest,done⟩ := runsOut configured step enabled end_ settles run
  have bounds := reachBounds configured step enabled end_ (run.trans rest)
  have exits : m₁.exits = 1 := by rw [bounds.exits,if_pos done]
  exact ⟨m₁,m₁,rest,by omega,by rw [Master.tick,done]⟩

theorem simulated (configured : Master.Configured m₀) (step : 0 < m₀.timeStep) (enabled : m₀.endTimeDefined = true)
    (end_ : 0 < m₀.endTime) (ended : m₀.Simulates K .reliable m) : Run K .reliable m₀ m ∧ m.state = .done := by
  obtain ⟨m₁,run,exits,ticked⟩ := ended
  have bounds := reachBounds configured step enabled end_ run
  have done : m₁.state = .done := by
    by_contra running
    rw [bounds.exits,if_neg running] at exits
    contradiction
  rw [Master.tick,done] at ticked
  cases Except.ok.inj ticked
  exact ⟨run,done⟩

theorem doneSent (configured : Master.Configured m₀) (step : 0 < m₀.timeStep) (enabled : m₀.endTimeDefined = true)
    (end_ : 0 < m₀.endTime) (run : Run K .reliable m₀ m) (done : m.state = .done) :
    m.time = ⌈m₀.endTime/m₀.timeStep⌉₊*m₀.timeStep ∧
      ∃ k, k+1 = ⌈m₀.endTime/m₀.timeStep⌉₊ ∧ ∀ c ∈ m.slaves, c.pending = [] ∧
        m₀.toControl.cycle.Sent c.getStrongConnectorValueReferences k .done c.requests := by
  obtain ⟨k,scheduled⟩ := reachScheduled configured run
  have count := iterationsOver scheduled.clock (reachBounds configured step enabled end_ run) done
  refine ⟨?_,k,count,fun c mem => ⟨?_,done ▸ scheduled.sent c mem⟩⟩
  · rw [← count,scheduled.clock.time,Control.elapsed,if_pos (Or.inr done)]
  · exact doneIdle (done ▸ (reachLockstep configured run).phases c mem)

end Ends

namespace MasterMain

def Word.timeStepSize (K : Machine) : Word → Option ℚ
  | .timeStep nextArg => some (K.atof nextArg)
  | _ => none

def Word.endTime (K : Machine) : Word → Option ℚ
  | .stopAfter nextArg => some (K.atof nextArg)
  | _ => none

def timeStepSize (K : Machine) (words : List Word) : Option ℚ := (words.filterMap (Word.timeStepSize K)).getLast?
def endTime (K : Machine) (words : List Word) : Option ℚ := (words.filterMap (Word.endTime K)).getLast?

structure Sets (K : Machine) (words : List Word) (m m' : Master) : Prop where
  timeStep : m'.timeStep = (timeStepSize K words).getD m.timeStep
  endTimeDefined : m'.endTimeDefined = ((endTime K words).isSome || m.endTimeDefined)
  endTime : m'.endTime = (endTime K words).getD m.endTime
  kept : m'.relativeTolerance = m.relativeTolerance ∧ m'.startTime = m.startTime ∧
    m'.strongConnections = m.strongConnections

theorem setsThen {K : Machine} {ws vs : List Word} {m m₁ m₂ : Master} (first : Sets K ws m m₁) (then_ : Sets K vs m₁ m₂) :
    Sets K (ws ++ vs) m m₂ := by
  have sizes : timeStepSize K (ws ++ vs) = (timeStepSize K vs).or (timeStepSize K ws) := by
    rw [timeStepSize,List.filterMap_append,List.getLast?_append]
    rfl
  have ends : MasterMain.endTime K (ws ++ vs) = (MasterMain.endTime K vs).or (MasterMain.endTime K ws) := by
    rw [MasterMain.endTime,List.filterMap_append,List.getLast?_append]
    rfl
  refine ⟨?_,?_,?_,?_,?_,?_⟩
  · rw [then_.timeStep,first.timeStep,sizes,Option.getD_or]
  · rw [then_.endTimeDefined,first.endTimeDefined,ends,Option.isSome_or,Bool.or_assoc]
  · rw [then_.endTime,first.endTime,ends,Option.getD_or]
  · exact then_.kept.1.trans first.kept.1
  · exact then_.kept.2.1.trans first.kept.2.1
  · exact then_.kept.2.2.trans first.kept.2.2

theorem readSets {K : Machine} {s s' : State} {word : Word} (ok : word.read K s = .ok s') :
    Sets K [word] s.master s'.master := by
  cases word with
  | timeStep nextArg =>
    simp only [Word.read] at ok
    split at ok <;> try contradiction
    cases Except.ok.inj ok
    exact ⟨rfl,rfl,rfl,rfl,rfl,rfl⟩
  | stopAfter nextArg =>
    simp only [Word.read] at ok
    split at ok <;> try contradiction
    cases Except.ok.inj ok
    exact ⟨rfl,rfl,rfl,rfl,rfl,rfl⟩
  | weakMethod nextArg =>
    simp only [Word.read] at ok
    split at ok
    · cases Except.ok.inj ok
      exact ⟨rfl,rfl,rfl,rfl,rfl,rfl⟩
    · split at ok <;> try contradiction
      cases Except.ok.inj ok
      exact ⟨rfl,rfl,rfl,rfl,rfl,rfl⟩
  | weakConnections nextArg =>
    obtain ⟨_,_,rfl⟩ := mapSource ok
    exact ⟨rfl,rfl,rfl,rfl,rfl,rfl⟩
  | strongConnections nextArg =>
    obtain ⟨_,_,rfl⟩ := mapSource ok
    exact ⟨rfl,rfl,rfl,rfl,rfl,rfl⟩
  | debug =>
    cases Except.ok.inj ok
    exact ⟨rfl,rfl,rfl,rfl,rfl,rfl⟩
  | url arg =>
    obtain ⟨⟨slave,master⟩,connected,rfl⟩ := mapSource ok
    obtain ⟨host,port,_,rfl,rfl⟩ := Master.connectSlaveSource connected
    exact ⟨rfl,rfl,rfl,rfl,rfl,rfl⟩

theorem wordsSet {K : Machine} {s s' : State} {words : List Word} (ok : words.foldlM (Word.read K) s = .ok s') :
    Sets K words s.master s'.master := by
  induction words generalizing s with
  | nil =>
    cases Except.ok.inj ok
    exact ⟨rfl,rfl,rfl,rfl,rfl,rfl⟩
  | cons w ws ih =>
    rw [List.foldlM_cons] at ok
    obtain ⟨s₁,read,rest⟩ := Master.bindOk ok
    exact setsThen (readSets read) (ih rest)

theorem mainSets {K : Machine} {words : List Word} {m : Master} (valid : ∀ w ∈ words, w.Valid K)
    (ok : main K (commandLine words) = .ok m) : Sets K words start.master m := by
  rw [main,commandLineWords valid] at ok
  obtain ⟨s,read,made⟩ := Master.bindOk ok
  have sound : s.Sound := Text.foldHolds (fun _ _ _ sound read => readSound sound read) startSound read
  obtain ⟨qs,together⟩ := sound.weak
  rw [together] at made
  obtain ⟨ws,_,rfl⟩ := Connections.createSource made
  have sets := wordsSet read
  exact ⟨sets.timeStep,sets.endTimeDefined,sets.endTime,sets.kept⟩

theorem timeStepPositive {K : Machine} {words : List Word} (valid : ∀ w ∈ words, w.Valid K) :
    0 < (timeStepSize K words).getD (1/10) := by
  cases given : timeStepSize K words with
  | none => norm_num
  | some h =>
    obtain ⟨w,mem,size⟩ := List.mem_filterMap.mp (List.mem_of_getLast? given)
    have positive := valid w mem
    cases w with
    | timeStep nextArg => cases size; exact positive
    | _ => cases size

theorem endTimePositive {K : Machine} {words : List Word} {T : ℚ} (valid : ∀ w ∈ words, w.Valid K)
    (given : endTime K words = some T) : 0 < T := by
  obtain ⟨w,mem,size⟩ := List.mem_filterMap.mp (List.mem_of_getLast? given)
  have positive := valid w mem
  cases w with
  | stopAfter nextArg => cases size; exact positive
  | _ => cases size

theorem spellsNothing {arg : String} {conns : List Connections.Conn} (spells : Connections.Spells arg conns) :
    conns = [] ↔ arg = "" := by
  constructor
  · rintro rfl
    exact spells.text
  · rintro rfl
    have entries := Connections.splitConns spells.integers
    rw [← spells.text] at entries
    exact List.map_eq_nil_iff.mp entries.symm

theorem spellsAll {args : List String} {connss : List (List Connections.Conn)}
    (spells : List.Forall₂ Connections.Spells args connss) : connss.flatten = [] ↔ ∀ arg ∈ args, arg = "" := by
  induction spells with
  | nil => simp
  | cons first _ ih => rw [List.flatten_cons,List.append_eq_nil_iff,ih,spellsNothing first,List.forall_mem_cons]

def couples (words : List Word) : Bool := (weakStrings words).any (· ≠ "")

theorem mainMakes {K : Machine} {words : List Word} (valid : ∀ w ∈ words, w.Valid K) (formed : WellFormed K words) :
    ∃ m, main K (commandLine words) = .ok m ∧ m.addresses.length = slaveCount words ∧
      (!m.weakConnections.isEmpty) = couples words := by
  obtain ⟨m,ok⟩ := wellFormedRuns valid formed
  obtain ⟨connss,both⟩ := chosen formed.weak
  have spells := both.imp fun _ _ h => h.1
  obtain ⟨m₀,count,none,made⟩ := mainAt valid spells formed.strong
  obtain ⟨ws,created,rfl⟩ := Connections.createSource (made.symm.trans ok)
  refine ⟨_,ok,count,?_⟩
  have empty : ws = [] ↔ ∀ arg ∈ weakStrings words, arg = "" := by
    rw [← spellsAll spells,← List.length_eq_zero_iff,← created.length_eq,List.length_map,List.length_eq_zero_iff]
  rw [Bool.eq_iff_iff]
  simp [none,couples,empty]

structure Ready (K : Machine) (words : List Word) (m : Master) : Prop where
  configured : Master.Configured m
  sets : Sets K words start.master m
  count : m.addresses.length = slaveCount words
  coupled : (!m.weakConnections.isEmpty) = couples words
  nonempty : m.slaves ≠ []
  step : 0 < m.timeStep

theorem mainReady {K : Machine} {words : List Word} (valid : ∀ w ∈ words, w.Valid K) (formed : WellFormed K words)
    (slaves : slaveCount words ≠ 0) : ∃ m, main K (commandLine words) = .ok m ∧ Ready K words m := by
  obtain ⟨m,ok,count,coupled⟩ := mainMakes valid formed
  have sets := mainSets valid ok
  refine ⟨m,ok,mainConfigured ok,sets,count,coupled,fun none => ?_,?_⟩
  · rw [Master.addresses,none] at count
    exact slaves count.symm
  · rw [sets.timeStep]
    exact timeStepPositive valid

section Readied
variable {K : Machine} {C : Coupling} {words : List Word} {T : ℚ} {m m' : Master}

theorem readyEnds (ready : Ready K words m) (given : endTime K words = some T) : m.endTimeDefined = true ∧ m.endTime = T := by
  rw [ready.sets.endTimeDefined,ready.sets.endTime,given]
  exact ⟨rfl,rfl⟩

theorem readySettles (ready : Ready K words m) : ∀ m₁, Run C .reliable m m₁ → Bounds m₁.toControl →
    (∀ e m', ¬ Step C .reliable m₁ e m') → m₁.state = .done :=
  fun _ => uncoupledSettles ready.configured ready.nonempty ready.sets.kept.2.2

theorem readySent (ready : Ready K words m) (given : endTime K words = some T) (positive : 0 < T)
    (run : Run C .reliable m m') (done : m'.state = .done) :
    let h := (timeStepSize K words).getD (1/10)
    m'.time = ⌈T/h⌉₊*h ∧ ∀ c ∈ m'.slaves, c.pending = [] ∧ c.requests = planned (1/10000) 0 h T (couples words) := by
  intro h
  obtain ⟨enabled,ends⟩ := readyEnds ready given
  have size : m.timeStep = h := ready.sets.timeStep
  obtain ⟨time,k,iterations,slaves⟩ := doneSent ready.configured ready.step enabled (ends.symm ▸ positive) run done
  rw [size,ends] at time
  refine ⟨time,fun c mem => ⟨(slaves c mem).1,?_⟩⟩
  have requests := plannedDone ready.sets.kept.2.2 enabled iterations (slaves c mem).2
  rwa [ready.sets.kept.1,ready.sets.kept.2.1,size,ends,ready.coupled] at requests

end Readied

/- The command lines of the help, run to the end: whichever way the slaves' answers are interleaved,
the simulation ends, and every slave has been sent the same requests, which the words determine. -/
theorem argumentsSimulate {K : Machine} (C : Coupling) {words : List Word} (valid : ∀ w ∈ words, w.Valid K)
    (formed : WellFormed K words) (slaves : slaveCount words ≠ 0) :
    let h := (timeStepSize K words).getD (1/10)
    ∃ m, main K (commandLine words) = .ok m ∧
      (∀ T, endTime K words = some T →
        (¬ ∃ run : Nat → Master, run 0 = m ∧ ∀ n, ∃ e, Step C .reliable (run n) e (run (n+1))) ∧
        (∀ m₁, Run C .reliable m m₁ → ∃ m', m₁.Simulates C .reliable m') ∧
        ∀ m', m.Simulates C .reliable m' → m'.state = .done ∧ m'.slaves.length = slaveCount words ∧
          m'.time = ⌈T/h⌉₊*h ∧
          ∀ c ∈ m'.slaves, c.pending = [] ∧ c.requests = planned (1/10000) 0 h T (couples words)) ∧
      (endTime K words = none → ∀ E m', Run C E m m' → m'.state ≠ .done) := by
  intro h
  obtain ⟨m,ok,ready⟩ := mainReady valid formed slaves
  refine ⟨m,ok,fun T given => ?_,fun none E m' run => ?_⟩
  · obtain ⟨enabled,ends⟩ := readyEnds ready given
    have positive := endTimePositive valid given
    have end_ : 0 < m.endTime := ends.symm ▸ positive
    refine ⟨?_,fun m₁ run => simulates ready.configured ready.step enabled end_ (readySettles ready) run,fun m' ended => ?_⟩
    · have lock := freshLockstep (Master.configuredFresh ready.configured)
      have bounds := reachBounds ready.configured ready.step enabled end_ (.refl : Run C .reliable m m)
      exact Rounds.noInfiniteRun (stepsTerminate lock (roundsTerminate lock bounds))
    · obtain ⟨run,done⟩ := simulated ready.configured ready.step enabled end_ ended
      have addresses := lastingAddresses ready.configured run
      refine ⟨done,?_,readySent ready given positive run done⟩
      rw [← ready.count,← addresses,Master.addresses,List.length_map]
  · have unlimited : m.endTimeDefined = false := by rw [ready.sets.endTimeDefined,none]; rfl
    exact reachUnlimited ready.configured unlimited run

def timedPair : List Word := .stopAfter "1" :: pairWith [entry "0" "1" "1" "2"]

theorem timedValid : ∀ w ∈ timedPair, w.Valid plain :=
  List.forall_mem_cons.mpr ⟨(by decide : (0 : ℚ) < 1),pairValid _⟩

theorem timedFormed : WellFormed plain timedPair := by
  refine ⟨fun arg mem => ?_,fun _ mem => absurd mem List.not_mem_nil⟩
  cases List.mem_singleton.mp mem
  have positive : ∀ c ∈ [entry "0" "1" "1" "2"], Positive 2 c :=
    List.forall_mem_singleton.mpr ⟨by decide,by decide,by decide⟩
  exact ⟨_,positiveSpells positive,List.forall_mem_singleton.mpr ⟨by decide,by decide⟩⟩

theorem argumentsSimulatePair :
    ∃ m, main plain (commandLine (.stopAfter "1" :: pairWith [entry "0" "1" "1" "2"])) = .ok m ∧
      ∀ m', m.Simulates .perConstraint .reliable m' → m'.state = .done ∧
        ∀ c ∈ m'.slaves, c.requests = planned (1/10000) 0 (1/10) 1 true := by
  obtain ⟨m,ok,ends,_⟩ := argumentsSimulate .perConstraint timedValid timedFormed (by decide)
  refine ⟨m,ok,fun m' simulated => ?_⟩
  obtain ⟨done,_,_,requests⟩ := (ends 1 rfl).2.2 m' simulated
  exact ⟨done,fun c mem => (requests c mem).2⟩

end MasterMain
end FmiTcpMaster
