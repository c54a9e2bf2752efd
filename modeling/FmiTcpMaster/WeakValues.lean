import FmiTcpMaster.Cycle

/-! What a weak connection is for: a value read at its source and written at its target in the
same iteration. The requests of both phases are sent without references. -/
namespace FmiTcpMaster

def Request.reads : Request → Bool
  | .getReal _ => true
  | _ => false

def lastReading (xs : List Exchange) : Option Exchange := xs.reverse.find? fun x => x.request.reads

def sinceReading (rs : List Request) : List Request := (rs.reverse.takeWhile fun r => !r.reads).reverse

def Exchange.Reports (x : Exchange) (vr : Int) (v : ℚ) : Prop :=
  ∃ refs values status, x = ⟨.getReal refs,.getReal values status⟩ ∧ (vr,v) ∈ refs.zip values

namespace FMIClient

def Asked (c : FMIClient) (vr : Int) : Prop := ∃ refs, c.requests.getLast? = some (.getReal refs) ∧ vr ∈ refs

def Assigned (c : FMIClient) (vr : Int) (v : ℚ) : Prop :=
  ∃ refs values, .setReal refs values ∈ sinceReading c.requests ∧ (vr,v) ∈ refs.zip values

end FMIClient

namespace Master

def Reads (m : Master) (w : WeakConnection) : Prop :=
  ∀ a ∈ m.slaves, a.self = w.slaveA → a.Asked w.valueRefA

def Carries (m : Master) (w : WeakConnection) : Prop :=
  ∀ a ∈ m.slaves, a.self = w.slaveA → ∀ b ∈ m.slaves, b.self = w.slaveB →
    ∃ x v, lastReading a.answered = some x ∧ x.Reports w.valueRefA v ∧ b.Assigned w.valueRefB v

def WritesOnly (m : Master) : Prop :=
  ∀ b ∈ m.slaves, ∀ refs values, .setReal refs values ∈ sinceReading b.requests → ∀ r ∈ refs,
    ∃ w ∈ m.weakConnections, w.slaveB = b.self ∧ w.valueRefB = r

end Master

theorem lastReadingRequest (xs : List Exchange) :
    (lastReading xs).map Exchange.request = (xs.map Exchange.request).reverse.find? Request.reads := by
  rw [lastReading,← List.map_reverse,List.find?_map]
  rfl

theorem sentWeakGet {C : Cycle} {refs : List Int} {k : Nat} {rs : List Request} (sent : C.Sent refs k .getWeakReals rs) :
    rs.getLast? = some (.getReal []) := by
  cases sent with
  | iterate before begun =>
    cases begun with
    | getWeak => simp

theorem sentWeakStep {C : Cycle} {refs : List Int} {k : Nat} {rs : List Request} (weak : C.weak)
    (sent : C.Sent refs k .steppingSlaves rs) :
    ∃ head t h, rs = head ++ [.getReal [],.setReal [] [],.doStep t h true] := by
  cases sent with
  | @iterate k all _ part before begun =>
    cases begun with
    | step iteration =>
      obtain @⟨a,_,_,some⟩ := iteration
      cases some with
      | absent none => exact absurd weak none
      | present => exact ⟨C.startup ++ all ++ a,k*C.timeStep,C.timeStep,by simp [Cycle.weakRequests]⟩

theorem steppingAnswered {s : MasterState} {c : FMIClient} {head : List Request} {t h : ℚ} (phase : InPhase s c)
    (sent : c.requests = head ++ [.getReal [],.setReal [] [],.doStep t h true]) :
    (c.answered.map Exchange.request).reverse.find? Request.reads = some (.getReal []) := by
  rcases FMIClient.noneOrOne (inPhasePending phase).1 with none | ⟨r,one⟩
  · rw [FMIClient.requests,none,List.append_nil] at sent
    rw [sent]
    simp [Request.reads]
  · rw [FMIClient.requests,one,show head ++ [.getReal [],.setReal [] [],.doStep t h true] =
      (head ++ [.getReal [],.setReal [] []]) ++ [.doStep t h true] by simp] at sent
    rw [(List.append_inj' sent rfl).1]
    simp [Request.reads]

theorem weakNeverAsked {c : FMIClient} (last : c.requests.getLast? = some (.getReal [])) (vr : Int) : ¬ c.Asked vr := by
  rintro ⟨refs,asked,mem⟩
  cases Option.some.inj (last.symm.trans asked)
  cases mem

theorem weakNeverReported {xs : List Exchange} {x : Exchange} {vr : Int} {v : ℚ}
    (read : (xs.map Exchange.request).reverse.find? Request.reads = some (.getReal []))
    (last : lastReading xs = some x) : ¬ x.Reports vr v := by
  rintro ⟨refs,values,status,rfl,mem⟩
  have request := lastReadingRequest xs
  rw [last,read] at request
  cases Option.some.inj request
  simp at mem

theorem nothingWritten {g : Control} {refs : List Int} {k : Nat} {s : MasterState} {rs : List Request}
    (sent : g.cycle.Sent refs k s rs) {written : List Int} {values : List ℚ} (mem : .setReal written values ∈ rs) :
    written = [] := by
  rcases Cycle.sentItems sent _ mem with startup | ⟨j,_,item⟩
  · simp [Cycle.startup,Control.cycle] at startup
  · cases item
    rfl

theorem weakOf {g₀ g : Control} {k : Nat} (clock : Clock g₀ k g) {w : WeakConnection} (mem : w ∈ g.weakConnections) :
    g₀.cycle.weak := by
  rw [← clockCycle clock]
  exact List.ne_nil_of_mem mem

/- Neither phase carries anything: a connection counts as served only when one of its slaves has
left. Nothing wrong is written, as nothing is written at all. -/
theorem weakValuesExact {K : Coupling} {E : Environment} {m₀ m : Master} (configured : Master.Configured m₀)
    (run : Run K E m₀ m) :
    (m.state = .getWeakReals → ((∀ w ∈ m.weakConnections, m.Reads w) ↔
      ∀ w ∈ m.weakConnections, w.slaveA ∉ m.addresses)) ∧
    (m.state = .steppingSlaves → (((∀ w ∈ m.weakConnections, m.Carries w) ∧ m.WritesOnly) ↔
      ∀ w ∈ m.weakConnections, ¬ (w.slaveA ∈ m.addresses ∧ w.slaveB ∈ m.addresses))) := by
  have lock := reachLockstep configured run
  obtain ⟨k,scheduled⟩ := reachScheduled configured run
  constructor
  · intro phase
    refine forall₂_congr fun w _ => ⟨fun reads inside => ?_,fun gone a mem same => ?_⟩
    · obtain ⟨a,mem,same⟩ := List.mem_map.mp inside
      exact weakNeverAsked (sentWeakGet (phase ▸ scheduled.sent a mem)) _ (reads a mem same)
    · exact absurd (List.mem_map.mpr ⟨a,mem,same⟩) gone
  · intro phase
    have tail : m.weakConnections ≠ [] → ∀ c ∈ m.slaves, ∃ head t h,
        c.requests = head ++ [.getReal [],.setReal [] [],.doStep t h true] := by
      intro some c mem
      obtain ⟨w,inside⟩ := List.exists_mem_of_ne_nil _ some
      exact sentWeakStep (weakOf scheduled.clock inside) (phase ▸ scheduled.sent c mem)
    constructor
    · rintro ⟨carries,_⟩ w inside ⟨source,target⟩
      obtain ⟨a,memA,sameA⟩ := List.mem_map.mp source
      obtain ⟨b,memB,sameB⟩ := List.mem_map.mp target
      obtain ⟨x,v,last,reports,_⟩ := carries w inside a memA sameA b memB sameB
      obtain ⟨head,t,h,sent⟩ := tail (List.ne_nil_of_mem inside) a memA
      exact weakNeverReported (steppingAnswered (lock.phases a memA) sent) last reports
    · intro gone
      refine ⟨fun w inside a memA sameA b memB sameB => ?_,fun b mem refs values written r inside => ?_⟩
      · exact absurd ⟨List.mem_map.mpr ⟨a,memA,sameA⟩,List.mem_map.mpr ⟨b,memB,sameB⟩⟩ (gone w inside)
      · have all : .setReal refs values ∈ b.requests :=
          List.mem_reverse.mp ((List.takeWhile_sublist _).subset (List.mem_reverse.mp written))
        rw [nothingWritten (scheduled.sent b mem) all] at inside
        cases inside

def weakPair : Master := Master.pair.createWeakConnection 1 2 5 6

theorem weakPairConfigured : Master.Configured weakPair :=
  .createWeakConnection Master.pairConfigured ⟨by decide,by decide⟩ 5 6

def Event.weakReading : List Event := Event.startup ++ Event.both (.initializeSlave .ok)

def Event.weakStep : List Event := Event.weakReading ++ Event.both (.getReal [] .ok) ++ Event.both (.setReal .ok)

theorem weakValuesExactPair :
    let m := weakPair.after .perConstraint Event.weakReading
    m.state = .getWeakReals ∧ ((∀ w ∈ m.weakConnections, m.Reads w) ↔ ∀ w ∈ m.weakConnections, w.slaveA ∉ m.addresses) := by
  intro m
  have phase : m.state = .getWeakReals := by decide +kernel
  have run : Run .perConstraint .anything weakPair m := Master.afterRun _ (fun e _ => anythingAlways e) (by decide +kernel)
  exact ⟨phase,(weakValuesExact weakPairConfigured run).1 phase⟩

theorem weakValuesLost :
    (¬ ∀ m, Run .perConstraint .anything weakPair m → m.state = .getWeakReals → ∀ w ∈ m.weakConnections, m.Reads w) ∧
    ¬ ∀ m, Run .perConstraint .anything weakPair m → m.state = .steppingSlaves → ∀ w ∈ m.weakConnections, m.Carries w := by
  constructor
  · intro reads
    have run := Master.afterRun (K := .perConstraint) (m := weakPair) Event.weakReading (fun e _ => anythingAlways e)
      (by decide +kernel)
    obtain ⟨a,mem,source,last⟩ : ∃ a ∈ (weakPair.after .perConstraint Event.weakReading).slaves, a.self = 1 ∧
        a.requests.getLast? = some (.getReal []) := by decide +kernel
    exact weakNeverAsked last 5 (reads _ run (by decide +kernel) ⟨1,2,5,6⟩ (by decide +kernel) a mem source)
  · intro carries
    have run := Master.afterRun (K := .perConstraint) (m := weakPair) Event.weakStep (fun e _ => anythingAlways e)
      (by decide +kernel)
    obtain ⟨a,memA,source,read⟩ : ∃ a ∈ (weakPair.after .perConstraint Event.weakStep).slaves, a.self = 1 ∧
        (a.answered.map Exchange.request).reverse.find? Request.reads = some (.getReal []) := by decide +kernel
    obtain ⟨b,memB,target⟩ : ∃ b ∈ (weakPair.after .perConstraint Event.weakStep).slaves, b.self = 2 := by decide +kernel
    obtain ⟨x,v,last,reports,_⟩ :=
      carries _ run (by decide +kernel) ⟨1,2,5,6⟩ (by decide +kernel) a memA source b memB target
    exact weakNeverReported read last reports

end FmiTcpMaster
