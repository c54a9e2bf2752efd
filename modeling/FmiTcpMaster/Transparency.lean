import FmiTcpMaster.Containment
import FmiTcpMaster.Rewind
import FmiTcpMaster.Timing

/-! What the whole cycle amounts to for the FMU of one slave: a plain loop of do_step calls. The
speculation is taken back, and everything else in an iteration reads or writes nothing. -/
namespace FmiTcpMaster

def MasterState.speculating : MasterState → Bool
  | .steppingSlavesForFutureVelo | .gettingFutureVelo | .settingStates => true
  | _ => false

def Request.passive : Request → Bool
  | .getReal _ | .getDirectionalDerivative _ | .setReal [] [] => true
  | _ => false

def performed (rs : List Request) : List Request := rs.take 3 ++ finalSteps rs

def ZeroIds (xs : List Exchange) : Prop :=
  ∀ x ∈ xs, x.response.answers x.request = true ∧ ∀ id status, x.response = .getFmuState id status → id = 0

section Fmu
variable {S : Type} {exec : S → Request → S}

/- The loop that the master is for, on one FMU: start up, then n steps of size h. -/
def Cycle.plain (C : Cycle) (exec : S → Request → S) (s : S) : Nat → S
  | 0 => C.startup.foldl exec s
  | n+1 => exec (C.plain exec s n) (.doStep (n*C.timeStep) C.timeStep true)

theorem plainSteps (C : Cycle) (exec : S → Request → S) (s : S) (n : Nat) :
    (C.startup ++ (List.range n).map fun k : Nat => Request.doStep (k*C.timeStep) C.timeStep true).foldl exec s = C.plain exec s n := by
  induction n with
  | zero => simp [Cycle.plain]
  | succ n ih =>
    rw [List.range_succ,List.map_append,← List.append_assoc,List.foldl_append,ih]
    rfl

namespace Snapshots

def Passive (exec : S → Request → S) : Prop := ∀ s r, r.passive = true → exec s r = s

theorem afterAppend (f : Snapshots S) (xs ys : List Exchange) :
    f.after exec (xs ++ ys) = (f.after exec xs).after exec ys := List.foldl_append

theorem exchangePassive (harmless : Passive exec) (f : Snapshots S) {x : Exchange} (passive : x.request.passive = true) :
    f.exchange exec x = f := by
  obtain ⟨r,a⟩ := x
  cases r with
  | getFmuState | setFmuState => cases passive
  | _ => exact congrArg (Snapshots.mk · f.store) (harmless f.current _ passive)

theorem afterPassive (harmless : Passive exec) (f : Snapshots S) {xs : List Exchange}
    (passive : ∀ r ∈ xs.map Exchange.request, r.passive = true) : f.after exec xs = f := by
  induction xs generalizing f with
  | nil => rfl
  | cons x xs ih =>
    rw [List.map_cons,List.forall_mem_cons] at passive
    rw [after,List.foldl_cons,exchangePassive harmless f passive.1]
    exact ih f passive.2

def Follows (exec : S → Request → S) (rs : List Request) : Prop :=
  ∀ (f : Snapshots S) (xs : List Exchange), xs.map Exchange.request = rs → ZeroIds xs →
    (f.after exec xs).current = (finalSteps rs).foldl exec f.current

structure Plain (exec : S → Request → S) (rs : List Request) : Prop where
  splits : ∀ rest, finalSteps (rs ++ rest) = finalSteps rs ++ finalSteps rest
  follows : Follows exec rs

theorem zeroIdsSplit {xs ys : List Exchange} (zero : ZeroIds (xs ++ ys)) : ZeroIds xs ∧ ZeroIds ys :=
  List.forall_mem_append.mp zero

theorem plainThen {as bs : List Request} (first : Plain exec as) (then_ : Follows exec bs) : Follows exec (as ++ bs) := by
  intro f xs same zero
  obtain ⟨ys,zs,rfl,left,right⟩ := List.map_eq_append_iff.mp same
  obtain ⟨zero,zero'⟩ := zeroIdsSplit zero
  rw [afterAppend,then_ _ zs right zero',first.follows f ys left zero,first.splits,List.foldl_append]

theorem plainAppend {as bs : List Request} (first : Plain exec as) (then_ : Plain exec bs) : Plain exec (as ++ bs) := by
  refine ⟨fun rest => ?_,plainThen first then_.follows⟩
  rw [List.append_assoc,first.splits,then_.splits,first.splits,List.append_assoc]

theorem finalsPassive {rs : List Request} (passive : ∀ r ∈ rs, r.passive = true) (rest : List Request) :
    finalSteps (rs ++ rest) = finalSteps rest := by
  induction rs with
  | nil => rfl
  | cons r rs ih =>
    rw [List.forall_mem_cons] at passive
    obtain ⟨head,tail⟩ := passive
    have next := ih tail
    cases r <;> simp only [Request.passive,Bool.false_eq_true] at head <;> exact next

theorem plainPassive (harmless : Passive exec) {rs : List Request} (passive : ∀ r ∈ rs, r.passive = true) :
    Plain exec rs := by
  have none : finalSteps rs = [] := by
    have all := finalsPassive passive []
    rwa [List.append_nil] at all
  refine ⟨fun rest => by rw [finalsPassive passive,none,List.nil_append],fun f xs same zero => ?_⟩
  rw [afterPassive harmless f (same ▸ passive),none]
  rfl

theorem plainStep (t h : ℚ) : Plain exec [.doStep t h true] := by
  refine ⟨fun rest => rfl,fun f xs same _ => ?_⟩
  obtain ⟨x,rfl⟩ : ∃ x, xs = [x] := List.length_eq_one_iff.mp (by rw [← List.length_map Exchange.request,same]; rfl)
  obtain ⟨r,a⟩ := x
  cases List.head_eq_of_cons_eq same
  rfl

theorem plainRewound (C : Cycle) (refs : List Int) (t : ℚ) :
    Plain exec (C.rewindRequests refs t ++ [.setFmuState 0]) := by
  refine ⟨fun rest => rfl,fun f xs same zero => ?_⟩
  obtain ⟨ys,zs,rfl,rewind,last⟩ := List.map_eq_append_iff.mp same
  obtain ⟨x,y,z,rfl⟩ : ∃ x y z, ys = [x,y,z] := List.length_eq_three.mp (by
    rw [← List.length_map Exchange.request,rewind]; rfl)
  obtain ⟨w,rfl⟩ : ∃ w, zs = [w] := List.length_eq_one_iff.mp (by rw [← List.length_map Exchange.request,last]; rfl)
  obtain ⟨fits,id⟩ := zero x (by simp)
  obtain ⟨r,a⟩ := x
  obtain ⟨r',a'⟩ := y
  obtain ⟨r'',a''⟩ := z
  obtain ⟨r₀,a₀⟩ := w
  simp only [Cycle.rewindRequests,List.map_cons,List.map_nil,List.cons.injEq,and_true] at rewind last
  obtain ⟨rfl,rfl,rfl⟩ := rewind
  subst last
  cases a <;> simp only [Response.answers,Bool.false_eq_true] at fits
  cases id _ _ rfl
  exact rewindCurrent exec f []

theorem plainStrong (harmless : Passive exec) {C : Cycle} {refs : List Int} {t : ℚ} {a : List Request}
    (strong : C.StrongPart refs t a) : Plain exec a := by
  cases strong with
  | absent => exact plainPassive harmless fun _ mem => by cases mem
  | present _ ds =>
    have tail : Plain exec ([.getReal refs] ++ ds.map .getDirectionalDerivative ++ [.setReal [] []]) := by
      refine plainPassive harmless fun r mem => ?_
      simp only [List.mem_append,List.mem_singleton,List.mem_map] at mem
      rcases mem with (rfl | ⟨d,_,rfl⟩) | rfl <;> rfl
    have whole := plainAppend (plainRewound C refs t) tail
    simpa [Cycle.strongRequests,Cycle.rewindRequests] using whole

theorem plainWeak (harmless : Passive exec) {C : Cycle} {b : List Request} (weak : C.WeakPart b) : Plain exec b := by
  refine plainPassive harmless fun r mem => ?_
  cases weak with
  | absent => cases mem
  | present =>
    simp only [Cycle.weakRequests,List.mem_cons,List.not_mem_nil,or_false] at mem
    rcases mem with rfl | rfl <;> rfl

theorem plainIteration (harmless : Passive exec) {C : Cycle} {refs : List Int} {t : ℚ} {it : List Request}
    (iteration : C.Iteration refs t it) : Plain exec it := by
  obtain ⟨strong,weak⟩ := iteration
  exact plainAppend (plainAppend (plainStrong harmless strong) (plainWeak harmless weak)) (plainStep t C.timeStep)

theorem plainIterations (harmless : Passive exec) {C : Cycle} {refs : List Int} {n : Nat} {all : List Request}
    (its : C.Iterations refs n all) : Plain exec all := by
  induction its with
  | none => exact plainPassive harmless fun _ mem => by cases mem
  | next _ last ih => exact plainAppend ih (plainIteration harmless last)

theorem openTail {base tail done pending : List Request} (split : done ++ pending = base ++ tail)
    (short : pending.length ≤ 1) (some : tail ≠ []) : ∃ first, done = base ++ first ∧ first ++ pending = tail := by
  rcases List.append_eq_append_iff.mp split with ⟨more,same,rest⟩ | ⟨more,same,rest⟩
  · cases more with
    | nil => exact ⟨[],by simpa using same.symm,by simpa using rest⟩
    | cons r more =>
      rw [rest,List.length_append,List.length_cons] at short
      have none : tail.length = 0 := by omega
      exact absurd (List.eq_nil_of_length_eq_zero none) some
  · exact ⟨more,same,rest.symm⟩

theorem followsPassive (harmless : Passive exec) {base tail done pending : List Request} (plain : Plain exec base)
    (split : done ++ pending = base ++ tail) (short : pending.length ≤ 1) (some : tail ≠ [])
    (passive : ∀ r ∈ tail, r.passive = true) : Follows exec done := by
  obtain ⟨first,rfl,rfl⟩ := openTail split short some
  exact plainThen plain (plainPassive harmless fun r mem => passive r (List.mem_append_left _ mem)).follows

theorem followsLast {base done pending : List Request} {r : Request} (plain : Plain exec base) (last : Follows exec [r])
    (split : done ++ pending = base ++ [r]) (short : pending.length ≤ 1) : Follows exec done := by
  obtain ⟨first,rfl,whole⟩ := openTail split short (by simp)
  cases first with
  | nil => rw [List.append_nil]; exact plain.follows
  | cons x xs =>
    obtain ⟨rfl,none⟩ := List.cons.inj whole
    rw [(List.append_eq_nil_iff.mp none).1]
    exact plainThen plain last

theorem followsSave : Follows exec [.getFmuState] := by
  intro f xs same zero
  obtain ⟨x,rfl⟩ : ∃ x, xs = [x] := List.length_eq_one_iff.mp (by rw [← List.length_map Exchange.request,same]; rfl)
  obtain ⟨fits,_⟩ := zero x (by simp)
  obtain ⟨r,a⟩ := x
  cases List.head_eq_of_cons_eq same
  cases a <;> simp only [Response.answers,Bool.false_eq_true] at fits
  rfl

theorem followsBegun (harmless : Passive exec) {C : Cycle} {refs : List Int} {t : ℚ} {s : MasterState}
    {part done pending : List Request} (begun : C.Begun refs t s part) (still : s.speculating = false)
    (split : done ++ pending = part) (short : pending.length ≤ 1) : Follows exec done := by
  have empty : Plain exec [] := plainPassive harmless fun _ mem => by cases mem
  have rewound : ∀ tail : List Request, tail ≠ [] → (∀ r ∈ tail, r.passive = true) →
      part = C.rewindRequests refs t ++ [.setFmuState 0] ++ tail → Follows exec done := fun tail some passive whole =>
    followsPassive harmless (plainRewound C refs t) (split.trans whole) short some passive
  cases begun with
  | save => exact followsLast empty followsSave split short
  | speculate | future | restore => cases still
  | present => exact rewound [.getReal refs] (by simp) (by simp [Request.passive]) rfl
  | derive _ ds =>
    refine rewound ([.getReal refs] ++ ds.map .getDirectionalDerivative) (by simp) (fun r mem => ?_)
      (by simp [Cycle.rewindRequests])
    simp only [List.mem_append,List.mem_singleton,List.mem_map] at mem
    rcases mem with rfl | ⟨d,_,rfl⟩ <;> rfl
  | forces _ ds =>
    refine rewound ([.getReal refs] ++ ds.map .getDirectionalDerivative ++ [.setReal [] []]) (by simp) (fun r mem => ?_)
      (by simp [Cycle.rewindRequests,Cycle.strongRequests])
    simp only [List.mem_append,List.mem_singleton,List.mem_map] at mem
    rcases mem with (rfl | ⟨d,_,rfl⟩) | rfl <;> rfl
  | getWeak strong _ =>
    exact followsPassive harmless (plainStrong harmless strong) split short (by simp) (by simp [Request.passive])
  | setWeak strong _ =>
    exact followsPassive harmless (plainStrong harmless strong) split short (by simp [Cycle.weakRequests])
      (by simp [Cycle.weakRequests,Request.passive])
  | step all =>
    obtain ⟨strong,weak⟩ := all
    have before := plainAppend (plainStrong harmless strong) (plainWeak harmless weak)
    exact followsLast before (plainStep t C.timeStep).follows split short

theorem startupAfter {g : Control} {done rest : List Request} (split : done ++ rest = g.cycle.startup) (f : Snapshots S)
    {xs : List Exchange} (same : xs.map Exchange.request = done) : (f.after exec xs).current = done.foldl exec f.current := by
  have plain : ∀ x ∈ xs, x.request ∈ g.cycle.startup := fun x mem => by
    rw [← split,← same]
    exact List.mem_append_left _ (List.mem_map_of_mem mem)
  rw [← same]
  clear split same
  induction xs generalizing f with
  | nil => rfl
  | cons x xs ih =>
    rw [List.forall_mem_cons] at plain
    have step : (f.exchange exec x).current = exec f.current x.request := by
      obtain ⟨r,a⟩ := x
      have first := plain.1
      simp only [Cycle.startup,Control.cycle,List.mem_cons,List.not_mem_nil,or_false] at first
      rcases first with rfl | rfl | rfl <;> rfl
    rw [after,List.foldl_cons,List.map_cons,List.foldl_cons,← step]
    exact ih _ plain.2

theorem performedEarly {g : Control} {done rest : List Request} (split : done ++ rest = g.cycle.startup) :
    performed done = done := by
  have early : done = g.cycle.startup.take done.length := by rw [← split,List.take_left]
  generalize done.length = n at early
  subst early
  match n with
  | 0 | 1 | 2 => rfl
  | n+3 => rw [List.take_of_length_le (by simp [Cycle.startup])]; rfl

theorem begunSome {C : Cycle} {refs : List Int} {t : ℚ} {s : MasterState} {part : List Request}
    (begun : C.Begun refs t s part) : part ≠ [] := by
  cases begun with
  | step all =>
    obtain ⟨_,_⟩ := all
    simp
  | _ => simp [Cycle.strongRequests,Cycle.weakRequests]

theorem performedStartup (g : Control) (rs : List Request) :
    performed (g.cycle.startup ++ rs) = g.cycle.startup ++ finalSteps rs := rfl

theorem performedDone {g : Control} {refs : List Int} {k : Nat} {rs : List Request} (sent : g.cycle.Sent refs k .done rs) :
    performed rs = g.cycle.startup ++ (List.range (k+1)).map fun k => .doStep (k*g.timeStep) g.timeStep true := by
  rw [← finalsDone sent]
  cases sent with
  | ended all => rfl
  | iterate _ begun => cases begun

theorem sentFollows (harmless : Passive exec) {g : Control} {refs : List Int} {k : Nat} {s : MasterState}
    {rs done pending : List Request} (sent : g.cycle.Sent refs k s rs) (still : s.speculating = false)
    (split : done ++ pending = rs) (short : pending.length ≤ 1) (ended : s = .done → pending = []) (f : Snapshots S)
    {xs : List Exchange} (same : xs.map Exchange.request = done) (zero : ZeroIds xs) :
    (f.after exec xs).current = (performed done).foldl exec f.current := by
  have startup : ∀ rest, done ++ rest = g.cycle.startup →
      (f.after exec xs).current = (performed done).foldl exec f.current := by
    intro rest whole
    rw [performedEarly whole]
    exact startupAfter whole f same
  have later : ∀ tail, done = g.cycle.startup ++ tail → Follows exec tail →
      (f.after exec xs).current = (performed done).foldl exec f.current := by
    intro tail whole follows
    subst whole
    obtain ⟨ys,zs,rfl,left,right⟩ := List.map_eq_append_iff.mp same
    rw [afterAppend,follows _ zs right (zeroIdsSplit zero).2,startupAfter (List.append_nil _) f left,performedStartup,
      List.foldl_append]
  cases sent with
  | connecting => exact startup g.cycle.startup (by rw [(List.append_eq_nil_iff.mp split).1]; rfl)
  | xml => exact startup (pending ++ [.instantiate,g.cycle.initialization]) (by rw [← List.append_assoc,split]; rfl)
  | instantiate => exact startup (pending ++ [g.cycle.initialization]) (by rw [← List.append_assoc,split]; rfl)
  | initialization => exact startup pending split
  | @iterate k all s part before begun =>
    obtain ⟨first,whole,now⟩ := openTail split short (begunSome begun)
    rw [List.append_assoc] at whole
    exact later _ whole (plainThen (plainIterations harmless before) (followsBegun harmless begun still now short))
  | ended all =>
    rw [ended rfl,List.append_nil] at split
    exact later _ split (plainIterations harmless all).follows

end Snapshots
end Fmu

theorem zeroIdsContained : Contained .zeroIds fun _ c => ZeroIds c.answered where
  move := by
    intro g c c' phase zero moved
    rcases moveCases phase moved with ⟨_,rfl⟩ | ⟨r,a,reply⟩
    · exact zero
    · rw [reply.absorbed.answered]
      refine List.forall_mem_append.mpr ⟨zero,fun x mem => ?_⟩
      cases List.mem_singleton.mp mem
      exact ⟨reply.fits,reply.allowed⟩
  turn := by
    intro K g ps c _ _ zero
    rw [(enteredKept K g ps c).answered]
    exact zero
  exits zero := zero

/- In any coupled simulation, whatever the other slaves send, the FMU of a slave that keeps to the
protocol and stores its snapshot under the id 0 goes through the plain loop. -/
theorem couplingTransparent {S : Type} {exec : S → Request → S} (harmless : Snapshots.Passive exec) {K : Coupling}
    {honest : ClientPtr → Prop} {m₀ m : Master} (configured : Master.Configured m₀)
    (run : Mixed K .zeroIds honest m₀ m) : ∀ c ∈ m.slaves, honest c.self → ∀ f : Snapshots S,
      (m.state.speculating = false →
        (f.after exec c.answered).current = (performed (c.answered.map Exchange.request)).foldl exec f.current) ∧
      (m.state = .done → ∃ n : Nat, m.time = n*m₀.timeStep ∧
        (f.after exec c.answered).current = m₀.toControl.cycle.plain exec f.current n) := by
  intro c mem trusted f
  obtain ⟨k,clock,sent⟩ := (heardOrderly configured (mixedHeard run)).scheduled
  have fresh : ∀ d ∈ m₀.slaves, ZeroIds d.answered := fun d inside => by
    rw [((Master.configuredFresh configured).clients d inside).answered]
    exact fun _ none => absurd none List.not_mem_nil
  obtain ⟨phase,zero⟩ := mixedKeeps zeroIdsContained configured fresh run c mem trusted
  have idle : m.state = .done → c.pending = [] := fun ended => doneIdle (ended ▸ phase)
  have follows : m.state.speculating = false →
      (f.after exec c.answered).current = (performed (c.answered.map Exchange.request)).foldl exec f.current := fun still =>
    Snapshots.sentFollows harmless (sent c mem) still rfl (inPhasePending phase).1 idle f rfl zero
  refine ⟨follows,fun ended => ⟨k+1,?_,?_⟩⟩
  · rw [clock.time,Control.elapsed,if_pos (Or.inr ended)]
  · have requests : c.requests = c.answered.map Exchange.request := by
      rw [FMIClient.requests,idle ended,List.append_nil]
    have performs := Snapshots.performedDone (ended ▸ sent c mem)
    rw [requests] at performs
    rw [follows (by rw [ended]; rfl),performs]
    exact plainSteps m₀.toControl.cycle exec f.current (k+1)

def Response.zeroId : Response → Bool
  | .getFmuState id _ => id = 0
  | _ => true

def countingSteps (s : Nat) : Request → Nat
  | .doStep .. => s+1
  | _ => s

theorem couplingTransparentCoupled :
    let m := Master.coupled.after .perConstraint (deliveries 1 2)
    m.state = .done ∧ ∀ c ∈ m.slaves, ∀ f : Snapshots Nat, ∃ n : Nat, m.time = n*Master.coupled.timeStep ∧
      (f.after countingSteps c.answered).current = Master.coupled.toControl.cycle.plain countingSteps f.current n := by
  have harmless : Snapshots.Passive countingSteps := by
    intro s r passive
    cases r with
    | doStep => cases passive
    | _ => rfl
  have run : Run .perConstraint .zeroIds .coupled (Master.coupled.after .perConstraint (deliveries 1 2)) :=
    Master.afterRun _ (messagesAlways Response.zeroId
      (fun _ _ _ a allowed id status same => by simpa [same,Response.zeroId] using allowed) (by decide +kernel))
      (by decide +kernel)
  have mixed : Mixed .perConstraint .zeroIds (fun _ => True) .coupled _ := runMixed run
  have ended : (Master.coupled.after .perConstraint (deliveries 1 2)).state = .done := by decide +kernel
  exact ⟨ended,fun c mem f => (couplingTransparent harmless Master.coupledConfigured mixed c mem trivial f).2 ended⟩

end FmiTcpMaster
