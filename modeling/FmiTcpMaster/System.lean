import FmiTcpMaster.Setup
import Mathlib.Logic.Relation

/-! The master among its slaves. The event loop runs one handler at a time; a handler that
faults has no next state. What the slaves may do beyond answering in order is a parameter. -/
namespace FmiTcpMaster

inductive Event where
  | connect (p : ClientPtr)
  | response (p : ClientPtr) (a : Response)
  | disconnect (p : ClientPtr)
  | error (p : ClientPtr)
  deriving DecidableEq, Repr

def Master.handle (K : Coupling) (m : Master) : Event → Except Fault Master
  | .connect p => do
    let m ← m.deref p fun c => .ok {c with connected := true}
    m.slaveConnected K p
  | .response p a => m.receive K p a
  | .disconnect p => .ok (m.slaveDisconnected p)
  | .error p => .ok (m.slaveError p)

/- Which answers a slave may give, and which slaves may disconnect or fail. -/
structure Environment where
  answers : Control → FMIClient → Request → Response → Prop
  leaves : Master → FMIClient → Prop
  fails : Master → FMIClient → Prop

def Environment.anything : Environment := ⟨fun _ _ _ _ => True,fun _ _ => True,fun _ _ => True⟩

def Environment.lasting (answers : Control → FMIClient → Request → Response → Prop) : Environment :=
  ⟨answers,fun _ _ => False,fun _ _ => False⟩

abbrev Environment.reliable : Environment := .lasting fun _ _ _ _ => True

inductive Step (K : Coupling) (E : Environment) : Master → Event → Master → Prop where
  | connect {m m' c} (mem : c ∈ m.slaves) (down : c.connected = false)
      (handled : m.handle K (.connect c.self) = .ok m') : Step K E m (.connect c.self) m'
  | response {m m' c r rest a} (mem : c ∈ m.slaves) (oldest : c.pending = r :: rest)
      (fits : a.answers r = true) (allowed : E.answers m.toControl c r a)
      (handled : m.handle K (.response c.self a) = .ok m') : Step K E m (.response c.self a) m'
  | disconnect {m m' c} (mem : c ∈ m.slaves) (allowed : E.leaves m c)
      (handled : m.handle K (.disconnect c.self) = .ok m') : Step K E m (.disconnect c.self) m'
  | error {m m' c} (mem : c ∈ m.slaves) (allowed : E.fails m c)
      (handled : m.handle K (.error c.self) = .ok m') : Step K E m (.error c.self) m'

abbrev Run (K : Coupling) (E : Environment) := Relation.ReflTransGen fun m m' => ∃ e, Step K E m e m'

def Environment.Allows (E : Environment) (m : Master) : Event → Prop
  | .connect _ => True
  | .response p a => ∀ c ∈ m.slaves, c.self = p → ∀ r ∈ c.pending.take 1, a.answers r = true → E.answers m.toControl c r a
  | .disconnect p => ∀ c ∈ m.slaves, c.self = p → E.leaves m c
  | .error p => ∀ c ∈ m.slaves, c.self = p → E.fails m c

instance {E : Environment} [∀ g c r a, Decidable (E.answers g c r a)] [∀ m c, Decidable (E.leaves m c)]
    [∀ m c, Decidable (E.fails m c)] (m : Master) (e : Event) : Decidable (E.Allows m e) :=
  match e with
  | .connect _ => .isTrue trivial
  | .response p a => inferInstanceAs (Decidable
      (∀ c ∈ m.slaves, c.self = p → ∀ r ∈ c.pending.take 1, a.answers r = true → E.answers m.toControl c r a))
  | .disconnect p => inferInstanceAs (Decidable (∀ c ∈ m.slaves, c.self = p → E.leaves m c))
  | .error p => inferInstanceAs (Decidable (∀ c ∈ m.slaves, c.self = p → E.fails m c))

def Environment.Always (E : Environment) (e : Event) : Prop := ∀ m, E.Allows m e

def Equation.between (a b : ClientPtr) (seed : ℚ) : Equation :=
  ⟨a,b,fun _ => seed,fun _ => seed,fun _ => seed,fun _ => seed⟩

/- What the solver returns for one lock: an equation between its two ends. -/
def Coupling.perConstraint : Coupling := .source fun m => m.constraints.map fun s => .between s.userDataA s.userDataB 1

def Event.both (a : Response) : List Event := [.response 1 a,.response 2 a]

def Event.startup : List Event :=
  [.connect 1,.connect 2] ++ Event.both .getXml ++ Event.both (.instantiate .success)

def Event.speculation (id : Int) (value : ℚ) : List Event :=
  Event.startup ++ Event.both (.initializeSlave .ok) ++ Event.both (.getFmuState id .ok) ++ Event.both (.doStep .ok) ++
    Event.both (.getReal (List.replicate 13 value) .ok)

theorem anythingAlways (e : Event) : Environment.anything.Always e := by
  intro m
  cases e with
  | connect => trivial
  | response => exact fun _ _ _ _ _ _ => trivial
  | disconnect => exact fun _ _ _ => trivial
  | error => exact fun _ _ _ => trivial

def Event.message (allowed : Response → Bool) : Event → Bool
  | .connect _ => true
  | .response _ a => allowed a
  | .disconnect _ | .error _ => false

theorem messagesAlways {E : Environment} (allowed : Response → Bool)
    (answers : ∀ g c r a, allowed a = true → E.answers g c r a) {es : List Event}
    (messages : es.all (Event.message allowed) = true) : ∀ e ∈ es, E.Always e := by
  intro e mem m
  have message := List.all_eq_true.mp messages e mem
  cases e with
  | connect => trivial
  | response => exact fun c _ _ r _ _ => answers _ c r _ message
  | disconnect => simp [Event.message] at message
  | error => simp [Event.message] at message

namespace Master

def possible (m : Master) : Event → Bool
  | .connect p => m.slaves.any fun c => c.self = p && !c.connected
  | .response p a => m.slaves.any fun c => c.self = p && c.pending.head?.any a.answers
  | .disconnect p | .error p => m.slaves.any fun c => c.self = p

def replay (K : Coupling) (m : Master) : List Event → Option Master
  | [] => some m
  | e :: es =>
    match m.possible e, m.handle K e with
    | true, .ok m' => m'.replay K es
    | _, _ => none

theorem possibleConnect {m : Master} {p : ClientPtr} (possible : m.possible (.connect p) = true) :
    ∃ c ∈ m.slaves, c.self = p ∧ c.connected = false := by
  simpa only [Master.possible,List.any_eq_true,Bool.and_eq_true,decide_eq_true_eq,Bool.not_eq_true'] using possible

theorem possibleResponse {m : Master} {p : ClientPtr} {a : Response} (possible : m.possible (.response p a) = true) :
    ∃ c ∈ m.slaves, c.self = p ∧ ∃ r rest, c.pending = r :: rest ∧ a.answers r = true := by
  simp only [Master.possible,List.any_eq_true,Bool.and_eq_true,decide_eq_true_eq,Option.any_eq_true] at possible
  obtain ⟨c,mem,self,r,first,fits⟩ := possible
  obtain ⟨rest,oldest⟩ := List.head?_eq_some_iff.mp first
  exact ⟨c,mem,self,r,rest,oldest,fits⟩

theorem possibleStep {K : Coupling} {E : Environment} {m m' : Master} {e : Event} (possible : m.possible e = true)
    (allows : E.Allows m e) (handled : m.handle K e = .ok m') : Step K E m e m' := by
  cases e with
  | connect p =>
    obtain ⟨c,mem,rfl,down⟩ := possibleConnect possible
    exact .connect mem down handled
  | response p a =>
    obtain ⟨c,mem,rfl,r,rest,oldest,fits⟩ := possibleResponse possible
    exact .response mem oldest fits (allows c mem rfl r (by simp [oldest]) fits) handled
  | disconnect p =>
    simp only [Master.possible,List.any_eq_true,decide_eq_true_eq] at possible
    obtain ⟨c,mem,rfl⟩ := possible
    exact .disconnect mem (allows c mem rfl) handled
  | error p =>
    simp only [Master.possible,List.any_eq_true,decide_eq_true_eq] at possible
    obtain ⟨c,mem,rfl⟩ := possible
    exact .error mem (allows c mem rfl) handled

def Permits (K : Coupling) (E : Environment) : Master → List Event → Prop
  | _, [] => True
  | m, e :: es => E.Allows m e ∧ match m.handle K e with
    | .ok m' => m'.Permits K E es
    | .error _ => True

instance permitsDecidable {K : Coupling} {E : Environment} [∀ m e, Decidable (E.Allows m e)] :
    (m : Master) → (es : List Event) → Decidable (m.Permits K E es)
  | _, [] => .isTrue trivial
  | m, e :: es =>
    have : Decidable (match m.handle K e with | .ok m' => m'.Permits K E es | .error _ => True) :=
      match m.handle K e with
      | .ok m' => permitsDecidable m' es
      | .error _ => .isTrue trivial
    inferInstanceAs (Decidable (E.Allows m e ∧ _))

theorem alwaysPermits {K : Coupling} {E : Environment} {es : List Event} (always : ∀ e ∈ es, E.Always e) (m : Master) :
    m.Permits K E es := by
  induction es generalizing m with
  | nil => trivial
  | cons e es ih =>
    refine ⟨always e List.mem_cons_self m,?_⟩
    cases m.handle K e with
    | error => trivial
    | ok m' => exact ih (fun x mem => always x (List.mem_cons_of_mem _ mem)) m'

theorem replayRun {K : Coupling} {E : Environment} {m m' : Master} {es : List Event} (permits : m.Permits K E es)
    (ok : m.replay K es = some m') : Run K E m m' := by
  induction es generalizing m with
  | nil => cases Option.some.inj ok; exact .refl
  | cons e es ih =>
    unfold replay at ok
    split at ok <;> try contradiction
    rename_i next possible handled
    obtain ⟨allows,rest⟩ := permits
    rw [handled] at rest
    exact .head ⟨e,possibleStep possible allows handled⟩ (ih rest ok)

def after (K : Coupling) (m : Master) (es : List Event) : Master := (m.replay K es).getD m

theorem afterPermitted {K : Coupling} {E : Environment} {m : Master} {es : List Event} (permits : m.Permits K E es)
    (ok : (m.replay K es).isSome = true) : Run K E m (m.after K es) := by
  obtain ⟨m',found⟩ := Option.isSome_iff_exists.mp ok
  exact replayRun permits (by rw [after,found,Option.getD_some])

theorem afterRun {K : Coupling} {E : Environment} {m : Master} (es : List Event) (always : ∀ e ∈ es, E.Always e)
    (ok : (m.replay K es).isSome = true) : Run K E m (m.after K es) :=
  afterPermitted (alwaysPermits always m) ok

end Master
end FmiTcpMaster
