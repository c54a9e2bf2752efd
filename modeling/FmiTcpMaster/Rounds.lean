import Mathlib.Logic.Relation
import Mathlib.Data.List.Forall2
import Mathlib.Algebra.BigOperators.Group.List.Basic
import Mathlib.Algebra.Order.Group.Nat
import Mathlib.Algebra.GroupWithZero.Nat
import Mathlib.Order.WellFounded
import Mathlib.Data.Prod.Lex

/-! Parties that work in rounds under one coordinator. In a round each party moves on its
own; the move after which every party has finished turns the round, in one step and for all
parties at once. A disturbance is anything that happens outside that discipline. -/
namespace Rounds
variable {G P : Type}

structure System (G P : Type) where
  finished : G → P → Prop
  move : G → P → P → Prop
  turn : G → List P → G → List P → Prop
  disturb : G → List P → G → List P → Prop

inductive Step (S : System G P) : G × List P → G × List P → Prop where
  | stay {g l p q r} (moved : S.move g p q) (waiting : ¬ ∀ x ∈ l ++ q :: r, S.finished g x) :
      Step S (g,l ++ p :: r) (g,l ++ q :: r)
  | turn {g l p q r g' ps} (moved : S.move g p q) (all : ∀ x ∈ l ++ q :: r, S.finished g x)
      (turned : S.turn g (l ++ q :: r) g' ps) : Step S (g,l ++ p :: r) (g',ps)
  | disturb {g ps g' ps'} (disturbed : S.disturb g ps g' ps') : Step S (g,ps) (g',ps')

abbrev Run (S : System G P) := Relation.ReflTransGen (Step S)

def Calm (S : System G P) : Prop := ∀ g ps g' ps', ¬ S.disturb g ps g' ps'

section Invariants
variable {ι : Type} {S : System G P} {J : ι → G → Prop} {I : ι → G → P → Prop}

/- An invariant of the coordinator and of each party alone, under an index that may change
when the round turns. -/
def Holds (J : ι → G → Prop) (I : ι → G → P → Prop) (c : G × List P) : Prop :=
  ∃ i, J i c.1 ∧ ∀ p ∈ c.2, I i c.1 p

structure Keeps (S : System G P) (J : ι → G → Prop) (I : ι → G → P → Prop) : Prop where
  move : ∀ {i g p q}, J i g → I i g p → S.move g p q → I i g q
  turn : ∀ {i g ps g' ps'}, J i g → (∀ p ∈ ps, I i g p) → (∀ p ∈ ps, S.finished g p) →
    S.turn g ps g' ps' → Holds J I (g',ps')
  disturb : ∀ {i g ps g' ps'}, J i g → (∀ p ∈ ps, I i g p) → S.disturb g ps g' ps' → Holds J I (g',ps')

theorem moveKeepsAll {i g l p q r} (keeps : Keeps S J I) (control : J i g)
    (parties : ∀ x ∈ l ++ p :: r, I i g x) (moved : S.move g p q) : ∀ x ∈ l ++ q :: r, I i g x := by
  rw [List.forall_mem_append,List.forall_mem_cons] at parties ⊢
  exact ⟨parties.1,keeps.move control parties.2.1 moved,parties.2.2⟩

theorem stepKeeps {c c'} (keeps : Keeps S J I) (holds : Holds J I c) (step : Step S c c') : Holds J I c' := by
  obtain ⟨i,control,parties⟩ := holds
  cases step with
  | stay moved waiting => exact ⟨i,control,moveKeepsAll keeps control parties moved⟩
  | turn moved all turned => exact keeps.turn control (moveKeepsAll keeps control parties moved) all turned
  | disturb disturbed => exact keeps.disturb control parties disturbed

theorem runKeeps {c c'} (keeps : Keeps S J I) (holds : Holds J I c) (run : Run S c c') : Holds J I c' := by
  induction run with
  | refl => exact holds
  | tail _ step ih => exact stepKeeps keeps ih step

structure KeepsUnder (S : System G P) (A : G → Prop) (B : G → P → Prop)
    (J : ι → G → Prop) (I : ι → G → P → Prop) : Prop where
  move : ∀ {i g p q}, A g → B g p → B g q → J i g → I i g p → S.move g p q → I i g q
  turn : ∀ {i g ps g' ps'}, A g → (∀ p ∈ ps, B g p) → J i g → (∀ p ∈ ps, I i g p) →
    (∀ p ∈ ps, S.finished g p) → S.turn g ps g' ps' → Holds J I (g',ps')
  disturb : ∀ {i g ps g' ps'}, A g → (∀ p ∈ ps, B g p) → J i g → (∀ p ∈ ps, I i g p) →
    S.disturb g ps g' ps' → Holds J I (g',ps')

theorem keepsBoth {A : G → Prop} {B : G → P → Prop} (base : Keeps S (fun _ : Unit => A) fun _ => B)
    (new : KeepsUnder S A B J I) :
    Keeps S (fun i g => A g ∧ J i g) (fun i g p => B g p ∧ I i g p) where
  move control party moved := by
    have known := base.move (i := ()) control.1 party.1 moved
    exact ⟨known,new.move control.1 party.1 known control.2 party.2 moved⟩
  turn control parties all turned := by
    obtain ⟨_,a,b⟩ := base.turn (i := ()) control.1 (fun p h => (parties p h).1) all turned
    obtain ⟨i,j,k⟩ := new.turn control.1 (fun p h => (parties p h).1) control.2 (fun p h => (parties p h).2) all turned
    exact ⟨i,⟨a,j⟩,fun p h => ⟨b p h,k p h⟩⟩
  disturb control parties disturbed := by
    obtain ⟨_,a,b⟩ := base.disturb (i := ()) control.1 (fun p h => (parties p h).1) disturbed
    obtain ⟨i,j,k⟩ := new.disturb control.1 (fun p h => (parties p h).1) control.2 (fun p h => (parties p h).2) disturbed
    exact ⟨i,⟨a,j⟩,fun p h => ⟨b p h,k p h⟩⟩

end Invariants

section Determinacy
variable {S : System G P}

structure Deterministic (S : System G P) : Prop where
  move : ∀ {g p q q'}, S.move g p q → S.move g p q' → q = q'
  halted : ∀ {g p q}, S.finished g p → ¬ S.move g p q
  turn : ∀ {g ps g' ps' g'' ps''}, S.turn g ps g' ps' → S.turn g ps g'' ps'' → g' = g'' ∧ ps' = ps''

abbrev Moves (S : System G P) (g : G) := Relation.ReflTransGen (S.move g)

def Settled (S : System G P) (g : G) (p q : P) : Prop := Moves S g p q ∧ ∀ q', ¬ S.move g q q'

theorem settledUnique (det : Deterministic S) {g p q q'} (left : Settled S g p q) (right : Settled S g p q') :
    q = q' := by
  obtain ⟨path,stop⟩ := left
  induction path using Relation.ReflTransGen.head_induction_on with
  | refl =>
    rcases Relation.ReflTransGen.cases_head right.1 with same | ⟨next,first,_⟩
    · exact same
    · exact absurd first (stop next)
  | head first _ ih =>
    rcases Relation.ReflTransGen.cases_head right.1 with same | ⟨next,other,rest⟩
    · subst same
      exact absurd first (right.2 _)
    · cases det.move first other
      exact ih ⟨rest,right.2⟩

theorem allSettledUnique (det : Deterministic S) {g ps qs qs'} (left : List.Forall₂ (Settled S g) ps qs)
    (right : List.Forall₂ (Settled S g) ps qs') : qs = qs' := by
  induction left generalizing qs' with
  | nil => cases right; rfl
  | cons head _ ih =>
    cases right with
    | cons other rest => rw [settledUnique det head other,ih rest]

inductive Round (S : System G P) (g₀ : G) (ps₀ : List P) : Nat → G → List P → Prop where
  | start : Round S g₀ ps₀ 0 g₀ ps₀
  | next {n g ps qs g' ps'} (before : Round S g₀ ps₀ n g ps) (settled : List.Forall₂ (Settled S g) ps qs)
      (turned : S.turn g qs g' ps') : Round S g₀ ps₀ (n+1) g' ps'

theorem roundUnique (det : Deterministic S) {g₀ ps₀ n g ps g' ps'} (left : Round S g₀ ps₀ n g ps)
    (right : Round S g₀ ps₀ n g' ps') : g = g' ∧ ps = ps' := by
  induction left generalizing g' ps' with
  | start => cases right; exact ⟨rfl,rfl⟩
  | next _ settled turned ih =>
    cases right with
    | next before other turned' =>
      obtain ⟨rfl,rfl⟩ := ih before
      cases allSettledUnique det settled other
      exact det.turn turned turned'

theorem earlierRoundTurns {g₀ ps₀ n m g ps} (round : Round S g₀ ps₀ n g ps) (less : m < n) :
    ∃ g' ps' qs g'' ps'', Round S g₀ ps₀ m g' ps' ∧ S.turn g' qs g'' ps'' := by
  induction round with
  | start => omega
  | @next n g ps qs g' ps' before _ turned ih =>
    rcases Nat.lt_or_ge m n with earlier | last
    · exact ih earlier
    · have same : m = n := by omega
      subst same
      exact ⟨g,ps,qs,g',ps',before,turned⟩

theorem replaceOne {A B : Type} {R : A → B → Prop} {xs : List A} {l r : List B} {p q : B}
    (related : List.Forall₂ R xs (l ++ p :: r)) (step : ∀ x, R x p → R x q) : List.Forall₂ R xs (l ++ q :: r) := by
  induction l generalizing xs with
  | nil =>
    cases related with
    | cons head tail => exact .cons (step _ head) tail
  | cons y ys ih =>
    cases related with
    | cons head tail => exact .cons head (ih tail)

theorem mapAll {A B C : Type} {R : A → B → Prop} {Q : A → C → Prop} {xs : List A} {ps : List B} {f : B → C}
    (related : List.Forall₂ R xs ps) (step : ∀ x, ∀ p ∈ ps, R x p → Q x (f p)) : List.Forall₂ Q xs (ps.map f) := by
  induction related with
  | nil => exact .nil
  | cons head _ ih =>
    exact .cons (step _ _ List.mem_cons_self head) (ih fun x p mem => step x p (List.mem_cons_of_mem _ mem))

theorem settleAll {g ps qs} (path : List.Forall₂ (Moves S g) ps qs)
    (stop : ∀ q ∈ qs, ∀ q', ¬ S.move g q q') : List.Forall₂ (Settled S g) ps qs := by
  induction path with
  | nil => exact .nil
  | cons head _ ih =>
    exact .cons ⟨head,stop _ List.mem_cons_self⟩ (ih fun q mem => stop q (List.mem_cons_of_mem _ mem))

theorem runInRound (det : Deterministic S) (calm : Calm S) {g₀ ps₀ c} (run : Run S (g₀,ps₀) c) :
    ∃ n ps, Round S g₀ ps₀ n c.1 ps ∧ List.Forall₂ (Moves S c.1) ps c.2 := by
  induction run with
  | refl => exact ⟨0,ps₀,.start,List.forall₂_same.mpr fun _ _ => .refl⟩
  | tail _ step ih =>
    obtain ⟨n,ps,round,path⟩ := ih
    cases step with
    | stay moved _ => exact ⟨n,ps,round,replaceOne path fun _ head => head.tail moved⟩
    | @turn g l p q r g' ps' moved all turned =>
      have settled := settleAll (replaceOne path fun _ head => head.tail moved) fun x mem _ => det.halted (all x mem)
      exact ⟨n+1,ps',.next round settled turned,List.forall₂_same.mpr fun _ _ => .refl⟩
    | disturb disturbed => exact absurd disturbed (calm _ _ _ _)

/- Whatever the order of the moves, two runs that have come to rest in a round that cannot
turn are in the same configuration. -/
theorem determined (det : Deterministic S) (calm : Calm S) {c₀ c c' : G × List P} (left : Run S c₀ c)
    (right : Run S c₀ c') (last : ∀ qs g ps, ¬ S.turn c.1 qs g ps) (last' : ∀ qs g ps, ¬ S.turn c'.1 qs g ps)
    (stop : ∀ q ∈ c.2, ∀ q', ¬ S.move c.1 q q') (stop' : ∀ q ∈ c'.2, ∀ q', ¬ S.move c'.1 q q') : c = c' := by
  obtain ⟨n,ps,round,path⟩ := runInRound det calm left
  obtain ⟨n',ps',round',path'⟩ := runInRound det calm right
  rcases Nat.lt_trichotomy n n' with less | same | more
  · obtain ⟨g,qs,_,_,_,earlier,turned⟩ := earlierRoundTurns round' less
    obtain ⟨rfl,_⟩ := roundUnique det round earlier
    exact absurd turned (last _ _ _)
  · subst same
    obtain ⟨control,rfl⟩ := roundUnique det round round'
    rw [← control] at path' stop'
    exact Prod.ext control (allSettledUnique det (settleAll path stop) (settleAll path' stop'))
  · obtain ⟨g,qs,_,_,_,earlier,turned⟩ := earlierRoundTurns round more
    obtain ⟨rfl,_⟩ := roundUnique det round' earlier
    exact absurd turned (last' _ _ _)

end Determinacy

section Termination
variable {ι : Type} {S : System G P} {J : ι → G → Prop} {I : ι → G → P → Prop}

theorem moveWork {work : P → Nat} {l r : List P} {p q : P} (less : work q < work p) :
    ((l ++ q :: r).map work).sum < ((l ++ p :: r).map work).sum := by
  simp only [List.map_append,List.map_cons,List.sum_append,List.sum_cons]
  omega

theorem terminates (keeps : Keeps S J I) (calm : Calm S) (rank : G → Nat) (work : G → P → Nat)
    (moveLess : ∀ {i g p q}, J i g → I i g p → S.move g p q → work g q < work g p)
    (turnLess : ∀ {i g ps g' ps'}, J i g → (∀ p ∈ ps, I i g p) → (∀ p ∈ ps, S.finished g p) → S.turn g ps g' ps' →
      rank g' < rank g)
    {c : G × List P} (holds : Holds J I c) : Acc (fun c' c => Step S c c') c := by
  have wf : WellFounded (Prod.Lex (· < ·) (· < ·) : Nat × Nat → Nat × Nat → Prop) :=
    WellFounded.prod_lex Nat.lt_wfRel.wf Nat.lt_wfRel.wf
  generalize measured : (rank c.1,(c.2.map (work c.1)).sum) = n
  induction n using wf.induction generalizing c with
  | _ n ih =>
    subst measured
    refine Acc.intro c fun c' step => ?_
    have after := stepKeeps keeps holds step
    obtain ⟨i,control,parties⟩ := holds
    cases step with
    | @stay g l p q r moved _ =>
      exact ih _ (Prod.Lex.right _ (moveWork (moveLess control (parties p (by simp)) moved))) after rfl
    | turn moved all turned =>
      exact ih _ (Prod.Lex.left _ _ (turnLess control (moveKeepsAll keeps control parties moved) all turned)) after rfl
    | disturb disturbed => exact absurd disturbed (calm _ _ _ _)

theorem noInfiniteRun {A ι : Type} {next : A → ι → A → Prop} {a : A} (acc : Acc (fun b a => ∃ e, next a e b) a) :
    ¬ ∃ run : Nat → A, run 0 = a ∧ ∀ n, ∃ e, next (run n) e (run (n+1)) := by
  induction acc with
  | intro a _ ih =>
    rintro ⟨run,first,steps⟩
    exact ih (run 1) (first ▸ steps 0) ⟨fun n => run (n+1),rfl,fun n => steps (n+1)⟩

theorem restsSomewhere {A : Type} {next : A → A → Prop} {a : A} (acc : Acc (fun b a => next a b) a) :
    ∃ b, Relation.ReflTransGen next a b ∧ ∀ c, ¬ next b c := by
  induction acc with
  | intro a _ ih =>
    by_cases stuck : ∀ c, ¬ next a c
    · exact ⟨a,.refl,stuck⟩
    · obtain ⟨c,step⟩ := not_forall_not.mp stuck
      obtain ⟨b,path,stop⟩ := ih c step
      exact ⟨b,.head step path,stop⟩

end Termination
end Rounds
