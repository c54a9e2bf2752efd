import Mathlib.Data.List.Basic
import Mathlib.Data.List.Infix

/-! A list that is pushed to and popped from at its end, and the order in which it gives back what
was pushed. A pop takes back the push that it closes, as a bracket does. -/
namespace Stacks
variable {α : Type}

inductive Call (α : Type) where
  | push (a : α)
  | pop
  deriving DecidableEq, Repr

def Call.isPush : Call α → Bool
  | .push _ => true
  | .pop => false

def pushed : List (Call α) → List α
  | [] => []
  | .push a :: cs => a :: pushed cs
  | .pop :: cs => pushed cs

def pops : List (Call α) → Nat
  | [] => 0
  | .push _ :: cs => pops cs
  | .pop :: cs => pops cs+1

def run : List α → List (Call α) → Option (List α × List α)
  | st, [] => some (st,[])
  | st, .push a :: cs => run (st ++ [a]) cs
  | st, .pop :: cs =>
    match st.getLast? with
    | none => none
    | some a => (run st.dropLast cs).map fun r => (r.1,a :: r.2)

@[simp] theorem runPop (st : List α) (a : α) (cs : List (Call α)) :
    run (st ++ [a]) (.pop :: cs) = (run st cs).map fun r => (r.1,a :: r.2) := by
  simp [run]

@[simp] theorem pushedAppend (l r : List (Call α)) : pushed (l ++ r) = pushed l ++ pushed r := by
  induction l with
  | nil => rfl
  | cons c cs ih => cases c <;> simp [pushed,ih]

@[simp] theorem popsAppend (l r : List (Call α)) : pops (l ++ r) = pops l+pops r := by
  induction l with
  | nil => simp [pops]
  | cons c cs ih =>
    cases c with
    | push a => exact ih
    | pop =>
      rw [List.cons_append,pops,pops,ih]
      omega

theorem runPush {st : List α} {a : α} {cs : List (Call α)} : run st (.push a :: cs) = run (st ++ [a]) cs := rfl

theorem popSource {st : List α} {cs : List (Call α)} {r : List α × List α} (ok : run st (.pop :: cs) = some r) :
    ∃ rest a out, st = rest ++ [a] ∧ run rest cs = some (r.1,out) ∧ r.2 = a :: out := by
  rcases List.eq_nil_or_concat' st with rfl | ⟨rest,a,rfl⟩
  · contradiction
  · rw [runPop,Option.map_eq_some_iff] at ok
    obtain ⟨⟨left,out⟩,ok,rfl⟩ := ok
    exact ⟨rest,a,out,rfl,ok,rfl⟩

theorem runAppend {st : List α} {l r : List (Call α)} {left out : List α} :
    run st (l ++ r) = some (left,out) ↔
      ∃ mid first last, run st l = some (mid,first) ∧ run mid r = some (left,last) ∧ out = first ++ last := by
  induction l generalizing st out with
  | nil => simp [run]
  | cons c cs ih =>
    cases c with
    | push a => exact ih
    | pop =>
      rcases List.eq_nil_or_concat' st with rfl | ⟨rest,a,rfl⟩
      · simp [run]
      · simp only [List.cons_append,runPop,Option.map_eq_some_iff,Prod.mk.injEq,Prod.exists]
        constructor
        · rintro ⟨_,_,ok,rfl,rfl⟩
          obtain ⟨mid,first,last,one,two,rfl⟩ := ih.mp ok
          exact ⟨mid,a :: first,last,⟨mid,first,one,rfl,rfl⟩,two,rfl⟩
        · rintro ⟨_,_,last,⟨mid,first,one,rfl,rfl⟩,two,rfl⟩
          exact ⟨left,first ++ last,ih.mpr ⟨mid,first,last,one,two,rfl⟩,rfl,rfl⟩

theorem runCounts {st : List α} {cs : List (Call α)} {left out : List α} (ok : run st cs = some (left,out)) :
    out.length = pops cs ∧ st.length+(pushed cs).length = left.length+pops cs := by
  induction cs generalizing st out with
  | nil =>
    obtain ⟨rfl,rfl⟩ := Prod.mk.inj (Option.some.inj ok)
    simp [pushed,pops]
  | cons c cs ih =>
    cases c with
    | push a =>
      obtain ⟨popped,total⟩ := ih ok
      simp only [pushed,pops,List.length_cons,List.length_append,List.length_nil] at total ⊢
      exact ⟨popped,by omega⟩
    | pop =>
      obtain ⟨rest,a,more,rfl,ok,same⟩ := popSource ok
      cases same
      obtain ⟨popped,total⟩ := ih ok
      simp only [pushed,pops,List.length_cons,List.length_append,List.length_nil] at total ⊢
      exact ⟨by omega,by omega⟩

inductive Balanced : List (Call α) → Prop where
  | nil : Balanced []
  | wrap {a m n} (inner : Balanced m) (rest : Balanced n) : Balanced (.push a :: m ++ .pop :: n)

theorem balancedSnoc {m n : List (Call α)} (a : α) (first : Balanced m) (inner : Balanced n) :
    Balanced (m ++ .push a :: n ++ [.pop]) := by
  induction first with
  | nil => exact .wrap inner .nil
  | @wrap b x y wrapped _ _ ih =>
    have joined : Balanced (.push b :: x ++ .pop :: (y ++ .push a :: n ++ [.pop])) := .wrap wrapped ih
    simpa using joined

theorem balancedRun {m : List (Call α)} (balanced : Balanced m) (st : List α) : ∃ out, run st m = some (st,out) := by
  induction balanced generalizing st with
  | nil => exact ⟨[],rfl⟩
  | @wrap a m n _ _ inner rest =>
    obtain ⟨first,one⟩ := inner (st ++ [a])
    obtain ⟨last,two⟩ := rest st
    exact ⟨first ++ a :: last,runAppend.mpr ⟨_,first,a :: last,one,by rw [runPop,two]; rfl,rfl⟩⟩

theorem topPushed {cs : List (Call α)} {st out : List α} {a : α} (ok : run [] cs = some (st ++ [a],out)) :
    ∃ l mid before, cs = l ++ .push a :: mid ∧ Balanced mid ∧ run [] l = some (st,before) := by
  generalize size : cs.length = n
  induction n using Nat.strong_induction_on generalizing cs st out a with
  | _ n ih =>
    subst size
    rcases List.eq_nil_or_concat' cs with rfl | ⟨init,c,rfl⟩
    · simp [run] at ok
    · obtain ⟨mid,first,last,one,two,_⟩ := runAppend.mp ok
      cases c with
      | push b =>
        obtain ⟨same,_⟩ := Prod.mk.inj (Option.some.inj two)
        obtain ⟨rfl,top⟩ := List.append_inj' same rfl
        cases List.head_eq_of_cons_eq top
        exact ⟨init,[],first,rfl,.nil,one⟩
      | pop =>
        obtain ⟨rest,b,_,rfl,two,_⟩ := popSource two
        cases (Prod.mk.inj (Option.some.inj two)).1
        -- the last pop closes a push of its own, and what is on top now was on top before that
        obtain ⟨l₁,inner,before,rfl,closed,reached⟩ := ih init.length (by simp) one rfl
        obtain ⟨l,outer,earlier,rfl,opened,reached⟩ := ih l₁.length (by simp) reached rfl
        exact ⟨l,outer ++ .push b :: inner ++ [.pop],earlier,by simp,balancedSnoc b opened closed,reached⟩

theorem popAt {cs : List (Call α)} {k : Nat} (less : k < pops cs) : ∃ l r, cs = l ++ .pop :: r ∧ pops l = k := by
  induction cs generalizing k with
  | nil => simp [pops] at less
  | cons c cs ih =>
    cases c with
    | push a =>
      obtain ⟨l,r,rfl,same⟩ := ih less
      exact ⟨.push a :: l,r,rfl,same⟩
    | pop =>
      cases k with
      | zero => exact ⟨[],cs,rfl,rfl⟩
      | succ k =>
        obtain ⟨l,r,rfl,same⟩ := ih (Nat.lt_of_succ_lt_succ less)
        exact ⟨.pop :: l,r,rfl,congrArg (·+1) same⟩

theorem popCloses {cs : List (Call α)} {st out : List α} (ok : run [] cs = some (st,out)) (k : Nat) (a : α) :
    out[k]? = some a ↔ ∃ l mid r, cs = l ++ .push a :: mid ++ .pop :: r ∧ Balanced mid ∧ pops (l ++ mid) = k := by
  constructor
  · intro found
    have less : k < pops cs := by
      rw [← (runCounts ok).1]
      exact (List.getElem?_eq_some_iff.mp found).1
    obtain ⟨head,r,rfl,same⟩ := popAt less
    obtain ⟨mid,first,last,one,two,rfl⟩ := runAppend.mp ok
    obtain ⟨rest,b,more,rfl,_,rfl⟩ := popSource two
    have here := (runCounts one).1.trans same
    rw [List.getElem?_append_right (by omega),here,Nat.sub_self] at found
    cases found
    obtain ⟨l,inner,_,rfl,balanced,_⟩ := topPushed one
    exact ⟨l,inner,r,rfl,balanced,by simpa [pops] using same⟩
  · rintro ⟨l,mid,r,rfl,balanced,rfl⟩
    rw [List.append_assoc] at ok
    obtain ⟨below,first,last,one,two,rfl⟩ := runAppend.mp ok
    obtain ⟨inner,closed⟩ := balancedRun balanced (below ++ [a])
    rw [List.cons_append,runPush] at two
    obtain ⟨top,second,tail,again,popping,rfl⟩ := runAppend.mp two
    obtain ⟨rfl,rfl⟩ := Prod.mk.inj (Option.some.inj (closed.symm.trans again))
    rw [runPop,Option.map_eq_some_iff] at popping
    obtain ⟨⟨left,out⟩,_,same⟩ := popping
    obtain ⟨_,rfl⟩ := Prod.mk.inj same
    have counts : (first ++ inner).length = pops (l ++ mid) := by
      rw [List.length_append,popsAppend,(runCounts one).1,(runCounts closed).1]
    rw [← List.append_assoc,← counts,List.getElem?_append_right (Nat.le_refl _),Nat.sub_self]
    rfl

theorem orderExact {cs : List (Call α)} {st out : List α} (ok : run [] cs = some (st,out)) :
    out <+: pushed cs ↔ ∀ l a mid r, cs = l ++ .push a :: mid ++ .pop :: r → Balanced mid →
      (pushed cs)[pops (l ++ mid)]? = some a := by
  rw [List.prefix_iff_getElem?]
  constructor
  · intro same l a mid r split balanced
    obtain ⟨less,found⟩ := List.getElem?_eq_some_iff.mp ((popCloses ok _ a).mpr ⟨l,mid,r,split,balanced,rfl⟩)
    rw [same _ less,found]
  · intro closes k less
    obtain ⟨l,mid,r,split,balanced,here⟩ := (popCloses ok k out[k]).mp (List.getElem?_eq_getElem less)
    have closed := closes l _ mid r split balanced
    rwa [here] at closed

section Contents
variable {β : Type}

def Alone (cs : List (Call α)) : Prop := ∀ l r, cs = l ++ .pop :: r → (pushed l).length = pops l+1

theorem shapeCounts {cs : List (Call α)} {cs' : List (Call β)} (same : cs'.map Call.isPush = cs.map Call.isPush) :
    pops cs' = pops cs ∧ (pushed cs').length = (pushed cs).length := by
  induction cs generalizing cs' with
  | nil =>
    cases List.map_eq_nil_iff.mp same
    exact ⟨rfl,rfl⟩
  | cons c cs ih =>
    obtain ⟨c',rest,rfl,first,others⟩ := List.map_eq_cons_iff.mp same
    obtain ⟨popped,pushes⟩ := ih others
    cases c <;> cases c' <;> first | contradiction | simp [pops,pushed,popped,pushes]

theorem shapeRuns {cs : List (Call α)} {cs' : List (Call β)} (same : cs'.map Call.isPush = cs.map Call.isPush)
    {st : List α} {st' : List β} (long : st'.length = st.length) {r : List α × List α} (ok : run st cs = some r) :
    ∃ r', run st' cs' = some r' := by
  induction cs generalizing cs' st st' r with
  | nil =>
    cases List.map_eq_nil_iff.mp same
    exact ⟨_,rfl⟩
  | cons c cs ih =>
    obtain ⟨c',rest,rfl,first,others⟩ := List.map_eq_cons_iff.mp same
    cases c with
    | push a =>
      cases c' with
      | push b =>
        have longer : (st' ++ [b]).length = (st ++ [a]).length := by simp [long]
        exact ih others longer ok
      | pop => contradiction
    | pop =>
      cases c' with
      | push b => contradiction
      | pop =>
        obtain ⟨below,a,out,rfl,ok,_⟩ := popSource ok
        rcases List.eq_nil_or_concat' st' with rfl | ⟨below',b,rfl⟩
        · simp at long
        · obtain ⟨r',ok'⟩ := ih others (by simpa using long) ok
          exact ⟨_,by rw [runPop,ok']; rfl⟩

theorem shapeAlone {cs : List (Call α)} {cs' : List (Call β)} (same : cs'.map Call.isPush = cs.map Call.isPush)
    (alone : Alone cs) : Alone cs' := by
  rintro l' r' rfl
  rw [List.map_append,List.map_cons] at same
  obtain ⟨l,rest,rfl,first,others⟩ := List.map_eq_append_iff.mp same.symm
  obtain ⟨c,r,rfl,here,_⟩ := List.map_eq_cons_iff.mp others
  cases c with
  | push a => contradiction
  | pop =>
    obtain ⟨popped,pushes⟩ := shapeCounts first
    rw [← popped,← pushes]
    exact alone l r rfl

theorem aloneKeeps {st : List α} {cs : List (Call α)} {left out : List α} (ok : run st cs = some (left,out))
    (alone : ∀ l r, cs = l ++ .pop :: r → st.length+(pushed l).length = pops l+1) : st ++ pushed cs = out ++ left := by
  induction cs generalizing st out with
  | nil =>
    obtain ⟨rfl,rfl⟩ := Prod.mk.inj (Option.some.inj ok)
    simp [pushed]
  | cons c cs ih =>
    cases c with
    | push a =>
      have rest := ih ok fun l r split => by
        have here := alone (.push a :: l) r (by rw [split]; rfl)
        simp only [pushed,pops,List.length_cons,List.length_append,List.length_nil] at here ⊢
        omega
      rw [← rest,pushed,List.append_assoc]
      rfl
    | pop =>
      obtain ⟨below,a,more,rfl,ok,same⟩ := popSource ok
      cases same
      have one := alone [] cs rfl
      simp only [pushed,pops,List.length_append,List.length_cons,List.length_nil] at one
      have rest := ih ok fun l r split => by
        have here := alone (.pop :: l) r (by rw [split]; rfl)
        simp only [pushed,pops,List.length_cons,List.length_append,List.length_nil] at here
        omega
      rw [List.eq_nil_of_length_eq_zero (by omega : below.length = 0)] at rest ⊢
      rw [pushed,← List.nil_append (pushed cs),rest]
      rfl

def relabel (f : Nat → β) : Nat → List (Call α) → List (Call β)
  | _, [] => []
  | n, .push _ :: cs => .push (f n) :: relabel f (n+1) cs
  | n, .pop :: cs => .pop :: relabel f n cs

theorem relabelShape (f : Nat → β) (n : Nat) (cs : List (Call α)) :
    (relabel f n cs).map Call.isPush = cs.map Call.isPush := by
  induction cs generalizing n with
  | nil => rfl
  | cons c cs ih => cases c <;> simp [relabel,Call.isPush,ih]

theorem relabelPushed (f : Nat → β) (n : Nat) (cs : List (Call α)) :
    pushed (relabel f n cs) = (List.range' n (pushed cs).length).map f := by
  induction cs generalizing n with
  | nil => rfl
  | cons c cs ih => cases c <;> simp [relabel,pushed,ih,List.range'_succ]

/- With all contents different, pops in the order of the pushes leave nothing to be pushed above
an element that is still there. -/
theorem labelsAlone {f : Nat → β} (distinct : Function.Injective f) {cs : List (Call α)} {cs' : List (Call β)}
    (labels : cs' = relabel f 0 cs) {r : List β × List β} (ok : run [] cs' = some r) (order : r.2 <+: pushed cs') :
    Alone cs' := by
  have closes : ∀ l a mid r, cs' = l ++ .push a :: mid ++ .pop :: r → Balanced mid →
      (pushed l).length = pops l+pops mid := by
    intro l a mid r split balanced
    have popped := (orderExact ok).mp order l a mid r split balanced
    have here : (pushed cs')[(pushed l).length]? = some a := by simp [split,pushed]
    rw [labels,relabelPushed] at popped here
    obtain ⟨i,found,same⟩ := Option.map_eq_some_iff.mp ((List.getElem?_map ..).symm.trans popped)
    obtain ⟨j,found',same'⟩ := Option.map_eq_some_iff.mp ((List.getElem?_map ..).symm.trans here)
    have one := distinct (same.trans same'.symm)
    obtain ⟨_,index⟩ := List.getElem?_eq_some_iff.mp found
    obtain ⟨_,index'⟩ := List.getElem?_eq_some_iff.mp found'
    simp only [List.getElem_range',popsAppend] at index index'
    omega
  intro head r split
  obtain ⟨st,first,last,one,two,_⟩ := runAppend.mp (split ▸ ok : run [] (head ++ .pop :: r) = some (_,_))
  obtain ⟨rest,b,_,rfl,_,_⟩ := popSource two
  obtain ⟨l,mid,_,rfl,balanced,_⟩ := topPushed one
  have outer := closes l b mid r split balanced
  cases balanced with
  | nil =>
    simp only [pushedAppend,popsAppend,pushed,pops,List.length_append,List.length_cons,List.length_nil] at outer ⊢
    omega
  | @wrap a m n inner _ =>
    have within := closes (l ++ [.push b]) a m (n ++ .pop :: r) (by simp [split]) inner
    simp only [pushedAppend,popsAppend,pushed,pops,List.length_append,List.length_cons,List.length_nil,
      List.cons_append] at outer within ⊢
    omega

theorem orderAlways {f : Nat → α} (distinct : Function.Injective f) {cs : List (Call α)} {r : List α × List α}
    (ok : run [] cs = some r) :
    (∀ (cs' : List (Call α)) r', cs'.map Call.isPush = cs.map Call.isPush → run [] cs' = some r' → r'.2 <+: pushed cs') ↔ Alone cs := by
  constructor
  · intro order
    have same := relabelShape f 0 cs
    obtain ⟨r',ok'⟩ := shapeRuns same rfl ok
    exact shapeAlone same.symm (labelsAlone distinct rfl ok' (order _ r' same ok'))
  · intro alone cs' r' same ok'
    have kept := aloneKeeps ok' fun l r split => by simpa using shapeAlone same alone l r split
    exact ⟨r'.1,by rw [← kept]; rfl⟩

end Contents
end Stacks
