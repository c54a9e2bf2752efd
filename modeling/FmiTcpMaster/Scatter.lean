import FmiTcpMaster.UnsetGroups

/-! setValues() and setFutureValues() as maps from the pairs to the components. Of several pairs
for one reference the last counts, so their order matters only where they differ. -/
namespace FmiTcpMaster

section Last
variable {r : Int} {v : ℚ} {pairs : List (Int × ℚ)}

theorem lastValueMem (found : lastValue r pairs = some v) : (r,v) ∈ pairs := by
  induction pairs with
  | nil => contradiction
  | cons p ps ih =>
    rw [lastValue,Option.or_eq_some_iff] at found
    rcases found with later | ⟨_,now⟩
    · exact List.mem_cons_of_mem _ (ih later)
    · split at now <;> try contradiction
      rename_i same
      cases Option.some.inj now
      exact same ▸ List.mem_cons_self

theorem lastValueNone : lastValue r pairs = none ↔ r ∉ pairs.map Prod.fst := by
  induction pairs with
  | nil => simp [lastValue]
  | cons p ps ih =>
    rw [lastValue,Option.or_eq_none_iff,ih,List.map_cons,List.mem_cons,not_or,and_comm]
    refine and_congr_left fun _ => ?_
    by_cases same : p.1 = r
    · simp [same]
    · simp [same,Ne.symm same]

theorem lastValueAt {before after : List (Int × ℚ)} (split : pairs = before ++ (r,v) :: after)
    (last : r ∉ after.map Prod.fst) : lastValue r pairs = some v := by
  subst split
  induction before with
  | nil => rw [List.nil_append,lastValue,lastValueNone.mpr last,Option.none_or,if_pos rfl]
  | cons p ps ih => rw [List.cons_append,lastValue,ih,Option.some_or]

end Last

def Consistent (pairs : List (Int × ℚ)) : Prop := ∀ p ∈ pairs, ∀ q ∈ pairs, p.1 = q.1 → p.2 = q.2

theorem lastValuePerm {pairs pairs' : List (Int × ℚ)} (perm : pairs.Perm pairs') (consistent : Consistent pairs) (r : Int) :
    lastValue r pairs' = lastValue r pairs := by
  cases first : lastValue r pairs with
  | none =>
    rw [lastValueNone] at first ⊢
    exact fun mem => first ((perm.map Prod.fst).mem_iff.mpr mem)
  | some v =>
    cases second : lastValue r pairs' with
    | none =>
      have mem := (perm.map Prod.fst).mem_iff.mp (List.mem_map_of_mem (lastValueMem first))
      exact absurd mem (lastValueNone.mp second)
    | some w =>
      have one := consistent _ (perm.mem_iff.mpr (lastValueMem second)) _ (lastValueMem first) rfl
      exact congrArg some one

structure Scattered (pairs : List (Int × ℚ)) (refs : List Int) (old new : List ℚ) : Prop where
  length : new.length = old.length
  last : ∀ (j : Nat) r before v after, j < old.length → refs[j]? = some r → pairs = before ++ (r,v) :: after →
    r ∉ after.map Prod.fst → new[j]? = some v
  kept : ∀ (j : Nat) r, refs[j]? = some r → r ∉ pairs.map Prod.fst → new[j]? = old[j]?

namespace StrongConnector

theorem overwrittenAt {pairs : List (Int × ℚ)} {refs : List Int} {j : Nat} {r : Int} (slot : refs[j]? = some r) (old : List ℚ) :
    (overwritten pairs refs old)[j]? = old[j]?.map fun x => (lastValue r pairs).getD x := by
  rw [overwritten,List.getElem?_zipWith,slot]
  cases old[j]? <;> rfl

theorem overwrittenScattered (pairs : List (Int × ℚ)) {refs : List Int} {old : List ℚ} (long : old.length ≤ refs.length) :
    Scattered pairs refs old (overwritten pairs refs old) where
  length := by simp [overwritten,long]
  last := by
    intro j r before v after inside slot split last
    rw [overwrittenAt slot,lastValueAt split last,List.getElem?_eq_getElem inside]
    rfl
  kept := by
    intro j r slot absent
    rw [overwrittenAt slot,lastValueNone.mpr absent]
    exact Option.map_id'

theorem overwrittenPerm {pairs pairs' : List (Int × ℚ)} (perm : pairs.Perm pairs') (consistent : Consistent pairs)
    (refs : List Int) (old : List ℚ) : overwritten pairs' refs old = overwritten pairs refs old := by
  simp only [overwritten,lastValuePerm perm consistent]

theorem sameConnector {k k' : StrongConnector} (layout : k'.layout = k.layout)
    (present : ∀ g, k'.present g = k.present g) (future : ∀ g, k'.future g = k.future g) : k' = k := by
  have p := List.ofFn_injective (present .position)
  have q := List.ofFn_injective (present .quaternion)
  have v := List.ofFn_injective (present .velocity)
  have w := List.ofFn_injective (present .angularVelocity)
  have f := List.ofFn_injective (present .force)
  have t := List.ofFn_injective (present .torque)
  have fv := List.ofFn_injective (future .velocity)
  have fw := List.ofFn_injective (future .angularVelocity)
  obtain ⟨conn,_,_,_,_,_,_,_,_,_,_,_,_⟩ := k
  obtain ⟨conn',_,_,_,_,_,_,_,_,_,_,_,_⟩ := k'
  obtain ⟨u,_,_,_,_,_,_,_,_⟩ := conn
  obtain ⟨u',_,_,_,_,_,_,_,_⟩ := conn'
  simp only [StrongConnector.layout,StrongConnector.mk.injEq,ScConnector.mk.injEq] at layout p q v w f t fv fw ⊢
  tauto

theorem assignPerm (k : StrongConnector) {pairs pairs' : List (Int × ℚ)} (perm : pairs.Perm pairs')
    (consistent : Consistent pairs) : k.assignValues pairs' = k.assignValues pairs := by
  refine sameConnector ?_ (fun g => ?_) fun g => ?_
  · rw [layoutAssign,layoutAssign]
  · rw [assignPresentList,assignPresentList,overwrittenPerm perm consistent]
  · rw [assignStillFuture,assignStillFuture]

theorem assignFuturePerm (k : StrongConnector) {pairs pairs' : List (Int × ℚ)} (perm : pairs.Perm pairs')
    (consistent : Consistent pairs) : k.assignFutureValues pairs' = k.assignFutureValues pairs := by
  refine sameConnector ?_ (fun g => ?_) fun g => ?_
  · rw [layoutAssignFuture,layoutAssignFuture]
  · rw [assignFutureStill,assignFutureStill]
  · rw [assignFutureList,assignFutureList,overwrittenPerm perm consistent]

theorem scatterLast (k : StrongConnector) {refs : List Int} {values : List ℚ} (same : refs.length = values.length) :
    (∃ k', k.setValues refs values = .ok k' ∧ k'.layout = k.layout ∧
      (∀ g, Scattered (refs.zip values) (k.slots g) (k.present g) (k'.present g)) ∧ ∀ g, k'.future g = k.future g) ∧
    (∃ k', k.setFutureValues refs values = .ok k' ∧ k'.layout = k.layout ∧
      (∀ g, Scattered (refs.zip values) (k.slots g) (k.future g) (k'.future g)) ∧ ∀ g, k'.present g = k.present g) ∧
    ∀ (refs' : List Int) (values' : List ℚ), refs'.length = values'.length → (refs.zip values).Perm (refs'.zip values') →
      Consistent (refs.zip values) → k.setValues refs' values' = k.setValues refs values ∧
        k.setFutureValues refs' values' = k.setFutureValues refs values := by
  refine ⟨⟨_,if_pos same,layoutAssign k _,fun g => ?_,assignStillFuture k _⟩,
    ⟨_,if_pos same,layoutAssignFuture k _,fun g => ?_,assignFutureStill k _⟩,fun refs' values' same' perm consistent => ?_⟩
  · rw [assignPresentList]
    exact overwrittenScattered _ (k.presentLength g).le
  · rw [assignFutureList]
    exact overwrittenScattered _ (k.futureLength g)
  · rw [setValues,setValues,setFutureValues,setFutureValues,if_pos same,if_pos same',if_pos same,if_pos same',
      assignPerm k perm consistent,assignFuturePerm k perm consistent]
    exact ⟨rfl,rfl⟩

def aliased : StrongConnector := (Master.lockable 1).setTorqueValueRefs 7 7 18

theorem scatterLastAliased :
    ∃ k', aliased.setValues [7,8,7] [1,2,3] = .ok k' ∧ ∀ g,
      Scattered [(7,1),(8,2),(7,3)] (aliased.slots g) (aliased.present g) (k'.present g) := by
  have same : ([7,8,7] : List Int).length = ([1,2,3] : List ℚ).length := rfl
  obtain ⟨⟨k',ok,_,present,_⟩,_⟩ := scatterLast aliased same
  exact ⟨k',ok,present⟩

end StrongConnector
end FmiTcpMaster
