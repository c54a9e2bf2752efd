import FmiTcpMaster.ConnectorValues

/-! The six groups of a connector: what the flags, references and components of each are
after any calls, and what an assignment of values does to a group that was never set. -/
namespace FmiTcpMaster

inductive ConnectorGroup where
  | position | quaternion | velocity | angularVelocity | force | torque
  deriving DecidableEq, Repr

def ValueRefsCall.group : ValueRefsCall → ConnectorGroup
  | .position .. => .position
  | .quaternion .. => .quaternion
  | .velocity .. => .velocity
  | .angularVelocity .. => .angularVelocity
  | .force .. => .force
  | .torque .. => .torque

namespace StrongConnector

def has (k : StrongConnector) : ConnectorGroup → Bool
  | .position => k.hasPosition
  | .quaternion => k.hasQuaternion
  | .velocity => k.hasVelocity
  | .angularVelocity => k.hasAngularVelocity
  | .force => k.hasForce
  | .torque => k.hasTorque

def slots (k : StrongConnector) : ConnectorGroup → List Int
  | .position => List.ofFn k.vrefPosition
  | .quaternion => List.ofFn k.vrefQuaternion
  | .velocity => List.ofFn k.vrefVelocity
  | .angularVelocity => List.ofFn k.vrefAngularVelocity
  | .force => List.ofFn k.vrefForce
  | .torque => List.ofFn k.vrefTorque

def present (k : StrongConnector) : ConnectorGroup → List ℚ
  | .position => List.ofFn k.conn.position
  | .quaternion => List.ofFn k.conn.quaternion
  | .velocity => List.ofFn k.conn.velocity
  | .angularVelocity => List.ofFn k.conn.angularVelocity
  | .force => List.ofFn k.conn.force
  | .torque => List.ofFn k.conn.torque

def future (k : StrongConnector) : ConnectorGroup → List ℚ
  | .velocity => List.ofFn k.conn.futureVelocity
  | .angularVelocity => List.ofFn k.conn.futureAngularVelocity
  | .position | .quaternion | .force | .torque => []

def contribution (k : StrongConnector) : ConnectorGroup → List Int
  | .position => if k.hasPosition then k.getPositionValueRefs else []
  | .quaternion => if k.hasQuaternion then k.getQuaternionValueRefs else []
  | .velocity => if k.hasVelocity then k.getVelocityValueRefs else []
  | .angularVelocity => if k.hasAngularVelocity then k.getAngularVelocityValueRefs else []
  | .force | .torque => []

theorem kinematicContributions (k : StrongConnector) : FMIClient.kinematicValueReferences k =
    [ConnectorGroup.position,.quaternion,.velocity,.angularVelocity,.force,.torque].flatMap k.contribution := by
  simp [FMIClient.kinematicValueReferences,contribution]

def made (memory : StrongConnector) (slave : ClientPtr) (calls : List ValueRefsCall) : StrongConnector :=
  calls.foldl apply (memory.construct slave)

section Assigning
variable {n : Nat} {set : StrongConnector → Int → ℚ → StrongConnector}

def overwritten (pairs : List (Int × ℚ)) (refs : List Int) (components : List ℚ) : List ℚ :=
  List.zipWith (fun r x => (lastValue r pairs).getD x) refs components

theorem assignedList (G : Group n set) (pairs : List (Int × ℚ)) (k : StrongConnector) :
    List.ofFn (G.component (pairs.foldl (fun k p => set k p.1 p.2) k)) =
      overwritten pairs (List.ofFn (G.vref k)) (List.ofFn (G.component k)) := by
  refine List.ext_getElem (by simp [overwritten]) fun i _ _ => ?_
  simp only [overwritten,List.getElem_ofFn,List.getElem_zipWith]
  exact assignedLast G pairs k _

end Assigning

def forceGroup : Group 3 setValue :=
  ⟨hasForce,vrefForce,fun k => k.conn.force,fun _ _ _ => rfl,fun _ _ _ => rfl,fun _ _ _ => rfl⟩

def torqueGroup : Group 3 setValue :=
  ⟨hasTorque,vrefTorque,fun k => k.conn.torque,fun _ _ _ => rfl,fun _ _ _ => rfl,fun _ _ _ => rfl⟩

theorem assignPresentList (k : StrongConnector) (pairs : List (Int × ℚ)) (g : ConnectorGroup) :
    (k.assignValues pairs).present g = overwritten pairs (k.slots g) (k.present g) := by
  cases g with
  | position => exact assignedList positionGroup pairs k
  | quaternion => exact assignedList quaternionGroup pairs k
  | velocity => exact assignedList velocityGroup pairs k
  | angularVelocity => exact assignedList angularVelocityGroup pairs k
  | force => exact assignedList forceGroup pairs k
  | torque => exact assignedList torqueGroup pairs k

theorem assignFutureList (k : StrongConnector) (pairs : List (Int × ℚ)) (g : ConnectorGroup) :
    (k.assignFutureValues pairs).future g = overwritten pairs (k.slots g) (k.future g) := by
  cases g with
  | velocity => exact assignedList futureVelocityGroup pairs k
  | angularVelocity => exact assignedList futureAngularVelocityGroup pairs k
  | _ => simp [future,overwritten]

theorem assignStillFuture (k : StrongConnector) (pairs : List (Int × ℚ)) (g : ConnectorGroup) :
    (k.assignValues pairs).future g = k.future g :=
  pairsKeep (f := fun k => k.future g) (fun _ _ _ => by cases g <;> rfl) pairs k

theorem assignFutureStill (k : StrongConnector) (pairs : List (Int × ℚ)) (g : ConnectorGroup) :
    (k.assignFutureValues pairs).present g = k.present g :=
  pairsKeep (f := fun k => k.present g) (fun _ _ _ => by cases g <;> rfl) pairs k

def Misses (pairs : List (Int × ℚ)) (refs : List Int) (components : List ℚ) : Prop :=
  ∀ p ∈ refs.zip components, ∀ v ∈ lastValue p.1 pairs, v = p.2

instance (pairs refs components) : Decidable (Misses pairs refs components) := by unfold Misses; infer_instance

theorem overwrittenSame {pairs : List (Int × ℚ)} {refs : List Int} {components : List ℚ}
    (long : components.length ≤ refs.length) :
    overwritten pairs refs components = components ↔ Misses pairs refs components := by
  unfold overwritten Misses
  induction components generalizing refs with
  | nil => simp
  | cons x xs ih =>
    cases refs with
    | nil => simp at long
    | cons r rs =>
      rw [List.zipWith_cons_cons,List.zip_cons_cons,List.forall_mem_cons,List.cons.injEq,ih (by simpa using long)]
      refine and_congr_left fun _ => ?_
      cases lastValue r pairs with
      | none => simp
      | some v => simp

theorem presentLength (k : StrongConnector) (g : ConnectorGroup) : (k.present g).length = (k.slots g).length := by
  cases g <;> simp [present,slots]

theorem futureLength (k : StrongConnector) (g : ConnectorGroup) : (k.future g).length ≤ (k.slots g).length := by
  cases g <;> simp [future,slots]

structure Beside (k k' : StrongConnector) (g : ConnectorGroup) : Prop where
  has : k'.has g = k.has g
  slots : k'.slots g = k.slots g
  present : k'.present g = k.present g
  future : k'.future g = k.future g

theorem applyBeside (k : StrongConnector) (call : ValueRefsCall) {g : ConnectorGroup} (other : call.group ≠ g) :
    Beside k (k.apply call) g := by
  cases call <;> cases g <;> first | exact absurd rfl other | exact ⟨rfl,rfl,rfl,rfl⟩

theorem applyHas (k : StrongConnector) (call : ValueRefsCall) (g : ConnectorGroup) :
    (k.apply call).has g = (k.has g || decide (call.group = g)) := by
  cases call <;> cases g <;> simp [apply,has,ValueRefsCall.group,setPositionValueRefs,setQuaternionValueRefs,
    setVelocityValueRefs,setAngularVelocityValueRefs,setForceValueRefs,setTorqueValueRefs]

theorem callsBeside (k : StrongConnector) {calls : List ValueRefsCall} {g : ConnectorGroup}
    (unset : g ∉ calls.map ValueRefsCall.group) : Beside k (calls.foldl apply k) g := by
  induction calls generalizing k with
  | nil => exact ⟨rfl,rfl,rfl,rfl⟩
  | cons call calls ih =>
    rw [List.map_cons,List.mem_cons,not_or] at unset
    have first := applyBeside k call (Ne.symm unset.1)
    have rest := ih (k.apply call) unset.2
    exact ⟨rest.has.trans first.has,rest.slots.trans first.slots,rest.present.trans first.present,
      rest.future.trans first.future⟩

theorem callsHas (k : StrongConnector) (calls : List ValueRefsCall) (g : ConnectorGroup) :
    (calls.foldl apply k).has g = true ↔ k.has g = true ∨ g ∈ calls.map ValueRefsCall.group := by
  induction calls generalizing k with
  | nil => simp
  | cons call calls ih =>
    rw [List.foldl_cons,ih,applyHas,Bool.or_eq_true,decide_eq_true_eq,List.map_cons,List.mem_cons,or_assoc,
      eq_comm (a := g)]

theorem madeBeside (memory : StrongConnector) (slave : ClientPtr) {calls : List ValueRefsCall} {g : ConnectorGroup}
    (unset : g ∉ calls.map ValueRefsCall.group) : Beside memory (made memory slave calls) g := by
  have called := callsBeside (memory.construct slave) unset
  cases g <;> exact ⟨called.has,called.slots,called.present,called.future⟩

theorem madeHas (memory : StrongConnector) (slave : ClientPtr) (calls : List ValueRefsCall) (g : ConnectorGroup) :
    (made memory slave calls).has g = true ↔ memory.has g = true ∨ g ∈ calls.map ValueRefsCall.group := by
  rw [made,callsHas]
  cases g <;> exact Iff.rfl

/- What is expected of a group that was never set. -/
structure Inert (k : StrongConnector) (g : ConnectorGroup) (refs : List Int) (values : List ℚ) : Prop where
  reports : k.has g = false
  contributes : k.contribution g = []
  setValues : ∃ k', k.setValues refs values = .ok k' ∧ k'.present g = k.present g ∧ k'.future g = k.future g
  setFutureValues : ∃ k', k.setFutureValues refs values = .ok k' ∧ k'.present g = k.present g ∧ k'.future g = k.future g

theorem contributionUnset {k : StrongConnector} {g : ConnectorGroup} (unset : k.has g = false) :
    k.contribution g = [] := by
  cases g <;> simp_all [has,contribution]

theorem inertExact {k : StrongConnector} {g : ConnectorGroup} {refs : List Int} {values : List ℚ}
    (same : refs.length = values.length) : k.Inert g refs values ↔ k.has g = false ∧
      Misses (refs.zip values) (k.slots g) (k.present g) ∧ Misses (refs.zip values) (k.slots g) (k.future g) := by
  have set : k.setValues refs values = .ok (k.assignValues (refs.zip values)) := if_pos same
  have setFuture : k.setFutureValues refs values = .ok (k.assignFutureValues (refs.zip values)) := if_pos same
  rw [← overwrittenSame (k.presentLength g).le,← overwrittenSame (k.futureLength g)]
  constructor
  · rintro ⟨reports,_,⟨k₁,ok₁,present,_⟩,k₂,ok₂,_,future⟩
    cases Except.ok.inj (set.symm.trans ok₁)
    cases Except.ok.inj (setFuture.symm.trans ok₂)
    exact ⟨reports,(assignPresentList k _ g).symm.trans present,(assignFutureList k _ g).symm.trans future⟩
  · rintro ⟨reports,present,future⟩
    exact ⟨reports,contributionUnset reports,
      ⟨_,set,(assignPresentList k _ g).trans present,assignStillFuture k _ g⟩,
      ⟨_,setFuture,assignFutureStill k _ g,(assignFutureList k _ g).trans future⟩⟩

theorem lockAccepts (connA connB : StrongConnector) : (∃ s, StrongConnection.lock connA connB = .ok s) ↔
    ∀ g, connA.has g = true ∧ connB.has g = true := by
  unfold StrongConnection.lock
  constructor
  · rintro ⟨s,ok⟩ g
    split at ok <;> try contradiction
    rename_i all
    simp only [Bool.and_eq_true] at all
    cases g <;> simp only [has] <;> tauto
  · intro all
    have set : ∀ g, connA.has g = true ∧ connB.has g = true := all
    rw [if_pos]
    · exact ⟨_,rfl⟩
    · have p := set .position
      have q := set .quaternion
      have v := set .velocity
      have w := set .angularVelocity
      have f := set .force
      have t := set .torque
      simp only [has] at p q v w f t
      simp only [p,q,v,w,f,t,Bool.and_self]

theorem unsetInert (memory : StrongConnector) (slave : ClientPtr) (calls : List ValueRefsCall) {refs : List Int}
    {values : List ℚ} (same : refs.length = values.length) :
    (∀ g ∉ calls.map ValueRefsCall.group, (made memory slave calls).Inert g refs values) ↔
      ∀ g ∉ calls.map ValueRefsCall.group, memory.has g = false ∧
        Misses (refs.zip values) (memory.slots g) (memory.present g) ∧
        Misses (refs.zip values) (memory.slots g) (memory.future g) := by
  refine forall₂_congr fun g unset => ?_
  have beside := madeBeside memory slave unset
  rw [inertExact same,beside.has,beside.slots,beside.present,beside.future]

theorem lockDecides (memoryA memoryB : StrongConnector) (slaveA slaveB : ClientPtr) (callsA callsB : List ValueRefsCall) :
    ((∃ s, StrongConnection.lock (made memoryA slaveA callsA) (made memoryB slaveB callsB) = .ok s) ↔
        ∀ g, g ∈ callsA.map ValueRefsCall.group ∧ g ∈ callsB.map ValueRefsCall.group) ↔
      (∃ g, (g ∉ callsA.map ValueRefsCall.group ∧ memoryA.has g = false) ∨
        (g ∉ callsB.map ValueRefsCall.group ∧ memoryB.has g = false)) ∨
      ∀ g, g ∈ callsA.map ValueRefsCall.group ∧ g ∈ callsB.map ValueRefsCall.group := by
  rw [lockAccepts]
  simp only [madeHas]
  constructor
  · intro accepts
    by_cases off : ∃ g, (g ∉ callsA.map ValueRefsCall.group ∧ memoryA.has g = false) ∨
        (g ∉ callsB.map ValueRefsCall.group ∧ memoryB.has g = false)
    · exact Or.inl off
    · right
      refine accepts.mp fun g => ⟨?_,?_⟩
      · by_contra none
        rw [not_or,Bool.not_eq_true] at none
        exact off ⟨g,Or.inl ⟨none.2,none.1⟩⟩
      · by_contra none
        rw [not_or,Bool.not_eq_true] at none
        exact off ⟨g,Or.inr ⟨none.2,none.1⟩⟩
  · rintro (⟨g,missing⟩ | all)
    · constructor
      · intro flags
        rcases missing with ⟨unset,off⟩ | ⟨unset,off⟩
        · exact absurd ((flags g).1.resolve_right unset) (by simp [off])
        · exact absurd ((flags g).2.resolve_right unset) (by simp [off])
      · exact fun all g => ⟨Or.inr (all g).1,Or.inr (all g).2⟩
    · exact ⟨fun _ => all,fun _ g => ⟨Or.inr (all g).1,Or.inr (all g).2⟩⟩

/- What the memory must have held for the groups that are never set, and what the lock needs of it. -/
theorem unsetGroupsExact (memoryA memoryB : StrongConnector) (slaveA slaveB : ClientPtr) (callsA callsB : List ValueRefsCall) :
    (∀ (refs : List Int) (values : List ℚ), refs.length = values.length →
      ((∀ g ∉ callsA.map ValueRefsCall.group, (made memoryA slaveA callsA).Inert g refs values) ↔
        ∀ g ∉ callsA.map ValueRefsCall.group, memoryA.has g = false ∧
          Misses (refs.zip values) (memoryA.slots g) (memoryA.present g) ∧
          Misses (refs.zip values) (memoryA.slots g) (memoryA.future g))) ∧
    (((∃ s, StrongConnection.lock (made memoryA slaveA callsA) (made memoryB slaveB callsB) = .ok s) ↔
        ∀ g, g ∈ callsA.map ValueRefsCall.group ∧ g ∈ callsB.map ValueRefsCall.group) ↔
      (∃ g, (g ∉ callsA.map ValueRefsCall.group ∧ memoryA.has g = false) ∨
        (g ∉ callsB.map ValueRefsCall.group ∧ memoryB.has g = false)) ∨
      ∀ g, g ∈ callsA.map ValueRefsCall.group ∧ g ∈ callsB.map ValueRefsCall.group) :=
  ⟨fun _ _ same => unsetInert memoryA slaveA callsA same,lockDecides memoryA memoryB slaveA slaveB callsA callsB⟩

theorem unsetGroupsExactForce :
    (∀ g ∉ [ConnectorGroup.force],(made Master.blank 1 [.force 1 2 3]).Inert g [1,2] [5,6]) ↔
      ∀ g ∉ [ConnectorGroup.force],Master.blank.has g = false ∧
        Misses [((1 : Int),(5 : ℚ)),(2,6)] (Master.blank.slots g) (Master.blank.present g) ∧
        Misses [((1 : Int),(5 : ℚ)),(2,6)] (Master.blank.slots g) (Master.blank.future g) :=
  (unsetGroupsExact Master.blank Master.blank 1 2 [.force 1 2 3] []).1 [1,2] [5,6] rfl

def flagged : StrongConnector :=
  {Master.blank with
    hasPosition := true, hasQuaternion := true, hasVelocity := true, hasAngularVelocity := true, hasForce := true,
    hasTorque := true}

/- In zeroed memory the reference of every slot is 0: a value read for the reference 0 becomes the
position of a connector without position. Where all flags happen to be set the lock accepts bare connectors. -/
theorem unsetGroupsWritten :
    (¬ (made Master.blank 1 [.force 1 2 3]).Inert .position [0] [5]) ∧
    (∃ k', (made Master.blank 1 [.force 1 2 3]).setValues [0] [5] = .ok k' ∧ k'.present .position = [5,5,5]) ∧
    ∃ memory : StrongConnector, ∃ s, StrongConnection.lock (made memory 1 []) (made memory 2 []) = .ok s := by
  refine ⟨fun inert => ?_,?_,?_⟩
  · exact absurd ((inertExact rfl).mp inert) (by decide +kernel)
  · exact ⟨_,rfl,by decide +kernel⟩
  · exact ⟨flagged,⟨⟨1,2⟩⟩,by decide +kernel⟩

end StrongConnector
end FmiTcpMaster
