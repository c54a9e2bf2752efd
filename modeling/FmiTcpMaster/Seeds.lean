import FmiTcpMaster.Barrier
import Mathlib.Algebra.BigOperators.Group.List.Basic

/-! The three lists of value references of a client. The header documents three selections,
the source repeats one loop for all of them. -/
namespace FmiTcpMaster

namespace StrongConnector

def block (has : Bool) (vref : Fin 3 → Int) : List (Fin 3 → Int) := if has then [vref] else []

def velocityBlocks (k : StrongConnector) : List (Fin 3 → Int) :=
  block k.hasVelocity k.vrefVelocity ++ block k.hasAngularVelocity k.vrefAngularVelocity

def forceBlocks (k : StrongConnector) : List (Fin 3 → Int) :=
  block k.hasForce k.vrefForce ++ block k.hasTorque k.vrefTorque

theorem blockRefs (has : Bool) (vref : Fin 3 → Int) : (block has vref).flatMap List.ofFn = valueRefs has vref := by
  cases has with
  | false => rfl
  | true => exact List.append_nil _

theorem valueRefsNone {n : Nat} {has : Bool} {vref : Fin (n+1) → Int} : valueRefs has vref = [] ↔ has = false := by
  cases has <;> simp [valueRefs]

theorem kinematicGroups (k : StrongConnector) : FMIClient.kinematicValueReferences k =
    (k.getPositionValueRefs ++ k.getQuaternionValueRefs) ++ (k.getVelocityValueRefs ++ k.getAngularVelocityValueRefs) := by
  have guarded : ∀ {n : Nat} (has : Bool) (vref : Fin n → Int),
      (if has then valueRefs has vref else []) = valueRefs has vref := by
    intro n has vref
    cases has <;> rfl
  simp only [FMIClient.kinematicValueReferences,getPositionValueRefs,getQuaternionValueRefs,getVelocityValueRefs,
    getAngularVelocityValueRefs,guarded,List.append_assoc]

end StrongConnector

namespace FMIClient

def documentedSeedInput (c : FMIClient) : List Int :=
  c.strongConnectors.flatMap fun k => k.getForceValueRefs ++ k.getTorqueValueRefs

def documentedSeedOutput (c : FMIClient) : List Int :=
  c.strongConnectors.flatMap fun k => k.getVelocityValueRefs ++ k.getAngularVelocityValueRefs

end FMIClient

theorem flatMapExtra {A B : Type} (extra kept : A → List B) (xs : List A) :
    xs.flatMap (fun x => extra x ++ kept x) = xs.flatMap kept ↔ ∀ x ∈ xs, extra x = [] := by
  constructor
  · intro same x mem
    have lengths := congrArg List.length same
    simp only [List.length_flatMap,List.length_append,List.sum_map_add] at lengths
    have zero : (xs.map fun x => (extra x).length).sum = 0 := by omega
    exact List.eq_nil_of_length_eq_zero
      (List.sum_eq_zero_iff_forall_eq_nat.mp zero _ (List.mem_map.mpr ⟨x,mem,rfl⟩))
  · intro none
    exact List.flatMap_congr fun x mem => by rw [none x mem,List.nil_append]

theorem flatMapBlocks {xs ys : List (Fin 3 → Int)} : xs.flatMap List.ofFn = ys.flatMap List.ofFn ↔ xs = ys := by
  refine ⟨fun same => ?_,fun same => by rw [same]⟩
  induction xs generalizing ys with
  | nil =>
    cases ys with
    | nil => rfl
    | cons y ys => simp [List.ofFn_succ] at same
  | cons x xs ih =>
    cases ys with
    | nil => simp [List.ofFn_succ] at same
    | cons y ys =>
      rw [List.flatMap_cons,List.flatMap_cons] at same
      obtain ⟨head,tail⟩ := List.append_inj same (by rw [List.length_ofFn,List.length_ofFn])
      rw [List.ofFn_injective head,ih tail]

theorem seedOutputExact (c : FMIClient) : c.getStrongSeedOutputValueReferences = c.documentedSeedOutput ↔
    ∀ k ∈ c.strongConnectors, k.hasPosition = false ∧ k.hasQuaternion = false := by
  have lists : c.getStrongSeedOutputValueReferences = c.strongConnectors.flatMap fun k =>
      (k.getPositionValueRefs ++ k.getQuaternionValueRefs) ++ (k.getVelocityValueRefs ++ k.getAngularVelocityValueRefs) :=
    List.flatMap_congr fun k _ => k.kinematicGroups
  rw [lists,FMIClient.documentedSeedOutput,flatMapExtra]
  refine forall₂_congr fun k _ => ?_
  rw [List.append_eq_nil_iff]
  exact and_congr StrongConnector.valueRefsNone StrongConnector.valueRefsNone

theorem documentedBlocks (c : FMIClient) :
    c.documentedSeedOutput = (c.strongConnectors.flatMap StrongConnector.velocityBlocks).flatMap List.ofFn ∧
    c.documentedSeedInput = (c.strongConnectors.flatMap StrongConnector.forceBlocks).flatMap List.ofFn := by
  constructor
  · rw [List.flatMap_assoc]
    refine List.flatMap_congr fun k _ => ?_
    rw [StrongConnector.velocityBlocks,List.flatMap_append,StrongConnector.blockRefs,StrongConnector.blockRefs]
    rfl
  · rw [List.flatMap_assoc]
    refine List.flatMap_congr fun k _ => ?_
    rw [StrongConnector.forceBlocks,List.flatMap_append,StrongConnector.blockRefs,StrongConnector.blockRefs]
    rfl

/- The lists are the documented ones only for connectors without position and quaternion whose
velocity references happen to be their force references. -/
theorem seedListsExact (K : Coupling) (E : Environment) (c : FMIClient) :
    ((c.getStrongSeedInputValueReferences = c.documentedSeedInput ∧
        c.getStrongSeedOutputValueReferences = c.documentedSeedOutput) ↔
      (∀ k ∈ c.strongConnectors, k.hasPosition = false ∧ k.hasQuaternion = false) ∧
      c.strongConnectors.flatMap StrongConnector.velocityBlocks =
        c.strongConnectors.flatMap StrongConnector.forceBlocks) ∧
    ∀ m₀ m : Master, Master.Configured m₀ → Run K E m₀ m → m.state = .gettingFutureVelo → c ∈ m.slaves →
      ∀ r ∈ c.pending, (r = .getReal c.documentedSeedOutput ↔
        ∀ k ∈ c.strongConnectors, k.hasPosition = false ∧ k.hasQuaternion = false) := by
  constructor
  · have one : c.getStrongSeedInputValueReferences = c.getStrongSeedOutputValueReferences := rfl
    obtain ⟨output,input⟩ := documentedBlocks c
    rw [one,and_comm,seedOutputExact c]
    refine and_congr_right fun rates => ?_
    rw [(seedOutputExact c).mpr rates,output,input]
    exact flatMapBlocks
  · intro m₀ m configured run phase mem r asked
    have lock := reachLockstep configured run
    have inside := lock.phases c mem
    have oldest : c.pending = [r] := by
      rcases FMIClient.noneOrOne (inPhasePending inside).1 with none | ⟨open_,one⟩
      · rw [none] at asked
        contradiction
      · rw [one] at asked ⊢
        rw [List.mem_singleton.mp asked]
    have reads : r = .getReal c.getStrongSeedOutputValueReferences := (inPhaseOldest inside oldest).2.2 (Or.inr phase)
    rw [← seedOutputExact c,reads,Request.getReal.injEq]

def Event.speculated : List Event :=
  Event.startup ++ Event.both (.initializeSlave .ok) ++ Event.both (.getFmuState 0 .ok) ++ Event.both (.doStep .ok)

theorem seedListsExactCoupled :
    let m := Master.coupled.after .perConstraint Event.speculated
    m.state = .gettingFutureVelo ∧ ∀ c ∈ m.slaves, ∀ r ∈ c.pending, (r = .getReal c.documentedSeedOutput ↔
      ∀ k ∈ c.strongConnectors, k.hasPosition = false ∧ k.hasQuaternion = false) := by
  intro m
  have run : Run .perConstraint .anything .coupled m := Master.afterRun _ (fun e _ => anythingAlways e) (by decide +kernel)
  have phase : m.state = .gettingFutureVelo := by decide +kernel
  exact ⟨phase,fun c => (seedListsExact .perConstraint .anything c).2 _ m Master.coupledConfigured run phase⟩

theorem seedListsWrong :
    (¬ ∀ c : FMIClient, c.getStrongSeedInputValueReferences = c.documentedSeedInput) ∧
    (¬ ∀ c : FMIClient, c.getStrongSeedOutputValueReferences = c.documentedSeedOutput) ∧
    ∃ m, Run .perConstraint .anything .coupled m ∧ m.state = .gettingFutureVelo ∧
      ∀ c ∈ m.slaves, c.pending ≠ [.getReal c.documentedSeedOutput] := by
  refine ⟨fun all => ?_,fun all => ?_,?_⟩
  · have same := all {FMIClient.construct 1 with strongConnectors := [Master.lockable 1]}
    exact absurd same (by decide)
  · have same := all {FMIClient.construct 1 with strongConnectors := [Master.lockable 1]}
    exact absurd same (by decide)
  · exact ⟨_,Master.afterRun Event.speculated (fun e _ => anythingAlways e) (by decide +kernel),by decide +kernel,
      by decide +kernel⟩

end FmiTcpMaster
