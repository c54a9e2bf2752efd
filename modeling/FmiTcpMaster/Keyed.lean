import Mathlib.Data.List.Nodup
import Mathlib.Algebra.BigOperators.Group.List.Basic
import Mathlib.Algebra.Order.Group.Nat
import Mathlib.Algebra.GroupWithZero.Nat

/-! A list of records that carry their own key, and the update of the record under one key.
An update under a key that no record carries is an error. -/
namespace Keyed

theorem mapMOk {α β ε : Type} {f : α → Except ε β} {h : α → β} {xs : List α} (each : ∀ x ∈ xs, f x = .ok (h x)) :
    xs.mapM f = .ok (xs.map h) := by
  induction xs with
  | nil => rfl
  | cons x xs ih =>
    rw [List.mapM_cons,each x List.mem_cons_self,ih fun y mem => each y (List.mem_cons_of_mem _ mem)]
    rfl

theorem mapMKeeps {α β ε : Type} {f : α → Except ε α} {xs ys : List α} (g : α → β)
    (same : ∀ x y, f x = .ok y → g y = g x) (ok : xs.mapM f = .ok ys) : ys.map g = xs.map g := by
  induction xs generalizing ys with
  | nil => cases ok; rfl
  | cons x xs ih =>
    rw [List.mapM_cons] at ok
    cases first : f x with
    | error e => simp [first,bind,Except.bind] at ok
    | ok y =>
      cases others : xs.mapM f with
      | error e => simp [first,others,bind,Except.bind] at ok
      | ok rest =>
        rw [first,others] at ok
        cases ok
        rw [List.map_cons,List.map_cons,same x y first,ih others]

variable {K P ε : Type} (key : P → K)

theorem splitAt {ps : List P} {p : P} (distinct : (ps.map key).Nodup) (mem : p ∈ ps) :
    ∃ l r, ps = l ++ p :: r ∧ key p ∉ l.map key ∧ key p ∉ r.map key := by
  obtain ⟨l,r,rfl⟩ := List.append_of_mem mem
  refine ⟨l,r,rfl,?_,?_⟩
  · intro inside
    rw [List.map_append,List.map_cons,List.nodup_append] at distinct
    exact distinct.2.2 _ inside _ List.mem_cons_self rfl
  · rw [List.map_append,List.map_cons,List.nodup_append] at distinct
    exact (List.nodup_cons.mp distinct.2.1).1

variable [DecidableEq K]

def update (missing : ε) (k : K) (f : P → Except ε P) : List P → Except ε (List P)
  | [] => .error missing
  | p :: ps =>
    if key p = k then (f p).map (· :: ps) else (update missing k f ps).map (p :: ·)

theorem updateAt {missing : ε} {f : P → Except ε P} {l r : List P} {p : P}
    (first : key p ∉ l.map key) :
    update key missing (key p) f (l ++ p :: r) = (f p).map (fun q => l ++ q :: r) := by
  induction l with
  | nil => simp [update]
  | cons x xs ih =>
    simp only [List.map_cons,List.mem_cons,not_or] at first
    have other : key x ≠ key p := fun same => first.1 same.symm
    rw [List.cons_append,update,if_neg other,ih first.2]
    cases f p <;> rfl

theorem updateMissing {missing : ε} {f : P → Except ε P} {k : K} {ps : List P} (absent : k ∉ ps.map key) :
    update key missing k f ps = .error missing := by
  induction ps with
  | nil => rfl
  | cons x xs ih =>
    simp only [List.map_cons,List.mem_cons,not_or] at absent
    rw [update,if_neg fun same => absent.1 same.symm,ih absent.2]
    rfl

theorem updateFails {missing e : ε} {f : P → P} {k : K} {ps : List P}
    (failed : update key missing k (fun p => .ok (f p)) ps = .error e) : e = missing := by
  induction ps with
  | nil => exact (Except.error.inj failed).symm
  | cons x xs ih =>
    rw [update] at failed
    split at failed
    · cases failed
    · cases rest : update key missing k (fun p => .ok (f p)) xs with
      | error e' =>
        rw [rest] at failed
        cases Except.error.inj failed
        exact ih rest
      | ok ys =>
        rw [rest] at failed
        cases failed

theorem updateMap {missing : ε} {f : P → P} {k : K} {ps : List P} (distinct : (ps.map key).Nodup)
    (present : k ∈ ps.map key) :
    update key missing k (fun p => .ok (f p)) ps = .ok (ps.map fun p => if key p = k then f p else p) := by
  obtain ⟨p,mem,rfl⟩ := List.mem_map.mp present
  obtain ⟨l,r,rfl,before,after⟩ := splitAt key distinct mem
  have keep : ∀ {xs : List P}, key p ∉ xs.map key →
      xs.map (fun x => if key x = key p then f x else x) = xs := by
    intro xs absent
    conv_rhs => rw [← List.map_id xs]
    refine List.map_congr_left fun x mem => if_neg fun same => absent ?_
    exact List.mem_map.mpr ⟨x,mem,same⟩
  rw [updateAt key before,List.map_append,List.map_cons,keep before,keep after,if_pos rfl]
  rfl

theorem updateKeeps {β : Type} {missing : ε} {f : P → Except ε P} {k : K} {ps qs : List P} (g : P → β)
    (same : ∀ p q, f p = .ok q → g q = g p) (ok : update key missing k f ps = .ok qs) : qs.map g = ps.map g := by
  induction ps generalizing qs with
  | nil => cases ok
  | cons x xs ih =>
    rw [update] at ok
    split at ok
    · cases first : f x with
      | error e => simp [first,Except.map] at ok
      | ok y =>
        rw [first] at ok
        cases ok
        rw [List.map_cons,List.map_cons,same x y first]
    · cases rest : update key missing k f xs with
      | error e => simp [rest,Except.map] at ok
      | ok ys =>
        rw [rest] at ok
        cases ok
        rw [List.map_cons,List.map_cons,ih rest]

theorem findExact {ps : List P} {k : K} {p : P} (distinct : (ps.map key).Nodup) :
    ps.find? (fun x => key x = k) = some p ↔ p ∈ ps ∧ key p = k := by
  constructor
  · exact fun found => ⟨List.mem_of_find?_eq_some found,by simpa using List.find?_some found⟩
  · rintro ⟨mem,rfl⟩
    obtain ⟨l,r,rfl,before,_⟩ := splitAt key distinct mem
    refine List.find?_eq_some_iff_append.mpr ⟨by simp,l,r,rfl,fun x inside => ?_⟩
    simpa using fun same => before (List.mem_map.mpr ⟨x,inside,same⟩)

theorem lengthByKey {ps : List P} {ks : List K} (distinct : ks.Nodup) (each : ∀ p ∈ ps, key p ∈ ks) :
    (ks.map fun k => (ps.filter (key · = k)).length).sum = ps.length := by
  induction ps with
  | nil => simp
  | cons p ps ih =>
    obtain ⟨own,others⟩ := List.forall_mem_cons.mp each
    have counts : ∀ k, ((p :: ps).filter (key · = k)).length = (ps.filter (key · = k)).length + if key p = k then 1 else 0 := by
      intro k
      by_cases same : key p = k <;> simp [same]
    have once : (ks.map fun k => if key p = k then 1 else 0).sum = 1 := by
      obtain ⟨l,r,rfl⟩ := List.append_of_mem own
      have apart := (List.nodup_cons.mp (List.nodup_middle.mp distinct)).1
      have other : ∀ k ∈ l ++ r, (if key p = k then 1 else 0) = 0 := fun k mem =>
        if_neg fun same : key p = k => apart (same ▸ mem)
      rw [List.map_append,List.map_cons,List.map_congr_left fun k mem => other k (List.mem_append_left _ mem),
        List.map_congr_left fun k mem => other k (List.mem_append_right _ mem)]
      simp
    rw [List.map_congr_left fun k _ => counts k,List.sum_map_add,ih others,once,List.length_cons]

end Keyed
