import FmiTcpMaster.Keyed

/-! Computations that may fail and a map that forgets part of every state. What commutes with the
map step by step commutes with it over a whole loop, and what is left after the map cannot depend
on what the map forgets. -/
namespace Erasure
variable {ε A B S T : Type}

theorem bindErased {x : Except ε A} {x' : Except ε B} {f : A → Except ε S} {f' : B → Except ε T} {h : A → B} {k : S → T}
    (first : x.map h = x') (rest : ∀ a, (f a).map k = f' (h a)) : (x.bind f).map k = x'.bind f' := by
  subst first
  cases x with
  | error e => rfl
  | ok a => exact rest a

theorem mapMErased {f : A → Except ε A} {f' : B → Except ε B} {h : A → B} (each : ∀ a, (f a).map h = f' (h a))
    (xs : List A) : (xs.mapM f).map (List.map h) = (xs.map h).mapM f' := by
  induction xs with
  | nil => rfl
  | cons x xs ih =>
    rw [List.map_cons,List.mapM_cons,List.mapM_cons]
    refine bindErased (each x) fun a => bindErased ih fun as => rfl

theorem foldlMErased {f : S → A → Except ε S} {f' : T → A → Except ε T} {h : S → T}
    (each : ∀ s a, (f s a).map h = f' (h s) a) (xs : List A) (s : S) : (xs.foldlM f s).map h = xs.foldlM f' (h s) := by
  induction xs generalizing s with
  | nil => rfl
  | cons x xs ih =>
    rw [List.foldlM_cons,List.foldlM_cons]
    exact bindErased (each s x) ih

theorem updateErased {K : Type} [DecidableEq K] (key : A → K) (key' : B → K) {h : A → B} {missing : ε} {k : K}
    {f : A → Except ε A} {f' : B → Except ε B} (same : ∀ a, key' (h a) = key a) (each : ∀ a, (f a).map h = f' (h a))
    (xs : List A) :
    (Keyed.update key missing k f xs).map (List.map h) = Keyed.update key' missing k f' (xs.map h) := by
  induction xs with
  | nil => rfl
  | cons x xs ih =>
    rw [List.map_cons,Keyed.update,Keyed.update,same,← each,← ih]
    split
    · cases f x <;> rfl
    · cases Keyed.update key missing k f xs <;> rfl

end Erasure
