import FmiTcpMaster.Keyed
import Mathlib.Data.List.Perm.Basic
import Mathlib.Data.List.Nodup
import Mathlib.Data.List.TakeDrop

/-! A heap of blocks, as malloc() and free() see it. malloc() may return NULL whenever it likes; an
access through NULL, to a block that is not live, past its end, before it was written or as something
that it does not hold has no next heap. A program is judged from the blocks that it owns, whatever
else is live. -/
namespace Malloc
variable {P V A B C : Type}

inductive Fault where
  | null | dead | outside | unset | mistyped
  deriving DecidableEq, Repr

abbrev Block (P V : Type) := P × List (Option V)

/- `failures` counts the calls of malloc() that returned NULL. -/
structure Heap (P V : Type) where
  calls : Nat
  failures : Nat
  blocks : List (Block P V)

structure Allocator (P : Type) where
  malloc : Nat → List P → Nat → Option P
  fresh : ∀ {calls live size p}, malloc calls live size = some p → p ∉ live

abbrev Prog (P V A : Type) := StateT (Heap P V) (Except Fault) A

def malloc (M : Allocator P) (size : Nat) : Prog P V (Option P) := fun h =>
  match M.malloc h.calls (h.blocks.map Prod.fst) size with
  | none => .ok (none,{h with calls := h.calls+1, failures := h.failures+1})
  | some p => .ok (some p,{h with calls := h.calls+1, blocks := (p,List.replicate size none) :: h.blocks})

section Access
variable [DecidableEq P]

def free (p : P) : Prog P V Unit := fun h =>
  if p ∈ h.blocks.map Prod.fst then .ok ((),{h with blocks := h.blocks.eraseP fun b => b.1 = p}) else .error .dead

def update (p : P) (f : List (Option V) → Except Fault (List (Option V))) : Prog P V Unit := fun h =>
  (Keyed.update Prod.fst .dead p (fun b => (f b.2).map (b.1,·)) h.blocks).map fun blocks => ((),{h with blocks := blocks})

def write (p : P) (i : Nat) (v : V) : Prog P V Unit :=
  update p fun cells => if i < cells.length then .ok (cells.set i (some v)) else .error .outside

def cells (p : P) : Prog P V (List (Option V)) := fun h =>
  match h.blocks.find? fun b => b.1 = p with
  | none => .error .dead
  | some b => .ok (b.2,h)

def decode (view : V → Option C) : Option V → Except Fault C
  | none => .error .unset
  | some v =>
    match view v with
    | none => .error .mistyped
    | some c => .ok c

def read (view : V → Option C) (p : P) (i : Nat) : Prog P V C := do
  let content ← cells p
  fun h =>
    match content[i]? with
    | none => .error .outside
    | some cell => (decode view cell).map (·,h)

def textUntil [DecidableEq C] (view : V → Option C) (stop : C) : List (Option V) → Except Fault (List C)
  | [] => .error .outside
  | cell :: rest => do
    let c ← decode view cell
    if c = stop then .ok [] else (textUntil view stop rest).map (c :: ·)

def readUntil [DecidableEq C] (view : V → Option C) (stop : C) (p : P) : Prog P V (List C) := do
  let content ← cells p
  fun h => (textUntil view stop content).map (·,h)

end Access

def deref (p : Option A) : Prog P V A := fun h =>
  match p with
  | none => .error .null
  | some p => .ok (p,h)

def Runs (prog : Prog P V A) (h : Heap P V) (Q : A → Heap P V → Prop) : Prop := ∃ a h', prog h = .ok (a,h') ∧ Q a h'

theorem pureRuns {a : A} {h : Heap P V} {Q : A → Heap P V → Prop} (holds : Q a h) : Runs (pure a) h Q := ⟨a,h,rfl,holds⟩

theorem bindDone {prog : Prog P V A} {h h' : Heap P V} {a : A} (ok : prog h = .ok (a,h')) (f : A → Prog P V B) :
    (prog >>= f) h = f a h' := by
  show (prog h).bind (fun x => f x.1 x.2) = _
  rw [ok]
  rfl

theorem bindRuns {prog : Prog P V A} {f : A → Prog P V B} {h : Heap P V} {Q : A → Heap P V → Prop}
    {R : B → Heap P V → Prop} (first : Runs prog h Q) (rest : ∀ a h', Q a h' → Runs (f a) h' R) :
    Runs (prog >>= f) h R := by
  obtain ⟨a,h',ok,between⟩ := first
  obtain ⟨b,h'',ok',after⟩ := rest a h' between
  exact ⟨b,h'',(bindDone ok f).trans ok',after⟩

theorem weaken {prog : Prog P V A} {h : Heap P V} {Q R : A → Heap P V → Prop} (runs : Runs prog h Q)
    (imp : ∀ a h', Q a h' → R a h') : Runs prog h R := by
  obtain ⟨a,h',ok,after⟩ := runs
  exact ⟨a,h',ok,imp a h' after⟩

/- These blocks are live and no others, and malloc() has failed k times. -/
structure Holds (h : Heap P V) (k : Nat) (bs : List (Block P V)) : Prop where
  blocks : h.blocks.Perm bs
  distinct : (bs.map Prod.fst).Nodup
  failures : h.failures = k

section Rules
variable {h : Heap P V} {k : Nat} {bs cs : List (Block P V)} {p : P} {content : List (Option V)}

theorem holdsPerm (holds : Holds h k bs) (perm : bs.Perm cs) : Holds h k cs :=
  ⟨holds.blocks.trans perm,(perm.map Prod.fst).nodup_iff.mp holds.distinct,holds.failures⟩

theorem mallocRuns (M : Allocator P) (size : Nat) (holds : Holds h k bs) :
    Runs (malloc M size) h fun p h' => match p with
      | none => Holds h' (k+1) bs
      | some p => Holds h' k ((p,List.replicate size none) :: bs) := by
  unfold Runs malloc
  cases result : M.malloc h.calls (h.blocks.map Prod.fst) size with
  | none => exact ⟨none,_,rfl,holds.blocks,holds.distinct,congrArg (·+1) holds.failures⟩
  | some p =>
    refine ⟨some p,_,rfl,holds.blocks.cons _,?_,holds.failures⟩
    rw [List.map_cons,List.nodup_cons]
    exact ⟨fun mem => M.fresh result ((holds.blocks.map Prod.fst).mem_iff.mpr mem),holds.distinct⟩

theorem holdsAt (holds : Holds h k ((p,content) :: bs)) :
    ∃ l r, h.blocks = l ++ (p,content) :: r ∧ p ∉ l.map Prod.fst ∧ (l ++ r).Perm bs := by
  obtain ⟨l,r,split⟩ := List.append_of_mem (holds.blocks.mem_iff.mpr List.mem_cons_self)
  have rest : (l ++ r).Perm bs := by
    have whole := holds.blocks
    rw [split] at whole
    exact (List.perm_middle.symm.trans whole).cons_inv
  refine ⟨l,r,split,fun mem => ?_,rest⟩
  have absent := (List.nodup_cons.mp holds.distinct).1
  exact absent ((rest.map Prod.fst).mem_iff.mp (by rw [List.map_append]; exact List.mem_append_left _ mem))

section Access
variable [DecidableEq P]

theorem freeRuns (holds : Holds h k ((p,content) :: bs)) : Runs (free p) h fun _ h' => Holds h' k bs := by
  obtain ⟨l,r,split,before,rest⟩ := holdsAt holds
  have live : p ∈ h.blocks.map Prod.fst := by
    rw [split]
    simp
  refine ⟨(),_,if_pos live,?_,(List.nodup_cons.mp holds.distinct).2,holds.failures⟩
  show (h.blocks.eraseP fun b => b.1 = p).Perm bs
  have other : ∀ b ∈ l, ¬ decide (b.1 = p) = true := by
    intro b mem same
    exact before (List.mem_map.mpr ⟨b,mem,by simpa using same⟩)
  rw [split,List.eraseP_append_right _ other,List.eraseP_cons_of_pos (by simp)]
  exact rest

theorem updateRuns {f : List (Option V) → Except Fault (List (Option V))} {content' : List (Option V)}
    (ok : f content = .ok content') (holds : Holds h k ((p,content) :: bs)) :
    Runs (update p f) h fun _ h' => Holds h' k ((p,content') :: bs) := by
  obtain ⟨l,r,split,before,rest⟩ := holdsAt holds
  have updated : Keyed.update Prod.fst .dead p (fun b : Block P V => (f b.2).map (b.1,·)) h.blocks =
      .ok (l ++ (p,content') :: r) := by
    rw [split]
    refine (Keyed.updateAt (p := (p,content)) Prod.fst before).trans ?_
    simp only [ok]
    rfl
  refine ⟨(),{h with blocks := l ++ (p,content') :: r},?_,List.perm_middle.trans (rest.cons _),holds.distinct,holds.failures⟩
  rw [update,updated]
  rfl

theorem writeRuns {i : Nat} {v : V} (inside : i < content.length) (holds : Holds h k ((p,content) :: bs)) :
    Runs (write p i v) h fun _ h' => Holds h' k ((p,content.set i (some v)) :: bs) :=
  updateRuns (if_pos inside) holds

theorem cellsRuns (holds : Holds h k ((p,content) :: bs)) :
    Runs (cells p) h fun read h' => read = content ∧ Holds h' k ((p,content) :: bs) := by
  obtain ⟨l,r,split,before,_⟩ := holdsAt holds
  have found : (h.blocks.find? fun b => b.1 = p) = some (p,content) := by
    rw [split,List.find?_append,List.find?_eq_none.mpr fun b mem same => before (List.mem_map.mpr ⟨b,mem,by simpa using same⟩)]
    simp
  exact ⟨content,h,by simp only [cells,found],rfl,holds⟩

theorem readRuns {view : V → Option C} {i : Nat} {v : V} {c : C} (set : content[i]? = some (some v)) (sees : view v = some c)
    (holds : Holds h k ((p,content) :: bs)) :
    Runs (read view p i) h fun a h' => a = c ∧ Holds h' k ((p,content) :: bs) := by
  refine bindRuns (cellsRuns holds) fun read h' after => ?_
  obtain ⟨rfl,holds⟩ := after
  exact ⟨c,h',by simp only [set,decode,sees]; rfl,rfl,holds⟩

/- n cells from the i-th on, as strncpy() writes them: the source, padded where it ends. -/
def copyPadded (p : P) (pad : V) : Nat → List V → Nat → Prog P V Unit
  | _, _, 0 => pure ()
  | i, vs, n+1 => do
    write p i (vs.headD pad)
    copyPadded p pad (i+1) vs.tail n

theorem copyPaddedRuns (pad : V) (done : List (Option V)) (vs : List V) {n : Nat} {rest : List (Option V)}
    (room : n ≤ rest.length) (holds : Holds h k ((p,done ++ rest) :: bs)) :
    Runs (copyPadded p pad done.length vs n) h fun _ h' =>
      Holds h' k ((p,done ++ (vs.takeD n pad).map some ++ rest.drop n) :: bs) := by
  induction n generalizing h done vs rest with
  | zero => exact pureRuns (by simpa using holds)
  | succ n ih =>
    cases rest with
    | nil => simp at room
    | cons c rest =>
      refine bindRuns (writeRuns (by simp) holds) fun _ h' written => ?_
      rw [List.set_append_right _ _ (Nat.le_refl _),Nat.sub_self,List.set_cons_zero,List.append_cons] at written
      have next := ih _ vs.tail (by simpa using room) written
      rw [List.length_append] at next
      simpa [List.takeD] using next

def modifyAll (view : V → Option C) (f : C → V) (p : P) : Nat → Nat → Prog P V Unit
  | _, 0 => pure ()
  | i, n+1 => do
    let c ← read view p i
    write p i (f c)
    modifyAll view f p (i+1) n

theorem modifyAllRuns {view : V → Option C} (inject : C → V) (sees : ∀ c, view (inject c) = some c) (f : C → V) (cs : List C)
    (done : List (Option V)) {rest : List (Option V)}
    (holds : Holds h k ((p,done ++ (cs.map (fun c => some (inject c)) ++ rest)) :: bs)) :
    Runs (modifyAll view f p done.length cs.length) h fun _ h' =>
      Holds h' k ((p,done ++ (cs.map (fun c => some (f c)) ++ rest)) :: bs) := by
  induction cs generalizing h done with
  | nil => exact pureRuns holds
  | cons c cs ih =>
    refine bindRuns (readRuns (v := inject c) (by simp) (sees c) holds) fun a h' after => ?_
    obtain ⟨rfl,holds⟩ := after
    refine bindRuns (writeRuns (by simp) holds) fun _ h'' written => ?_
    rw [List.set_append_right _ _ (Nat.le_refl _),Nat.sub_self,List.map_cons,List.cons_append,List.set_cons_zero,
      List.append_cons] at written
    have next := ih _ written
    rw [List.length_append] at next
    simpa using next

end Access
end Rules
end Malloc
