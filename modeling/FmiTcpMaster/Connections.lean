import FmiTcpMaster.ConnectSlave

/-! The connection options of the master: the quadruples in their strings, the vectors that
hold them, and the loop that creates the weak connections. -/
namespace FmiTcpMaster

structure Quad where
  slaveA : Int
  slaveB : Int
  connA : Int
  connB : Int
  deriving DecidableEq, Repr

structure Quad.Ints (q : Quad) : Prop where
  slaveA : intMin ≤ q.slaveA ∧ q.slaveA ≤ intMax
  slaveB : intMin ≤ q.slaveB ∧ q.slaveB ≤ intMax
  connA : intMin ≤ q.connA ∧ q.connA ≤ intMax
  connB : intMin ≤ q.connB ∧ q.connB ≤ intMax

structure Connections where
  slaveA : List Int
  slaveB : List Int
  connA : List Int
  connB : List Int
  deriving DecidableEq, Repr

namespace Connections

def push (c : Connections) (q : Quad) : Connections :=
  ⟨c.slaveA ++ [q.slaveA],c.slaveB ++ [q.slaveB],c.connA ++ [q.connA],c.connB ++ [q.connB]⟩

def readQuad (result : Int) (conn : List Char) : Except Ending Quad :=
  match split conn ',' with
  | q0 :: q1 :: q2 :: q3 :: _ =>
    .ok ⟨stringToInt result q0,stringToInt result q1,stringToInt result q2,stringToInt result q3⟩
  | _ => .error .outOfRange

def read (result : Int) (c : Connections) (nextArg : String) : Except Ending Connections :=
  (split nextArg.toList ':').foldlM (fun c conn => (readQuad result conn).map c.push) c

/- slaves[k], where a negative k becomes a huge size_t. -/
def element (slaves : List ClientPtr) (k : Int) : Except Ending ClientPtr :=
  match slaves[k.toNat]? with
  | some slave => if 0 ≤ k then .ok slave else .error .outOfRange
  | none => .error .outOfRange

def createWeakConnections (slaves : List ClientPtr) :
    List Int → List Int → List Int → List Int → Master → Except Ending Master
  | [],_,_,_,m => .ok m
  | a :: as,b :: bs,vrA :: vrAs,vrB :: vrBs,m => do
    let slaveA ← element slaves a
    let slaveB ← element slaves b
    createWeakConnections slaves as bs vrAs vrBs (m.createWeakConnection slaveA slaveB vrA vrB)
  | _,_,_,_,_ => .error .outOfRange

def create (slaves : List ClientPtr) (c : Connections) (m : Master) : Except Ending Master :=
  createWeakConnections slaves c.slaveA c.slaveB c.connA c.connB m

def ofQuads (qs : List Quad) : Connections :=
  ⟨qs.map Quad.slaveA,qs.map Quad.slaveB,qs.map Quad.connA,qs.map Quad.connB⟩

theorem pushOfQuads (qs : List Quad) (q : Quad) : (ofQuads qs).push q = ofQuads (qs ++ [q]) := by
  simp [ofQuads,push]

theorem readFails {result : Int} {c : Connections} {nextArg : String} {e : Ending}
    (failed : read result c nextArg = .error e) : e = .outOfRange := by
  refine Text.foldFails (P := (· = .outOfRange)) (fun c conn _ e failed => ?_) failed
  unfold readQuad at failed
  split at failed
  · contradiction
  · exact (Except.error.inj failed).symm

theorem readTogether {result : Int} {c c' : Connections} {nextArg : String} (together : ∃ qs, c = ofQuads qs)
    (ok : read result c nextArg = .ok c') : ∃ qs, c' = ofQuads qs := by
  refine Text.foldHolds (I := fun c => ∃ qs, c = ofQuads qs) (fun c conn c' before done => ?_) together ok
  obtain ⟨qs,rfl⟩ := before
  cases entry : readQuad result conn with
  | error e => simp [entry,Except.map] at done
  | ok q =>
    rw [entry] at done
    cases Except.ok.inj done
    exact ⟨qs ++ [q],pushOfQuads qs q⟩

theorem elementExact {slaves : List ClientPtr} {k : Int} {p : ClientPtr} :
    element slaves k = .ok p ↔ 0 ≤ k ∧ slaves[k.toNat]? = some p := by
  unfold element
  split
  · rename_i slave found
    by_cases least : 0 ≤ k <;> simp [least,found]
  · rename_i missing
    simp [missing]

theorem elementInside {slaves : List ClientPtr} {k : Int} (least : 0 ≤ k) (less : k < slaves.length) :
    ∃ p, element slaves k = .ok p := by
  have inside : k.toNat < slaves.length := by omega
  exact ⟨slaves[k.toNat],elementExact.mpr ⟨least,List.getElem?_eq_getElem inside⟩⟩

theorem elementFails {slaves : List ClientPtr} {k : Int} {e : Ending} (failed : element slaves k = .error e) :
    e = .outOfRange := by
  unfold element at failed
  split at failed
  · split at failed
    · contradiction
    · exact (Except.error.inj failed).symm
  · exact (Except.error.inj failed).symm

structure Creates (slaves : List ClientPtr) (q : Quad) (w : WeakConnection) : Prop where
  slaveA : element slaves q.slaveA = .ok w.slaveA
  slaveB : element slaves q.slaveB = .ok w.slaveB
  valueRefA : w.valueRefA = q.connA
  valueRefB : w.valueRefB = q.connB

theorem createSource {slaves : List ClientPtr} {qs : List Quad} {m m' : Master}
    (ok : create slaves (ofQuads qs) m = .ok m') :
    ∃ ws, List.Forall₂ (Creates slaves) qs ws ∧ m' = {m with weakConnections := m.weakConnections ++ ws} := by
  induction qs generalizing m with
  | nil =>
    cases Except.ok.inj ok
    exact ⟨[],.nil,by simp⟩
  | cons q qs ih =>
    simp only [create,ofQuads,List.map_cons,createWeakConnections] at ok
    cases first : element slaves q.slaveA with
    | error e => simp [first,bind,Except.bind] at ok
    | ok a =>
      cases second : element slaves q.slaveB with
      | error e => simp [first,second,bind,Except.bind] at ok
      | ok b =>
        simp only [first,second,bind,Except.bind] at ok
        obtain ⟨ws,created,after⟩ := ih ok
        refine ⟨⟨a,b,q.connA,q.connB⟩ :: ws,.cons ⟨first,second,rfl,rfl⟩ created,?_⟩
        rw [after]
        simp [Master.createWeakConnection]

theorem createFromSource {slaves : List ClientPtr} {qs : List Quad} {ws : List WeakConnection}
    (created : List.Forall₂ (Creates slaves) qs ws) (m : Master) :
    create slaves (ofQuads qs) m = .ok {m with weakConnections := m.weakConnections ++ ws} := by
  induction created generalizing m with
  | nil => simp [create,ofQuads,createWeakConnections]
  | @cons q w qs ws first created ih =>
    obtain ⟨a,b,vrA,vrB⟩ := w
    cases first.valueRefA
    cases first.valueRefB
    have rest := ih (m.createWeakConnection a b q.connA q.connB)
    simp only [create,ofQuads] at rest
    simp only [create,ofQuads,List.map_cons,createWeakConnections,first.slaveA,first.slaveB,bind,Except.bind,rest]
    simp [Master.createWeakConnection]

theorem createdConfigured {m : Master} {slaves : List ClientPtr} {qs : List Quad} {ws : List WeakConnection}
    (before : Master.Configured m) (same : m.addresses = slaves) (created : List.Forall₂ (Creates slaves) qs ws) :
    Master.Configured {m with weakConnections := m.weakConnections ++ ws} := by
  induction created generalizing m with
  | nil => simpa using before
  | @cons q w qs ws first _ ih =>
    have own : w.slaveA ∈ m.addresses ∧ w.slaveB ∈ m.addresses :=
      same ▸ ⟨List.mem_of_getElem? (elementExact.mp first.slaveA).2,List.mem_of_getElem? (elementExact.mp first.slaveB).2⟩
    have rest := ih (.createWeakConnection before own w.valueRefA w.valueRefB) same
    simpa [Master.createWeakConnection] using rest

theorem createFails {slaves : List ClientPtr} {as bs vrAs vrBs : List Int} {m : Master} {e : Ending}
    (failed : createWeakConnections slaves as bs vrAs vrBs m = .error e) : e = .outOfRange := by
  fun_induction createWeakConnections with
  | case1 => contradiction
  | case2 a as b bs vrA vrAs vrB vrBs m ih =>
    cases first : element slaves a with
    | error e' =>
      rw [first] at failed
      cases Except.error.inj failed
      exact elementFails first
    | ok slaveA =>
      cases second : element slaves b with
      | error e' =>
        rw [first,second] at failed
        cases Except.error.inj failed
        exact elementFails second
      | ok slaveB =>
        rw [first,second] at failed
        exact ih slaveA slaveB failed
  | case3 => exact (Except.error.inj failed).symm

structure Conn where
  fmuFrom : List Char
  vrFrom : List Char
  fmuTo : List Char
  vrTo : List Char
  deriving DecidableEq, Repr

namespace Conn

def items (c : Conn) : List (List Char) := [c.fmuFrom,c.vrFrom,c.fmuTo,c.vrTo]
def text (c : Conn) : List Char := List.intercalate [','] c.items

def string (conns : List Conn) : String := String.ofList (List.intercalate [':'] (conns.map text))

def quad (result : Int) (c : Conn) : Quad :=
  ⟨stringToInt result c.fmuFrom,stringToInt result c.vrFrom,stringToInt result c.fmuTo,stringToInt result c.vrTo⟩

end Conn

structure Spells (arg : String) (conns : List Conn) : Prop where
  text : arg = Conn.string conns
  integers : ∀ c ∈ conns, ∀ x ∈ c.items, Text.Integer x

theorem splitConn {c : Conn} (integers : ∀ x ∈ c.items, Text.Integer x) : split c.text ',' = c.items := by
  refine Text.itemsJoined (fun x mem => ?_) (fun x mem => (Text.integerChars (integers x mem)).1)
  exact Text.integerClean (integers x mem) (by decide) (by decide) (by decide)

theorem splitConns {conns : List Conn} (integers : ∀ c ∈ conns, ∀ x ∈ c.items, Text.Integer x) :
    split (Conn.string conns).toList ':' = conns.map Conn.text := by
  rw [Conn.string,String.toList_ofList]
  refine Text.itemsJoined (fun x mem => ?_) (fun x mem => ?_)
  · obtain ⟨c,inside,rfl⟩ := List.mem_map.mp mem
    refine Text.memJoined (by decide) fun y item => ?_
    exact Text.integerClean (integers c inside y item) (by decide) (by decide) (by decide)
  · obtain ⟨c,inside,rfl⟩ := List.mem_map.mp mem
    exact Text.joinedSome (Text.integerChars (integers c inside _ List.mem_cons_self)).1

theorem readSpelled (result : Int) {arg : String} {conns : List Conn} (spells : Spells arg conns) (qs : List Quad) :
    read result (ofQuads qs) arg = .ok (ofQuads (qs ++ conns.map (Conn.quad result))) := by
  have entry : ∀ c ∈ conns, readQuad result c.text = .ok (c.quad result) := by
    intro c mem
    rw [readQuad,splitConn (spells.integers c mem)]
    rfl
  rw [read,spells.text,splitConns spells.integers]
  clear spells
  induction conns generalizing qs with
  | nil => simp [pure,Except.pure]
  | cons c cs ih =>
    rw [List.map_cons,List.foldlM_cons,entry c List.mem_cons_self]
    have rest := ih (qs ++ [c.quad result]) fun d mem => entry d (List.mem_cons_of_mem _ mem)
    rw [← pushOfQuads,List.append_assoc] at rest
    exact rest

def ofQuad (q : Quad) : Conn :=
  ⟨intToString q.slaveA,intToString q.slaveB,intToString q.connA,intToString q.connB⟩

theorem quadWritten (result : Int) {q : Quad} (ints : q.Ints) : (ofQuad q).quad result = q := by
  simp only [Conn.quad,ofQuad,stringToIntWritten result ints.slaveA.1 ints.slaveA.2,
    stringToIntWritten result ints.slaveB.1 ints.slaveB.2,stringToIntWritten result ints.connA.1 ints.connA.2,
    stringToIntWritten result ints.connB.1 ints.connB.2]

theorem writtenSpells (qs : List Quad) : Spells (Conn.string (qs.map ofQuad)) (qs.map ofQuad) := by
  refine ⟨rfl,fun c mem x item => ?_⟩
  obtain ⟨q,_,rfl⟩ := List.mem_map.mp mem
  simp only [Conn.items,ofQuad,List.mem_cons,List.not_mem_nil,or_false] at item
  rcases item with rfl | rfl | rfl | rfl <;> exact integerWritten _

inductive Reads (result : Int) (conn : List Char) : Quad → Prop where
  | quad {q0 q1 q2 q3 more} (items : Text.Lines ',' conn (q0 :: q1 :: q2 :: q3 :: more)) :
      Reads result conn ⟨stringToInt result q0,stringToInt result q1,stringToInt result q2,stringToInt result q3⟩

theorem readQuadExact {result : Int} {conn : List Char} {q : Quad} : readQuad result conn = .ok q ↔ Reads result conn q := by
  constructor
  · intro ok
    unfold readQuad at ok
    split at ok <;> try contradiction
    rename_i items
    cases Except.ok.inj ok
    exact .quad (Text.itemsExact.mp items)
  · rintro ⟨items⟩
    rw [readQuad,show split conn ',' = _ from Text.itemsExact.mpr items]

theorem readEntries {result : Int} {conns : List (List Char)} {qs : List Quad} {c : Connections} :
    conns.foldlM (fun c conn => (readQuad result conn).map c.push) (ofQuads qs) = .ok c ↔
      ∃ quads, List.Forall₂ (Reads result) conns quads ∧ c = ofQuads (qs ++ quads) := by
  induction conns generalizing qs with
  | nil =>
    constructor
    · intro ok
      cases Except.ok.inj ok
      exact ⟨[],.nil,by rw [List.append_nil]⟩
    · rintro ⟨_,⟨⟩,rfl⟩
      rw [List.append_nil]
      rfl
  | cons conn conns ih =>
    rw [List.foldlM_cons]
    cases entry : readQuad result conn with
    | error e =>
      constructor
      · intro ok
        contradiction
      · rintro ⟨_,_ | ⟨first,_⟩,_⟩
        rw [readQuadExact.mpr first] at entry
        contradiction
    | ok q =>
      have here := readQuadExact.mp entry
      rw [Except.map,pushOfQuads]
      refine ih.trans ⟨?_,?_⟩
      · rintro ⟨quads,rest,rfl⟩
        exact ⟨q :: quads,.cons here rest,by rw [List.append_assoc]; rfl⟩
      · rintro ⟨_,_ | ⟨first,rest⟩,rfl⟩
        rename_i q' quads
        cases (readQuadExact.mpr first).symm.trans entry
        exact ⟨quads,rest,by rw [List.append_assoc]; rfl⟩

/- A connection argument is read if and only if each of its ':'-separated entries has four items or
more, and what was read before is kept; what int_to_string() writes is read back. -/
theorem readExact (result : Int) (qs : List Quad) :
    (∀ nextArg c, read result (ofQuads qs) nextArg = .ok c ↔ ∃ conns quads, Text.Lines ':' nextArg.toList conns ∧
      List.Forall₂ (Reads result) conns quads ∧ c = ofQuads (qs ++ quads)) ∧
    ∀ quads : List Quad, (∀ q ∈ quads, q.Ints) →
      read result (ofQuads qs) (Conn.string (quads.map ofQuad)) = .ok (ofQuads (qs ++ quads)) := by
  refine ⟨fun nextArg c => ?_,fun quads ints => ?_⟩
  · rw [read,readEntries]
    constructor
    · rintro ⟨quads,each,rfl⟩
      exact ⟨_,quads,Text.itemsExact.mp rfl,each,rfl⟩
    · rintro ⟨conns,quads,lines,each,rfl⟩
      rw [show split nextArg.toList ':' = conns from Text.itemsExact.mpr lines]
      exact ⟨quads,each,rfl⟩
  · rw [readSpelled result (writtenSpells quads) qs,List.map_map]
    have same : quads.map (Conn.quad result ∘ ofQuad) = quads :=
      (List.map_congr_left fun q mem => quadWritten result (ints q mem)).trans (List.map_id _)
    rw [same]

theorem readExactPair :
    let quads : List Quad := [⟨0,1,7,-8⟩,⟨-2147483648,1,0,2147483647⟩]
    read 0 (ofQuads []) (Conn.string (quads.map ofQuad)) = .ok (ofQuads quads) := by
  intro quads
  have ints : ∀ q ∈ quads, q.Ints :=
    List.forall_mem_cons.mpr ⟨⟨by decide,by decide,by decide,by decide⟩,
      List.forall_mem_singleton.mpr ⟨by decide,by decide,by decide,by decide⟩⟩
  exact (readExact 0 []).2 quads ints

end Connections
end FmiTcpMaster
