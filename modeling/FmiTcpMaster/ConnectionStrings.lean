import FmiTcpMaster.CommandLine

/-! The connection strings on the command line of the master: the order in which main() takes the
four integers of an entry, and the strings that it ought to turn down. -/
namespace FmiTcpMaster.MasterMain
open Connections (Conn Spells Creates)

theorem chosen {A B : Type} {P : A → B → Prop} {as : List A} (each : ∀ a ∈ as, ∃ b, P a b) :
    ∃ bs, List.Forall₂ P as bs := by
  induction as with
  | nil => exact ⟨[],.nil⟩
  | cons a as ih =>
    obtain ⟨b,here⟩ := each a List.mem_cons_self
    obtain ⟨bs,there⟩ := ih fun x mem => each x (List.mem_cons_of_mem _ mem)
    exact ⟨b :: bs,.cons here there⟩

theorem bothAt {A B : Type} {P Q : A → B → Prop} {as : List A} {bs : List B} (left : List.Forall₂ P as bs)
    (right : List.Forall₂ Q as bs) {a : A} (mem : a ∈ as) : ∃ b, P a b ∧ Q a b := by
  induction left with
  | nil => contradiction
  | @cons x b xs bs first _ ih =>
    obtain ⟨second,rest⟩ := List.forall₂_cons.mp right
    rcases List.mem_cons.mp mem with rfl | later
    · exact ⟨b,first,second⟩
    · exact ih rest later

theorem mainAt {K : Machine} {words : List Word} {connss : List (List Conn)} (valid : ∀ w ∈ words, w.Valid K)
    (weak : List.Forall₂ Spells (weakStrings words) connss)
    (strong : ∀ arg ∈ strongStrings words, ∃ conns, Spells arg conns) :
    ∃ m : Master, m.addresses.length = slaveCount words ∧ m.weakConnections = [] ∧
      main K (commandLine words) = Connections.create m.addresses (.ofQuads (connss.flatten.map (Conn.quad K.result))) m := by
  obtain ⟨s,read,sound,gathers⟩ := wordsGather valid startSound weak strong
  refine ⟨s.master,?_,gathers.weakConnections,?_⟩
  · rw [sound.slaves,gathers.slaves]
    exact Nat.zero_add _
  · rw [main,commandLineWords valid,read,sound.slaves]
    have columns := gathers.weak [] rfl
    rw [List.nil_append] at columns
    rw [← columns]
    rfl

structure Documented (m : Master) (c : Conn) (w : WeakConnection) : Prop where
  slaveA : m.addresses[Text.value c.fmuFrom]? = some w.slaveA
  slaveB : m.addresses[Text.value c.fmuTo]? = some w.slaveB
  valueRefA : w.valueRefA = Text.value c.vrFrom
  valueRefB : w.valueRefB = Text.value c.vrTo

structure Positive (slaves : Nat) (c : Conn) : Prop where
  numerals : ∀ x ∈ c.items, Text.Numeral x ∧ (Text.value x : Int) ≤ intMax
  fmuFrom : Text.value c.fmuFrom < slaves
  fmuTo : Text.value c.fmuTo < slaves

theorem quadPositive {result : Int} {slaves : Nat} {c : Conn} (positive : Positive slaves c) :
    c.quad result = ⟨Text.value c.fmuFrom,Text.value c.vrFrom,Text.value c.fmuTo,Text.value c.vrTo⟩ := by
  have read : ∀ x ∈ c.items, stringToInt result x = Text.value x :=
    fun x mem => stringToIntNumeral result (positive.numerals x mem).1 (positive.numerals x mem).2
  simp only [Conn.quad,read _ (List.mem_cons_self : c.fmuFrom ∈ c.items),read c.vrFrom (by simp [Conn.items]),
    read c.fmuTo (by simp [Conn.items]),read c.vrTo (by simp [Conn.items])]

theorem positiveSpells {slaves : Nat} {conns : List Conn} (positive : ∀ c ∈ conns, Positive slaves c) :
    Spells (Conn.string conns) conns :=
  ⟨rfl,fun c mem x item => Text.numeralInteger ((positive c mem).numerals x item).1⟩

theorem documentedEach {K : Machine} {m : Master} {c : Conn} (positive : Positive m.addresses.length c)
    (same : Text.value c.vrFrom = Text.value c.fmuTo) :
    ∃ w, Creates m.addresses (c.quad K.result) w ∧ Documented m c w := by
  obtain ⟨a,atA⟩ := Connections.elementInside (Int.natCast_nonneg _) (Int.ofNat_lt.mpr positive.fmuFrom)
  obtain ⟨b,atB⟩ := Connections.elementInside (Int.natCast_nonneg _) (Int.ofNat_lt.mpr positive.fmuTo)
  refine ⟨⟨a,b,Text.value c.fmuTo,Text.value c.vrTo⟩,?_,?_⟩
  · rw [quadPositive positive]
    exact ⟨atA,same ▸ atB,rfl,rfl⟩
  · exact ⟨(Connections.elementExact.mp atA).2,(Connections.elementExact.mp atB).2,by rw [same],rfl⟩

theorem helpExact (K : Machine) {words : List Word} {conns : List Conn} (valid : ∀ w ∈ words, w.Valid K)
    (given : weakStrings words = [Conn.string conns]) (strong : ∀ arg ∈ strongStrings words, ∃ conns, Spells arg conns)
    (positive : ∀ c ∈ conns, Positive (slaveCount words) c) :
    (∃ m, main K (commandLine words) = .ok m ∧ List.Forall₂ (Documented m) conns m.weakConnections) ↔
      ∀ c ∈ conns, Text.value c.vrFrom = Text.value c.fmuTo := by
  have weak : List.Forall₂ Spells (weakStrings words) [conns] := given ▸ .cons (positiveSpells positive) .nil
  obtain ⟨m₀,count,none,made⟩ := mainAt valid weak strong
  rw [List.flatten_singleton] at made
  rw [made]
  constructor
  · rintro ⟨m,ok,documented⟩ c mem
    obtain ⟨ws,created,rfl⟩ := Connections.createSource ok
    rw [none,List.nil_append] at documented
    rw [List.forall₂_map_left_iff] at created
    obtain ⟨w,creates,wanted⟩ := bothAt created documented mem
    have taken := creates.valueRefA
    rw [quadPositive (positive c mem)] at taken
    exact Int.ofNat_inj.mp (wanted.valueRefA.symm.trans taken)
  · intro same
    have each : ∀ c ∈ conns, ∃ w, Creates m₀.addresses (c.quad K.result) w ∧ Documented m₀ c w :=
      fun c mem => documentedEach (count.symm ▸ positive c mem) (same c mem)
    obtain ⟨ws,both⟩ := chosen each
    have created : List.Forall₂ (Creates m₀.addresses) (conns.map (Conn.quad K.result)) ws :=
      List.forall₂_map_left_iff.mpr (both.imp fun _ _ h => h.1)
    refine ⟨_,Connections.createFromSource created m₀,?_⟩
    show List.Forall₂ _ conns (m₀.weakConnections ++ ws)
    rw [none,List.nil_append]
    exact both.imp fun c w h => ⟨h.2.slaveA,h.2.slaveB,h.2.valueRefA,h.2.valueRefB⟩

structure InRange (result : Int) (slaves : Nat) (c : Conn) : Prop where
  slaveA : 0 ≤ (c.quad result).slaveA ∧ (c.quad result).slaveA < slaves
  slaveB : 0 ≤ (c.quad result).slaveB ∧ (c.quad result).slaveB < slaves

structure WellFormed (K : Machine) (words : List Word) : Prop where
  weak : ∀ arg ∈ weakStrings words, ∃ conns, Spells arg conns ∧ ∀ c ∈ conns, InRange K.result (slaveCount words) c
  strong : ∀ arg ∈ strongStrings words, ∃ conns, Spells arg conns

structure Guards (K : Machine) (words : List Word) : Prop where
  inside : main K (commandLine words) ≠ .error .outOfRange
  rejects : (∃ help, main K (commandLine words) = .error (.failure help)) ∨ WellFormed K words

theorem wellFormedRuns {K : Machine} {words : List Word} (valid : ∀ w ∈ words, w.Valid K) (formed : WellFormed K words) :
    ∃ m, main K (commandLine words) = .ok m := by
  obtain ⟨connss,both⟩ := chosen formed.weak
  obtain ⟨m,count,_,made⟩ := mainAt valid (both.imp fun _ _ h => h.1) formed.strong
  have ranges : ∀ c ∈ connss.flatten, InRange K.result (slaveCount words) c := by
    intro c mem
    obtain ⟨conns,inside,entry⟩ := List.mem_flatten.mp mem
    have backwards := both.imp fun _ _ h => h.2
    obtain ⟨_,every,_⟩ := bothAt backwards.flip backwards.flip inside
    exact every c entry
  have each : ∀ q ∈ connss.flatten.map (Conn.quad K.result), ∃ w, Creates m.addresses q w := by
    intro q mem
    obtain ⟨c,inside,rfl⟩ := List.mem_map.mp mem
    have range := ranges c inside
    rw [← count] at range
    obtain ⟨a,atA⟩ := Connections.elementInside range.slaveA.1 range.slaveA.2
    obtain ⟨b,atB⟩ := Connections.elementInside range.slaveB.1 range.slaveB.2
    exact ⟨⟨a,b,_,_⟩,⟨atA,atB,rfl,rfl⟩⟩
  obtain ⟨ws,created⟩ := chosen each
  exact ⟨_,made.trans (Connections.createFromSource created m)⟩

/- main() turns nothing down, so it reads past no vector and starts with well-formed strings only
exactly if that is what it is given. -/
theorem guardsExact (K : Machine) {words : List Word} (valid : ∀ w ∈ words, w.Valid K) :
    Guards K words ↔ WellFormed K words := by
  constructor
  · intro guards
    rcases guards.rejects with ⟨help,failed⟩ | formed
    · have stopped := mainFails valid failed
      contradiction
    · exact formed
  · intro formed
    obtain ⟨m,ok⟩ := wellFormedRuns valid formed
    exact ⟨by simp [ok],.inr formed⟩

def plain : Machine where
  atof _ := 1
  allocate m := m.addresses.max?.getD 0+1
  fresh _ mem := Nat.not_succ_le_self _ (List.le_max?_getD_of_mem mem)
  undefined := 0
  result := 0

def pairWith (conns : List Conn) : List Word :=
  [.weakConnections (Conn.string conns),.url "tcp://localhost:3000",.url "tcp://localhost:3001"]

theorem pairValid (conns : List Conn) : ∀ w ∈ pairWith conns, w.Valid plain := by
  intro w mem
  simp only [pairWith,List.mem_cons,List.not_mem_nil,or_false] at mem
  rcases mem with rfl | rfl | rfl
  · trivial
  · exact ⟨_,_,ParsedUrl.parseNames rfl rfl⟩
  · exact ⟨_,_,ParsedUrl.parseNames rfl rfl⟩

def entry (fmuFrom vrFrom fmuTo vrTo : String) : Conn := ⟨fmuFrom.toList,vrFrom.toList,fmuTo.toList,vrTo.toList⟩

theorem helpExactPair :
    (∃ m, main plain (commandLine (pairWith [entry "0" "1" "1" "2"])) = .ok m ∧
        List.Forall₂ (Documented m) [entry "0" "1" "1" "2"] m.weakConnections) ↔
      ∀ c ∈ [entry "0" "1" "1" "2"], Text.value c.vrFrom = Text.value c.fmuTo :=
  helpExact plain (pairValid _) rfl (fun _ mem => absurd mem List.not_mem_nil) (by
    intro c mem
    cases List.mem_singleton.mp mem
    exact ⟨by decide,by decide,by decide⟩)

/- The help's own example: 0,0,1,0 connects the slave 0 to itself. -/
theorem helpWrong :
    let conns := [entry "0" "0" "1" "0",entry "0" "1" "1" "1"]
    Conn.string conns = "0,0,1,0:0,1,1,1" ∧
      ¬ ∃ m, main plain (commandLine (pairWith conns)) = .ok m ∧ List.Forall₂ (Documented m) conns m.weakConnections := by
  refine ⟨by decide,?_⟩
  rintro ⟨m,ok,documented⟩
  have made : (main plain (commandLine (pairWith [entry "0" "0" "1" "0",entry "0" "1" "1" "1"]))).map
      (fun m => m.weakConnections) = .ok [⟨1,1,1,0⟩,⟨1,2,1,1⟩] := by decide
  rw [ok] at made
  have after : m.weakConnections = [⟨1,1,1,0⟩,⟨1,2,1,1⟩] := Except.ok.inj made
  rw [after] at documented
  have first := (List.forall₂_cons.mp documented).1.valueRefA
  exact absurd first (by decide)

theorem guardsExactPair : Guards plain (pairWith [entry "0" "5" "1" "2"]) ↔ WellFormed plain (pairWith [entry "0" "5" "1" "2"]) :=
  guardsExact plain (pairValid _)

theorem guardsWrong :
    ¬ Guards plain [.weakConnections "0",.url "tcp://localhost:3000"] ∧
      ¬ Guards plain [.weakConnections "0,5,0,0",.url "tcp://localhost:3000"] ∧
      ¬ Guards plain [.strongConnections "0,0,0,x",.url "tcp://localhost:3000"] := by
  refine ⟨fun guards => guards.inside (by decide),fun guards => guards.inside (by decide),fun guards => ?_⟩
  have runs : (main plain (commandLine [.strongConnections "0,0,0,x",.url "tcp://localhost:3000"])).isOk = true := by decide
  rcases guards.rejects with ⟨help,failed⟩ | formed
  · rw [failed] at runs
    contradiction
  · obtain ⟨conns,spells⟩ := formed.strong "0,0,0,x" List.mem_cons_self
    have entries := Connections.splitConns spells.integers
    rw [← spells.text] at entries
    cases conns with
    | nil => exact absurd entries (by decide)
    | cons c cs =>
      have only : split "0,0,0,x".toList ':' = ["0,0,0,x".toList] := by decide
      have text : "0,0,0,x".toList = c.text := (List.cons.inj (only.symm.trans entries)).1
      have integers := spells.integers c List.mem_cons_self
      have items := Connections.splitConn integers
      rw [← text] at items
      have last : "x".toList ∈ c.items := items ▸ by decide
      exact absurd (integers _ last) (by decide)

end FmiTcpMaster.MasterMain
