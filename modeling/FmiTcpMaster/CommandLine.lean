import FmiTcpMaster.MasterMain

/-! The command lines of the master that the help describes, and what main() makes of the
connection strings in them. -/
namespace FmiTcpMaster.MasterMain

def Word.arguments : Word → List String
  | .timeStep nextArg => ["--timeStep",nextArg]
  | .stopAfter nextArg => ["--stopAfter",nextArg]
  | .weakMethod nextArg => ["--weakMethod",nextArg]
  | .weakConnections nextArg => ["--weakConnections",nextArg]
  | .strongConnections nextArg => ["--strongConnections",nextArg]
  | .debug => ["--debug"]
  | .url arg => [arg]

def commandLine (words : List Word) : List String := words.flatMap Word.arguments

def Word.Valid (K : Machine) : Word → Prop
  | .timeStep nextArg | .stopAfter nextArg => 0 < K.atof nextArg
  | .weakMethod nextArg => nextArg = "parallel" ∨ nextArg = "serial"
  | .weakConnections _ | .strongConnections _ | .debug => True
  | .url arg => ∃ host port, ParsedUrl.Names (cStr arg) host port

theorem namesColon {arg : String} {host port : List Char} (names : ParsedUrl.Names (cStr arg) host port) :
    ':' ∈ arg.toList := by
  have inside : ':' ∈ cStr arg := by
    generalize cStr arg = uri at names
    cases names
    simp
  exact List.takeWhile_subset _ inside

theorem urlArgument {K : Machine} {s : State} {arg : String} (colon : ':' ∈ arg.toList) (next : Option String) :
    argument K s arg next = (Word.read K s (.url arg)).map fun s => (s,false) := by
  unfold argument
  split <;> first | rfl | exact absurd colon (by decide)

theorem wordArguments {K : Machine} {word : Word} (valid : word.Valid K) (s : State) (rest : List String) :
    Text.walk (argument K) false s (word.arguments ++ rest) =
      (word.read K s).bind fun s => Text.walk (argument K) false s rest := by
  cases word with
  | debug => exact Text.walkWord rfl
  | url arg =>
    obtain ⟨host,port,names⟩ := valid
    exact Text.walkWord (urlArgument (namesColon names) _)
  | timeStep nextArg => exact Text.walkPair rfl
  | stopAfter nextArg => exact Text.walkPair rfl
  | weakMethod nextArg => exact Text.walkPair rfl
  | weakConnections nextArg => exact Text.walkPair rfl
  | strongConnections nextArg => exact Text.walkPair rfl

theorem commandLineWords {K : Machine} {words : List Word} (valid : ∀ w ∈ words, w.Valid K) (s : State) :
    Text.walk (argument K) false s (commandLine words) = words.foldlM (Word.read K) s := by
  induction words generalizing s with
  | nil => rfl
  | cons w ws ih =>
    rw [commandLine,List.flatMap_cons,wordArguments (valid w List.mem_cons_self),List.foldlM_cons]
    cases w.read K s with
    | error e => rfl
    | ok next => exact ih (fun v mem => valid v (List.mem_cons_of_mem _ mem)) next

def Word.weakString : Word → Option String
  | .weakConnections nextArg => some nextArg
  | _ => none

def Word.strongString : Word → Option String
  | .strongConnections nextArg => some nextArg
  | _ => none

def Word.isUrl : Word → Bool
  | .url _ => true
  | _ => false

def weakStrings (words : List Word) : List String := words.filterMap Word.weakString
def strongStrings (words : List Word) : List String := words.filterMap Word.strongString

def slaveCount (words : List Word) : Nat := words.countP Word.isUrl

theorem readFails {K : Machine} {s : State} {word : Word} {e : Ending} (valid : word.Valid K)
    (failed : word.read K s = .error e) : e = .outOfRange := by
  cases word with
  | timeStep nextArg =>
    have positive : 0 < K.atof nextArg := valid
    simp only [Word.read,if_neg (Rat.not_le.mpr positive)] at failed
    contradiction
  | stopAfter nextArg =>
    have positive : 0 < K.atof nextArg := valid
    simp only [Word.read,if_neg (Rat.not_le.mpr positive)] at failed
    contradiction
  | weakMethod nextArg =>
    rcases valid with rfl | rfl <;> contradiction
  | weakConnections nextArg => exact Connections.readFails (mapFails failed)
  | strongConnections nextArg => exact Connections.readFails (mapFails failed)
  | debug => contradiction
  | url arg =>
    obtain ⟨host,port,names⟩ := valid
    have failed := mapFails failed
    rw [Master.connectSlaveAt _ _ _ names] at failed
    contradiction

theorem mainFails {K : Machine} {words : List Word} {e : Ending} (valid : ∀ w ∈ words, w.Valid K)
    (failed : main K (commandLine words) = .error e) : e = .outOfRange := by
  rw [main,commandLineWords valid] at failed
  cases read : words.foldlM (Word.read K) start with
  | error e' =>
    rw [read] at failed
    cases Except.error.inj failed
    exact Text.foldFails (P := (· = .outOfRange)) (fun s w mem e stops => readFails (valid w mem) stops) read
  | ok s =>
    rw [read] at failed
    exact Connections.createFails failed

structure Gathers (words : List Word) (s s' : State) (qs : List Quad) : Prop where
  slaves : s'.slaves.length = s.slaves.length+slaveCount words
  weakConnections : s'.master.weakConnections = s.master.weakConnections
  weak : ∀ ps, s.weak = Connections.ofQuads ps → s'.weak = Connections.ofQuads (ps ++ qs)

theorem gathersNothing {word : Word} {s s' : State} (option : word.isUrl = false) (slaves : s'.slaves = s.slaves)
    (weakConnections : s'.master.weakConnections = s.master.weakConnections) (weak : s'.weak = s.weak) :
    Gathers [word] s s' [] := by
  refine ⟨?_,weakConnections,fun ps same => ?_⟩
  · simp [slaves,slaveCount,option]
  · rw [weak,same,List.append_nil]

def Word.SpellsWeak (word : Word) (conns : List Connections.Conn) : Prop :=
  match word.weakString with
  | some arg => Connections.Spells arg conns
  | none => conns = []

theorem readGathers {K : Machine} {s : State} {word : Word} {conns : List Connections.Conn} (valid : word.Valid K)
    (sound : s.Sound) (weak : word.SpellsWeak conns)
    (strong : ∀ arg, word.strongString = some arg → ∃ conns, Connections.Spells arg conns) :
    ∃ s', word.read K s = .ok s' ∧ Gathers [word] s s' (conns.map (Connections.Conn.quad K.result)) := by
  cases word with
  | timeStep nextArg =>
    cases weak
    have positive : 0 < K.atof nextArg := valid
    exact ⟨_,if_neg (Rat.not_le.mpr positive),gathersNothing rfl rfl rfl rfl⟩
  | stopAfter nextArg =>
    cases weak
    have positive : 0 < K.atof nextArg := valid
    exact ⟨_,if_neg (Rat.not_le.mpr positive),gathersNothing rfl rfl rfl rfl⟩
  | weakMethod nextArg =>
    cases weak
    rcases valid with rfl | rfl
    · exact ⟨_,rfl,gathersNothing rfl rfl rfl rfl⟩
    · exact ⟨_,rfl,gathersNothing rfl rfl rfl rfl⟩
  | weakConnections nextArg =>
    obtain ⟨ps,together⟩ := sound.weak
    have read := Connections.readSpelled K.result weak ps
    rw [← together] at read
    refine ⟨{s with weak := .ofQuads (ps ++ conns.map (Connections.Conn.quad K.result))},?_,rfl,rfl,fun ps' same => ?_⟩
    · rw [Word.read,read]
      rfl
    · have columns := Connections.readSpelled K.result weak ps'
      rw [← same,read] at columns
      exact Except.ok.inj columns
  | strongConnections nextArg =>
    cases weak
    obtain ⟨conns,spells⟩ := strong nextArg rfl
    obtain ⟨ps,together⟩ := sound.strong
    have read := Connections.readSpelled K.result spells ps
    rw [← together] at read
    refine ⟨{s with strong := .ofQuads (ps ++ conns.map (Connections.Conn.quad K.result))},?_,gathersNothing rfl rfl rfl rfl⟩
    rw [Word.read,read]
    rfl
  | debug =>
    cases weak
    exact ⟨s,rfl,gathersNothing rfl rfl rfl rfl⟩
  | url arg =>
    cases weak
    obtain ⟨host,port,names⟩ := valid
    have connected := Master.connectSlaveAt K.undefined s.master (K.allocate s.master) names
    refine ⟨_,congrArg (Except.map _) connected,?_,rfl,fun ps same => by simpa using same⟩
    simp [slaveCount,Word.isUrl]

theorem wordsGather {K : Machine} {s : State} {words : List Word} {connss : List (List Connections.Conn)}
    (valid : ∀ w ∈ words, w.Valid K) (sound : s.Sound) (weak : List.Forall₂ Connections.Spells (weakStrings words) connss)
    (strong : ∀ arg ∈ strongStrings words, ∃ conns, Connections.Spells arg conns) :
    ∃ s', words.foldlM (Word.read K) s = .ok s' ∧ s'.Sound ∧
      Gathers words s s' (connss.flatten.map (Connections.Conn.quad K.result)) := by
  induction words generalizing s connss with
  | nil =>
    cases weak
    exact ⟨s,rfl,sound,rfl,rfl,fun ps same => by simpa using same⟩
  | cons w ws ih =>
    obtain ⟨conns,rest,joined,here,there⟩ : ∃ conns rest, connss.flatten = conns ++ rest.flatten ∧ w.SpellsWeak conns ∧
        List.Forall₂ Connections.Spells (weakStrings ws) rest := by
      unfold Word.SpellsWeak
      cases string : w.weakString with
      | none =>
        rw [weakStrings,List.filterMap_cons_none string] at weak
        exact ⟨[],connss,rfl,rfl,weak⟩
      | some arg =>
        rw [weakStrings,List.filterMap_cons_some string] at weak
        obtain ⟨conns,rest,spells,tail,rfl⟩ := List.forall₂_cons_left_iff.mp weak
        exact ⟨conns,rest,List.flatten_cons,spells,tail⟩
    have first : ∀ arg, w.strongString = some arg → ∃ conns, Connections.Spells arg conns :=
      fun arg string => strong arg (List.mem_filterMap.mpr ⟨w,List.mem_cons_self,string⟩)
    obtain ⟨s₁,read,one⟩ := readGathers (valid w List.mem_cons_self) sound here first
    have later : ∀ arg ∈ strongStrings ws, ∃ conns, Connections.Spells arg conns := by
      intro arg mem
      obtain ⟨v,inside,string⟩ := List.mem_filterMap.mp mem
      exact strong arg (List.mem_filterMap.mpr ⟨v,List.mem_cons_of_mem _ inside,string⟩)
    obtain ⟨s₂,reads,sound₂,all⟩ := ih (fun v mem => valid v (List.mem_cons_of_mem _ mem)) (readSound sound read) there later
    refine ⟨s₂,by rw [List.foldlM_cons,read]; exact reads,sound₂,?_,?_,?_⟩
    · rw [all.slaves,one.slaves]
      simp only [slaveCount,List.countP_cons,List.countP_nil]
      omega
    · exact all.weakConnections.trans one.weakConnections
    · intro ps same
      rw [all.weak _ (one.weak ps same),joined,List.map_append,List.append_assoc]

end FmiTcpMaster.MasterMain
