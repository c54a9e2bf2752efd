import FmiTcpMaster.Common

/-! The argument loop of the slave program and the copy of it in the test program. Only the copy
advances past the value of an option. -/
namespace FmiTcpMaster.SlaveOptions

inductive JmLogLevel where
  | nothing | fatal | error | warning | info | verbose | debug | all
  deriving DecidableEq, Repr

structure Options where
  port : Int
  debugLogging : Bool
  logLevel : JmLogLevel
  logging : Int
  hostName : String
  fmuPath : String
  deriving DecidableEq, Repr

def start : Options where
  port := 3000
  debugLogging := false
  logLevel := .fatal
  logging := 1
  hostName := "localhost"
  fmuPath := ""

def level (logging : Int) (before : JmLogLevel) : JmLogLevel :=
  match logging with
  | 0 => .nothing
  | 1 => .fatal
  | 2 => .error
  | 3 => .warning
  | 4 => .info
  | 5 => .verbose
  | 6 => .debug
  | 7 => .all
  | _ => before

def Options.setLogging (o : Options) (nextArg : String) : Except Ending Options :=
  let logging := extract intMin intMax o.logging nextArg.toList
  if logging < 0 then .error (.failure false)
  else .ok {o with logging := logging, logLevel := level logging o.logLevel}

def Options.setPort (o : Options) (port : Int) : Except Ending Options :=
  if port ≤ 0 then .error (.failure false) else .ok {o with port := port}

/- The loop of slave/main.cpp. The Bool says whether the branch has done j++. -/
def slaveArgument (o : Options) (arg : String) (next : Option String) : Except Ending (Options × Bool) :=
  match arg,next with
  | "-h",_ | "--help",_ => .error .shown
  | "-d",_ | "--debugLogging",_ => .ok ({o with debugLogging := true},false)
  | "-v",_ | "--version",_ => .error .shown
  | "-l",some nextArg | "--logging",some nextArg => (o.setLogging nextArg).map fun o => (o,false)
  | "--port",some nextArg | "-p",some nextArg =>
    (o.setPort (extract longMin longMax o.port nextArg.toList)).map fun o => (o,false)
  | "--host",some nextArg => .ok ({o with hostName := nextArg},false)
  | _,_ => .ok ({o with fmuPath := arg},false)

def testArgument (result : Int) (o : Options) (arg : String) (next : Option String) : Except Ending (Options × Bool) :=
  match arg,next with
  | "-h",_ | "--help",_ => .error .shown
  | "-d",_ | "--debugLogging",_ => .ok ({o with debugLogging := true},false)
  | "-l",some nextArg | "--logging",some nextArg => (o.setLogging nextArg).map fun o => (o,true)
  | "--port",some nextArg | "-p",some nextArg =>
    (o.setPort (stringToInt result nextArg.toList)).map fun o => (o,true)
  | "--host",some nextArg => .ok ({o with hostName := nextArg},true)
  | _,_ => .ok ({o with fmuPath := arg},false)

def slaveMain (argv : List String) : Except Ending Options :=
  if argv = [] then .error .shown
  else do
    let o ← Text.walk slaveArgument false start argv
    if o.fmuPath = "" then .error (.failure true) else .ok o

def testLoop (result : Int) (argv : List String) : Except Ending Options :=
  Text.walk (testArgument result) false start argv

inductive Word where
  | host (nextArg : String)
  | port (nextArg : String)
  | logging (nextArg : String)
  | debugLogging
  | fmuPath (arg : String)
  deriving DecidableEq, Repr

def Word.arguments : Word → List String
  | .host nextArg => ["--host",nextArg]
  | .port nextArg => ["--port",nextArg]
  | .logging nextArg => ["--logging",nextArg]
  | .debugLogging => ["--debugLogging"]
  | .fmuPath arg => [arg]

def commandLine (words : List Word) : List String := words.flatMap Word.arguments

def optionWords : List String :=
  ["-h","--help","-d","--debugLogging","-v","--version","-l","--logging","--port","-p","--host"]

structure Ordinary (arg : String) : Prop where
  nonempty : arg ≠ ""
  plain : arg ∉ optionWords

def Word.Valid : Word → Prop
  | .host nextArg => Ordinary nextArg
  | .port nextArg => Text.Numeral nextArg.toList ∧ 1 ≤ Text.value nextArg.toList ∧ Text.value nextArg.toList ≤ 65535
  | .logging nextArg => Text.Numeral nextArg.toList ∧ Text.value nextArg.toList ≤ 7
  | .debugLogging => True
  | .fmuPath arg => Ordinary arg

def Word.set (o : Options) : Word → Options
  | .host nextArg => {o with hostName := nextArg}
  | .port nextArg => {o with port := Text.value nextArg.toList}
  | .logging nextArg =>
    {o with logging := Text.value nextArg.toList, logLevel := level (Text.value nextArg.toList) o.logLevel}
  | .debugLogging => {o with debugLogging := true}
  | .fmuPath _ => o

def Word.paths : Word → List String
  | .fmuPath arg => [arg]
  | _ => []

def Word.values : Word → List String
  | .host nextArg | .port nextArg | .logging nextArg => [nextArg]
  | .debugLogging => []
  | .fmuPath arg => [arg]

def Word.setAnd (texts : Word → List String) (o : Options) (word : Word) : Options :=
  {word.set o with fmuPath := (texts word).getLast?.getD o.fmuPath}

theorem setPath (word : Word) (o : Options) (path : String) :
    word.set {o with fmuPath := path} = {word.set o with fmuPath := path} := by
  cases word <;> rfl

theorem setPathAll (words : List Word) (o : Options) (path : String) :
    words.foldl Word.set {o with fmuPath := path} = {words.foldl Word.set o with fmuPath := path} := by
  induction words generalizing o with
  | nil => rfl
  | cons w ws ih => rw [List.foldl_cons,List.foldl_cons,setPath,ih]

theorem setAndAll (texts : Word → List String) (words : List Word) (o : Options) :
    words.foldl (Word.setAnd texts) o =
      {words.foldl Word.set o with fmuPath := (words.flatMap texts).getLast?.getD o.fmuPath} := by
  induction words generalizing o with
  | nil => rfl
  | cons w ws ih =>
    rw [List.foldl_cons,ih,Word.setAnd,setPathAll,List.foldl_cons,List.flatMap_cons,List.getLast?_append]
    cases (ws.flatMap texts).getLast? <;> rfl

theorem ordinarySlave {arg : String} (ordinary : Ordinary arg) (o : Options) (next : Option String) :
    slaveArgument o arg next = .ok ({o with fmuPath := arg},false) := by
  unfold slaveArgument
  split <;> first | rfl | exact absurd ordinary.plain (by decide)

theorem ordinaryTest {arg : String} (ordinary : Ordinary arg) (result : Int) (o : Options) (next : Option String) :
    testArgument result o arg next = .ok ({o with fmuPath := arg},false) := by
  unfold testArgument
  split <;> first | rfl | exact absurd ordinary.plain (by decide)

theorem numeralOrdinary {arg : String} (numeral : Text.Numeral arg.toList) : Ordinary arg := by
  refine ⟨?_,fun mem => ?_⟩
  · rintro rfl
    exact numeral.some rfl
  · have words : ∀ w ∈ optionWords, ¬ Text.Numeral w.toList := by decide
    exact words arg mem numeral

theorem valueOrdinary {word : Word} (valid : word.Valid) : ∀ v ∈ word.values, Ordinary v := by
  intro v mem
  cases word with
  | host nextArg => exact List.mem_singleton.mp mem ▸ valid
  | port nextArg => exact List.mem_singleton.mp mem ▸ numeralOrdinary valid.1
  | logging nextArg => exact List.mem_singleton.mp mem ▸ numeralOrdinary valid.1
  | debugLogging => contradiction
  | fmuPath arg => exact List.mem_singleton.mp mem ▸ valid

theorem loggingRead {nextArg : String} (valid : Word.Valid (.logging nextArg)) (o : Options) :
    o.setLogging nextArg = .ok (Word.set o (.logging nextArg)) := by
  have small := valid.2
  have fits : (Text.value nextArg.toList : Int) ≤ intMax := le_trans (Int.ofNat_le.mpr small) (by decide)
  have read : extract intMin intMax o.logging nextArg.toList = Text.value nextArg.toList :=
    extractNumeral _ _ _ valid.1 (by decide) fits
  simp only [Options.setLogging,read]
  exact if_neg (not_lt.mpr (Int.natCast_nonneg _))

theorem portRead {nextArg : String} (valid : Word.Valid (.port nextArg)) (o : Options) :
    o.setPort (Text.value nextArg.toList) = .ok (Word.set o (.port nextArg)) := by
  have positive : ¬ (Text.value nextArg.toList : Int) ≤ 0 := by
    have least := valid.2.1
    omega
  exact if_neg positive

theorem slaveOrdinary {arg : String} (ordinary : Ordinary arg) (o : Options) (rest : List String) :
    Text.walk slaveArgument false o (arg :: rest) = Text.walk slaveArgument false {o with fmuPath := arg} rest :=
  Text.walkWord (r := .ok _) (ordinarySlave ordinary o _)

theorem slaveValued {o o' : Options} {name nextArg : String} (sees : slaveArgument o name (some nextArg) = .ok (o',false))
    (ordinary : Ordinary nextArg) (rest : List String) :
    Text.walk slaveArgument false o (name :: nextArg :: rest) = Text.walk slaveArgument false {o' with fmuPath := nextArg} rest := by
  have first : Text.walk slaveArgument false o (name :: nextArg :: rest) = Text.walk slaveArgument false o' (nextArg :: rest) :=
    Text.walkWord (r := .ok _) sees
  exact first.trans (slaveOrdinary ordinary o' rest)

theorem slaveWord {word : Word} (valid : word.Valid) (o : Options) (rest : List String) :
    Text.walk slaveArgument false o (word.arguments ++ rest) =
      Text.walk slaveArgument false (Word.setAnd Word.values o word) rest := by
  have ordinary := valueOrdinary valid
  cases word with
  | host nextArg => exact slaveValued rfl valid rest
  | port nextArg =>
    have fits : (Text.value nextArg.toList : Int) ≤ longMax := le_trans (Int.ofNat_le.mpr valid.2.2) (by decide)
    have sees : slaveArgument o "--port" (some nextArg) = .ok (Word.set o (.port nextArg),false) := by
      have read := portRead valid o
      rw [← extractNumeral longMin longMax o.port valid.1 (by decide) fits] at read
      exact congrArg (Except.map fun o => (o,false)) read
    exact slaveValued sees (ordinary nextArg List.mem_cons_self) rest
  | logging nextArg =>
    have sees : slaveArgument o "--logging" (some nextArg) = .ok (Word.set o (.logging nextArg),false) :=
      congrArg (Except.map fun o => (o,false)) (loggingRead valid o)
    exact slaveValued sees (ordinary nextArg List.mem_cons_self) rest
  | debugLogging => exact Text.walkWord (r := .ok _) rfl
  | fmuPath arg => exact slaveOrdinary valid o rest

theorem testWord {word : Word} (valid : word.Valid) (result : Int) (o : Options) (rest : List String) :
    Text.walk (testArgument result) false o (word.arguments ++ rest) =
      Text.walk (testArgument result) false (Word.setAnd Word.paths o word) rest := by
  cases word with
  | host nextArg => exact Text.walkPair (r := .ok _) rfl
  | port nextArg =>
    have fits : (Text.value nextArg.toList : Int) ≤ intMax := le_trans (Int.ofNat_le.mpr valid.2.2) (by decide)
    have sees : testArgument result o "--port" (some nextArg) = .ok (Word.set o (.port nextArg),true) := by
      have read := portRead valid o
      rw [← stringToIntNumeral result valid.1 fits] at read
      exact congrArg (Except.map fun o => (o,true)) read
    exact Text.walkPair (r := .ok _) sees
  | logging nextArg =>
    have sees : testArgument result o "--logging" (some nextArg) = .ok (Word.set o (.logging nextArg),true) :=
      congrArg (Except.map fun o => (o,true)) (loggingRead valid o)
    exact Text.walkPair (r := .ok _) sees
  | debugLogging => exact Text.walkWord (r := .ok _) rfl
  | fmuPath arg => exact Text.walkWord (r := .ok _) (ordinaryTest valid result o _)

theorem wordsWalk {body : Options → String → Option String → Except Ending (Options × Bool)} {texts : Word → List String}
    {words : List Word} (each : ∀ w ∈ words, ∀ o rest,
      Text.walk body false o (w.arguments ++ rest) = Text.walk body false (Word.setAnd texts o w) rest) (o : Options) :
    Text.walk body false o (commandLine words) =
      .ok {words.foldl Word.set o with fmuPath := (words.flatMap texts).getLast?.getD o.fmuPath} := by
  rw [← setAndAll]
  induction words generalizing o with
  | nil => rfl
  | cons w ws ih =>
    rw [commandLine,List.flatMap_cons,each w List.mem_cons_self]
    exact ih (fun v mem => each v (List.mem_cons_of_mem _ mem)) (Word.setAnd texts o w)

def given (words : List Word) (path : String) : Options := {words.foldl Word.set start with fmuPath := path}

theorem givenAnywhere (before after : List Word) (arg path : String) :
    given (before ++ .fmuPath arg :: after) path = given (before ++ after) path := by
  simp only [given,List.foldl_append,List.foldl_cons,Word.set]

def pathsOf (words : List Word) : List String := words.flatMap Word.paths
def valuesOf (words : List Word) : List String := words.flatMap Word.values

theorem slaveLoop {words : List Word} (valid : ∀ w ∈ words, w.Valid) :
    Text.walk slaveArgument false start (commandLine words) = .ok (given words ((valuesOf words).getLast?.getD "")) :=
  wordsWalk (fun w mem => slaveWord (valid w mem)) start

theorem testLoopGiven {words : List Word} (valid : ∀ w ∈ words, w.Valid) (result : Int) :
    testLoop result (commandLine words) = .ok (given words ((pathsOf words).getLast?.getD "")) :=
  wordsWalk (fun w mem => testWord (valid w mem) result) start

theorem commandLineEmpty {words : List Word} : commandLine words = [] ↔ words = [] := by
  constructor
  · intro none
    cases words with
    | nil => rfl
    | cons w ws => cases w <;> contradiction
  · rintro rfl
    rfl

theorem slaveMainGiven {words : List Word} (valid : ∀ w ∈ words, w.Valid) (nonempty : words ≠ []) :
    slaveMain (commandLine words) =
      match (valuesOf words).getLast? with
      | none => .error (.failure true)
      | some path => .ok (given words path) := by
  rw [slaveMain,if_neg (commandLineEmpty.not.mpr nonempty),slaveLoop valid]
  cases last : (valuesOf words).getLast? with
  | none => rfl
  | some path =>
    obtain ⟨w,mem,value⟩ := List.mem_flatMap.mp (List.mem_of_getLast? last)
    exact if_neg (valueOrdinary (valid w mem) path value).nonempty

/- With a FMUPATH both loops end with the given options and that path (the last one, if there are
several); without one the slave program prints its help and fails. -/
def Means (result : Int) (words : List Word) : Prop :=
  match (pathsOf words).getLast? with
  | none => slaveMain (commandLine words) = .error (.failure true)
  | some path =>
    slaveMain (commandLine words) = .ok (given words path) ∧ testLoop result (commandLine words) = .ok (given words path)

theorem slaveOptionsExact (result : Int) {words : List Word} (valid : ∀ w ∈ words, w.Valid) :
    Means result words ↔ words ≠ [] ∧ (valuesOf words).getLast? = (pathsOf words).getLast? := by
  by_cases empty : words = []
  · subst empty
    have ended : ¬ Means result [] := fun means => absurd (show slaveMain [] = .error (.failure true) from means) (by decide)
    simp [ended]
  · have slave := slaveMainGiven valid empty
    have test := testLoopGiven valid result
    unfold Means
    cases path : (pathsOf words).getLast? with
    | none =>
      cases value : (valuesOf words).getLast? with
      | none => simp [slave,value,empty]
      | some v => simp [slave,value]
    | some p =>
      rw [path] at test
      cases value : (valuesOf words).getLast? with
      | none => simp [slave,value]
      | some v => simp [slave,value,test,empty,given]

theorem slaveOptionsExactHelp :
    Means 0 [.host "localhost",.port "3000",.fmuPath "mySim.fmu"] ↔
      ([.host "localhost",.port "3000",.fmuPath "mySim.fmu"] : List Word) ≠ [] ∧
        (valuesOf [.host "localhost",.port "3000",.fmuPath "mySim.fmu"]).getLast? =
          (pathsOf [.host "localhost",.port "3000",.fmuPath "mySim.fmu"]).getLast? := by
  refine slaveOptionsExact 0 fun w mem => ?_
  simp only [List.mem_cons,List.not_mem_nil,or_false] at mem
  rcases mem with rfl | rfl | rfl
  · exact ⟨by decide,by decide⟩
  · exact ⟨by decide,by decide,by decide⟩
  · exact ⟨by decide,by decide⟩

theorem slaveOptionsWrong :
    ¬ Means 0 [.fmuPath "mySim.fmu",.port "3001"] ∧ ¬ Means 0 [.port "3001"] ∧ ¬ Means 0 [] := by
  refine ⟨fun means => ?_,fun means => ?_,fun means => ?_⟩
  · have hosted := means.1
    have taken : slaveMain ["mySim.fmu","--port","3001"] = .ok {start with port := 3001, fmuPath := "3001"} := by decide
    have same := taken.symm.trans hosted
    exact absurd same (by decide)
  · have failed : slaveMain ["--port","3001"] = .error (.failure true) := means
    exact absurd failed (by decide)
  · have failed : slaveMain [] = .error (.failure true) := means
    exact absurd failed (by decide)

end FmiTcpMaster.SlaveOptions
