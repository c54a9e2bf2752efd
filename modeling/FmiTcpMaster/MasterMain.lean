import FmiTcpMaster.Connections

/-! main() of the master, from the arguments to the call of simulate(). -/
namespace FmiTcpMaster.MasterMain

/- What main() gets from elsewhere: atof(), the addresses of new clients, what atoi() returns for
a number that is no int and what string_to_int() returns for a text of blanks. -/
structure Machine where
  atof : String → ℚ
  allocate : Master → ClientPtr
  fresh : ∀ m, allocate m ∉ m.addresses
  undefined : Int
  result : Int

structure State where
  master : Master
  slaves : List ClientPtr
  weak : Connections
  strong : Connections

def start : State where
  master := (((Master.init 0).setTimeStep (1/10)).setEnableEndTime false).setWeakMethod .parallel
  slaves := []
  weak := ⟨[],[],[],[]⟩
  strong := ⟨[],[],[],[]⟩

inductive Word where
  | timeStep (nextArg : String)
  | stopAfter (nextArg : String)
  | weakMethod (nextArg : String)
  | weakConnections (nextArg : String)
  | strongConnections (nextArg : String)
  | debug
  | url (arg : String)
  deriving DecidableEq, Repr

def Word.read (K : Machine) (s : State) : Word → Except Ending State
  | .timeStep nextArg =>
    let timeStepSize := K.atof nextArg
    if timeStepSize ≤ 0 then .error (.failure false)
    else .ok {s with master := s.master.setTimeStep timeStepSize}
  | .stopAfter nextArg =>
    let endTime := K.atof nextArg
    if endTime ≤ 0 then .error (.failure false)
    else .ok {s with master := (s.master.setEnableEndTime true).setEndTime endTime}
  | .weakMethod nextArg =>
    if nextArg = "parallel" then .ok {s with master := s.master.setWeakMethod .parallel}
    else if nextArg = "serial" then .ok {s with master := s.master.setWeakMethod .serial}
    else .error (.failure false)
  | .weakConnections nextArg => (Connections.read K.result s.weak nextArg).map fun weak => {s with weak := weak}
  | .strongConnections nextArg =>
    (Connections.read K.result s.strong nextArg).map fun strong => {s with strong := strong}
  | .debug => .ok s
  | .url arg =>
    (s.master.connectSlave K.undefined (K.allocate s.master) arg).map fun (slave,master) =>
      {s with master := master, slaves := s.slaves ++ [slave]}

/- The Bool says whether the branch has done j++. -/
def argument (K : Machine) (s : State) (arg : String) (next : Option String) : Except Ending (State × Bool) :=
  let one (word : Word) := (word.read K s).map fun s => (s,false)
  let two (word : Word) := (word.read K s).map fun s => (s,true)
  match arg,next with
  | "-h",_ | "--help",_ => .error .shown
  | "--timeStep",some nextArg => two (.timeStep nextArg)
  | "--version",_ => .error .shown
  | "-t",some nextArg | "--stopAfter",some nextArg => two (.stopAfter nextArg)
  | "-wm",some nextArg | "--weakMethod",some nextArg => two (.weakMethod nextArg)
  | "-wc",some nextArg | "--weakConnections",some nextArg => two (.weakConnections nextArg)
  | "-sc",some nextArg | "--strongConnections",some nextArg => two (.strongConnections nextArg)
  | "--debug",_ => one .debug
  | _,_ => one (.url arg)

def main (K : Machine) (argv : List String) : Except Ending Master := do
  let s ← Text.walk (argument K) false start argv
  s.weak.create s.slaves s.master

theorem mapSource {E S T : Type} {r : Except E S} {f : S → T} {t : T} (ok : r.map f = .ok t) : ∃ s, r = .ok s ∧ f s = t := by
  cases r with
  | error e => contradiction
  | ok s => exact ⟨s,rfl,Except.ok.inj ok⟩

theorem mapFails {E S T : Type} {r : Except E S} {f : S → T} {e : E} (failed : r.map f = .error e) : r = .error e := by
  cases r with
  | error e' => exact congrArg Except.error (Except.error.inj failed)
  | ok s => contradiction

theorem argumentSource {K : Machine} {s s' : State} {arg : String} {next : Option String} {skip : Bool}
    (ok : argument K s arg next = .ok (s',skip)) : ∃ word : Word, word.read K s = .ok s' := by
  unfold argument at ok
  split at ok <;> try contradiction
  all_goals
    obtain ⟨_,done,same⟩ := mapSource ok
    cases same
    exact ⟨_,done⟩

structure State.Sound (s : State) : Prop where
  configured : Master.Configured s.master
  slaves : s.master.addresses = s.slaves
  weak : ∃ qs, s.weak = Connections.ofQuads qs
  strong : ∃ qs, s.strong = Connections.ofQuads qs

theorem readSound {K : Machine} {s s' : State} {word : Word} (sound : s.Sound) (ok : word.read K s = .ok s') : s'.Sound := by
  cases word with
  | timeStep nextArg =>
    simp only [Word.read] at ok
    split at ok <;> try contradiction
    cases Except.ok.inj ok
    exact ⟨.setTimeStep sound.configured _,sound.slaves,sound.weak,sound.strong⟩
  | stopAfter nextArg =>
    simp only [Word.read] at ok
    split at ok <;> try contradiction
    cases Except.ok.inj ok
    exact ⟨.setEndTime (.setEnableEndTime sound.configured _) _,sound.slaves,sound.weak,sound.strong⟩
  | weakMethod nextArg =>
    simp only [Word.read] at ok
    split at ok
    · cases Except.ok.inj ok
      exact ⟨.setWeakMethod sound.configured _,sound.slaves,sound.weak,sound.strong⟩
    · split at ok <;> try contradiction
      cases Except.ok.inj ok
      exact ⟨.setWeakMethod sound.configured _,sound.slaves,sound.weak,sound.strong⟩
  | weakConnections nextArg =>
    obtain ⟨_,done,rfl⟩ := mapSource ok
    exact ⟨sound.configured,sound.slaves,Connections.readTogether sound.weak done,sound.strong⟩
  | strongConnections nextArg =>
    obtain ⟨_,done,rfl⟩ := mapSource ok
    exact ⟨sound.configured,sound.slaves,sound.weak,Connections.readTogether sound.strong done⟩
  | debug =>
    cases Except.ok.inj ok
    exact sound
  | url arg =>
    obtain ⟨⟨slave,master⟩,connected,rfl⟩ := mapSource ok
    obtain ⟨host,port,_,rfl,rfl⟩ := Master.connectSlaveSource connected
    refine ⟨.connectSlave sound.configured _ _ _ (K.fresh s.master),?_,sound.weak,sound.strong⟩
    show (s.master.connectClient _ _ _).addresses = s.slaves ++ [_]
    rw [← sound.slaves]
    exact Master.connectAddresses _ _ _ _

theorem startSound : start.Sound :=
  ⟨.setWeakMethod (.setEnableEndTime (.setTimeStep (.init 0) _) _) _,rfl,⟨[],rfl⟩,⟨[],rfl⟩⟩

theorem walkSound {K : Machine} {argv : List String} {s : State} (ok : Text.walk (argument K) false start argv = .ok s) :
    s.Sound := by
  refine Text.walkKeeps (I := State.Sound) (fun s arg next s' skip sound read => ?_) startSound ok
  obtain ⟨word,done⟩ := argumentSource read
  exact readSound sound done

theorem mainConfigured {K : Machine} {argv : List String} {m : Master} (ok : main K argv = .ok m) : Master.Configured m := by
  unfold main at ok
  cases walked : Text.walk (argument K) false start argv with
  | error e => simp [walked,bind,Except.bind] at ok
  | ok s =>
    have sound := walkSound walked
    obtain ⟨qs,together⟩ := sound.weak
    rw [walked] at ok
    have done : Connections.create s.slaves (.ofQuads qs) s.master = .ok m := together ▸ ok
    obtain ⟨ws,created,rfl⟩ := Connections.createSource done
    exact Connections.createdConfigured sound.configured sound.slaves created

end FmiTcpMaster.MasterMain
