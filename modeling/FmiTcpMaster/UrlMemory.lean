import FmiTcpMaster.Malloc
import FmiTcpMaster.UrlFormat
import FmiTcpMaster.ConnectSlave

/-! parse_url() and parsed_url_free() in memory. struct parsed_url is a block of eight pointers, its
members point to blocks of characters, and every malloc() may fail. -/
namespace FmiTcpMaster
open Text Malloc

inductive Member where
  | scheme | host | port | path | query | fragment | username | password
  deriving DecidableEq, Repr

/- The order of struct parsed_url and of parsed_url_free(). -/
def Member.all : List Member := [.scheme,.host,.port,.path,.query,.fragment,.username,.password]

def Member.offset : Member → Nat
  | .scheme => 0
  | .host => 1
  | .port => 2
  | .path => 3
  | .query => 4
  | .fragment => 5
  | .username => 6
  | .password => 7

inductive Cell where
  | char (c : Char)
  | pointer (p : Option Nat)
  deriving DecidableEq, Repr

def Cell.toChar : Cell → Option Char
  | .char c => some c
  | .pointer _ => none

def Cell.toPointer : Cell → Option (Option Nat)
  | .char _ => none
  | .pointer p => some p

namespace Purl

abbrev Do := Prog Nat Cell

/- What an int and a size_t make of a number that they are too small for. -/
def toInt (n : Nat) : Int := (n : Int).bmod (2^32)
def toSize (n : Int) : Nat := (n % 2^64).toNat

def member (purl : Nat) (m : Member) : Do (Option Nat) := read Cell.toPointer purl m.offset
def setMember (purl : Nat) (m : Member) (p : Option Nat) : Do Unit := write purl m.offset (.pointer p)

def target (purl : Nat) (m : Member) : Do Nat := do
  deref (← member purl m)

def setNull (purl : Nat) : List Member → Do Unit
  | [] => pure ()
  | m :: ms => do
    setMember purl m none
    setNull purl ms

def freeMember : Option Nat → Do Unit
  | none => pure ()
  | some p => free p

def freeMembers (purl : Nat) : List Member → Do Unit
  | [] => pure ()
  | m :: ms => do
    freeMember (← member purl m)
    freeMembers purl ms

def parsedUrlFree : Option Nat → Do Unit
  | none => pure ()
  | some purl => do
    freeMembers purl Member.all
    free purl

def fail (purl : Nat) : Do (Option Nat) := do
  parsedUrlFree (some purl)
  pure none

/- purl->m = malloc(sizeof(char)*(len+1)), and purl->m as it is looked at afterwards. -/
def allocate (M : Allocator Nat) (purl : Nat) (m : Member) (len : Int) : Do (Option Nat) := do
  setMember purl m (← malloc M (toSize (len+1)))
  member purl m

def put (p : Nat) (c : Char) : Int → Do Unit
  | .ofNat i => write p i (.char c)
  | .negSucc _ => fun _ => .error .outside

def copy (purl : Nat) (m : Member) (curstr : List Char) (len : Int) : Do Unit := do
  let p ← target purl m
  copyPadded p (.char '\x00') 0 (curstr.map .char) (toSize len)
  put p '\x00' len

def store (M : Allocator Nat) (purl : Nat) (m : Member) (curstr : List Char) (len : Int) (next : Do (Option Nat)) :
    Do (Option Nat) := do
  match ← allocate M purl m len with
  | none => fail purl
  | some _ =>
    copy purl m curstr len
    next

def storeOptional (M : Allocator Nat) (purl : Nat) (m : Member) (d : Char) (ends : Char → Bool) (curstr : List Char)
    (next : List Char → Do (Option Nat)) : Do (Option Nat) :=
  match curstr with
  | [] => next []
  | c :: curstr =>
    if c = d then store M purl m curstr (toInt (scan ends curstr).1.length) (next (scan ends curstr).2)
    else next (c :: curstr)

def toLower (purl : Nat) (len : Int) : Do Unit := do
  let p ← target purl .scheme
  modifyAll Cell.toChar (fun c => .char c.toLower) p 0 len.toNat

def storeScheme (M : Allocator Nat) (purl : Nat) (curstr : List Char) (next : List Char → Do (Option Nat)) :
    Do (Option Nat) :=
  match scan (· = ':') curstr with
  | (_,[]) => fail purl
  | (scheme,_ :: rest) =>
    let len := toInt scheme.length
    if (curstr.take len.toNat).all ParsedUrl.isSchemeChar then
      store M purl .scheme curstr len do
        toLower purl len
        next rest
    else fail purl

def eatSlashes (purl : Nat) (curstr : List Char) (next : List Char → Do (Option Nat)) : Do (Option Nat) :=
  match ParsedUrl.eatSlashes curstr with
  | none => fail purl
  | some curstr => next curstr

def storeUser (M : Allocator Nat) (purl : Nat) (curstr : List Char) (next : List Char → Do (Option Nat)) :
    Do (Option Nat) :=
  if ParsedUrl.userpassFlag curstr then
    let (username,rest) := scan (fun c => c = ':' || c = '@') curstr
    store M purl .username curstr (toInt username.length) <|
      storeOptional M purl .password ':' (· = '@') rest fun curstr =>
        match curstr with
        | '@' :: curstr => next curstr
        | _ => fail purl
  else next curstr

def storeHost (M : Allocator Nat) (purl : Nat) (curstr : List Char) (next : List Char → Do (Option Nat)) :
    Do (Option Nat) := do
  let (host,rest) :=
    if curstr.head? = some '[' then
      let (inner,rest) := scan (· = ']') curstr
      (inner ++ rest.take 1,rest.drop 1)
    else scan (fun c => c = ':' || c = '/') curstr
  let len := toInt host.length
  match ← allocate M purl .host len with
  | none => fail purl
  | some _ =>
    if len ≤ 0 then fail purl
    else
      copy purl .host curstr len
      next rest

def storePath (M : Allocator Nat) (purl : Nat) : List Char → Do (Option Nat)
  | [] => pure (some purl)
  | '/' :: curstr =>
    let (path,rest) := scan (fun c => c = '#' || c = '?') curstr
    store M purl .path curstr (toInt path.length) <|
      storeOptional M purl .query '?' (· = '#') rest fun curstr =>
        storeOptional M purl .fragment '#' (fun _ => false) curstr fun _ => pure (some purl)
  | _ => fail purl

def parseUrl (M : Allocator Nat) (url : List Char) : Do (Option Nat) := do
  match ← malloc M Member.all.length with
  | none => pure none
  | some purl =>
    setNull purl Member.all
    storeScheme M purl url fun curstr =>
      eatSlashes purl curstr fun curstr =>
        storeUser M purl curstr fun curstr =>
          storeHost M purl curstr fun curstr =>
            storeOptional M purl .port ':' (· = '/') curstr fun curstr => storePath M purl curstr

def cString (s : List Char) : List (Option Cell) := s.map (fun c => some (.char c)) ++ [some (.char '\x00')]

structure Filled where
  block : Nat
  members : Member → Option (Block Nat Cell)

namespace Filled

def pointers (f : Filled) : List (Option Cell) := Member.all.map fun m => some (.pointer ((f.members m).map Prod.fst))
def contents (f : Filled) (m : Member) : Option (List (Option Cell)) := (f.members m).map Prod.snd
def set (f : Filled) (m : Member) (b : Block Nat Cell) : Filled := {f with members := Function.update f.members m (some b)}
def blocks (f : Filled) : List (Block Nat Cell) := (f.block,f.pointers) :: Member.all.filterMap f.members

theorem setContents (f : Filled) (m : Member) (b : Block Nat Cell) :
    (f.set m b).contents = Function.update f.contents m (some b.2) := by
  funext n
  by_cases same : n = m
  · subst same
    simp [contents,set]
  · simp [contents,set,same]

theorem setHeld (f : Filled) (m : Member) (b : Block Nat Cell) : (f.set m b).members m = some b := Function.update_self ..

theorem setSet (f : Filled) (m : Member) (b c : Block Nat Cell) : (f.set m b).set m c = f.set m c := by
  simp only [set,Function.update_idem]

theorem setSelf {f : Filled} {m : Member} {b : Block Nat Cell} (held : f.members m = some b) : f.set m b = f := by
  rw [set,← held,Function.update_eq_self]

theorem absentMember {f : Filled} {m : Member} (absent : f.contents m = none) : f.members m = none :=
  Option.map_eq_none_iff.mp absent

theorem absentContents {f : Filled} {m : Member} (absent : f.contents m = none) :
    Function.update f.contents m ((none : Option (List Char)).map cString) = f.contents := by
  rw [Option.map_none,← absent,Function.update_eq_self]

theorem pointersAt (f : Filled) (m : Member) :
    f.pointers[m.offset]? = some (some (.pointer ((f.members m).map Prod.fst))) := by
  cases m <;> rfl

theorem pointersSet (f : Filled) (m : Member) (b : Block Nat Cell) :
    f.pointers.set m.offset (some (.pointer (some b.1))) = (f.set m b).pointers := by
  cases m <;> rfl

theorem pointersNull {f : Filled} {m : Member} (absent : f.members m = none) :
    f.pointers.set m.offset (some (.pointer none)) = f.pointers := by
  have there := f.pointersAt m
  rw [absent] at there
  obtain ⟨inside,same⟩ := List.getElem?_eq_some_iff.mp there
  rw [Option.map_none] at same
  rw [← same,List.set_getElem_self]

theorem membersSplit (m : Member) : ∃ l r, Member.all = l ++ m :: r ∧ m ∉ l ∧ m ∉ r := by
  obtain ⟨l,r,split⟩ := List.append_of_mem (show m ∈ Member.all by cases m <;> decide)
  have distinct : Member.all.Nodup := by decide
  rw [split,List.nodup_append] at distinct
  exact ⟨l,r,split,fun mem => distinct.2.2 _ mem _ List.mem_cons_self rfl,(List.nodup_cons.mp distinct.2.1).1⟩

theorem setOthers (f : Filled) {m : Member} (b : Block Nat Cell) {ms : List Member} (outside : m ∉ ms) :
    ms.filterMap (f.set m b).members = ms.filterMap f.members := by
  refine List.filterMap_congr fun n mem => ?_
  have other : n ≠ m := by
    rintro rfl
    exact outside mem
  simp only [set]
  rw [Function.update_of_ne other]

theorem setBlocks (f : Filled) (m : Member) : ∃ others,
    (∀ b, (f.set m b).blocks.Perm (b :: (f.block,f.pointers.set m.offset (some (.pointer (some b.1)))) :: others)) ∧
    (f.members m = none → Member.all.filterMap f.members = others) := by
  obtain ⟨l,r,split,before,after⟩ := membersSplit m
  refine ⟨l.filterMap f.members ++ r.filterMap f.members,fun b => ?_,fun absent => ?_⟩
  · rw [blocks,pointersSet,split,List.filterMap_append,List.filterMap_cons,f.setHeld m b,f.setOthers b before,f.setOthers b after]
    exact (List.perm_middle.cons _).trans (.swap _ _ _)
  · rw [split,List.filterMap_append,List.filterMap_cons,absent]

end Filled

def IntSized (s : List Char) : Prop := s.length < 2^31-1

theorem shortParts {s t : List Char} (short : IntSized (s ++ t)) : IntSized s ∧ IntSized t := by
  unfold IntSized at *
  rw [List.length_append] at short
  omega

theorem toIntShort {s : List Char} (short : IntSized s) : toInt s.length = s.length := by
  unfold IntSized at short
  exact Int.bmod_eq_of_le_mul_two (by omega) (by omega)

theorem toSizeNat {n : Nat} (fits : n < 2^64) : toSize n = n := by
  unfold toSize
  omega

section Rules
variable {A : Type} {M : Allocator Nat} {h : Heap Nat Cell} {k : Nat} {frame bs : List (Block Nat Cell)} {f : Filled} {m : Member}

theorem memberRuns (holds : Holds h k (f.blocks ++ frame)) :
    Runs (member f.block m) h fun p h' => p = (f.members m).map Prod.fst ∧ Holds h' k (f.blocks ++ frame) :=
  readRuns (f.pointersAt m) rfl holds

theorem targetRuns {b : Block Nat Cell} (held : f.members m = some b) (holds : Holds h k (f.blocks ++ frame)) :
    Runs (target f.block m) h fun p h' => p = b.1 ∧ Holds h' k (f.blocks ++ frame) := by
  refine bindRuns (memberRuns holds) fun p h' after => ?_
  obtain ⟨rfl,holds⟩ := after
  rw [held]
  exact ⟨b.1,h',rfl,rfl,holds⟩

theorem ownedRuns {prog : Do A} {Q : A → Prop} {b : Block Nat Cell} {c : List (Option Cell)}
    (held : f.members m = some b) (holds : Holds h k (f.blocks ++ frame))
    (runs : ∀ bs, Holds h k (b :: bs) → Runs prog h fun a h' => Q a ∧ Holds h' k ((b.1,c) :: bs)) :
    Runs prog h fun a h' => Q a ∧ Holds h' k ((f.set m (b.1,c)).blocks ++ frame) := by
  obtain ⟨others,blocks,_⟩ := f.setBlocks m
  have first := (blocks b).append_right frame
  rw [Filled.setSelf held] at first
  refine weaken (runs _ (holdsPerm holds first)) fun a h' after => ⟨after.1,?_⟩
  exact holdsPerm after.2 ((blocks (b.1,c)).append_right frame).symm

theorem freeMembersRuns (ms : List Member) (holds : Holds h k ((f.block,f.pointers) :: (ms.filterMap f.members ++ bs))) :
    Runs (freeMembers f.block ms) h fun _ h' => Holds h' k ((f.block,f.pointers) :: bs) := by
  induction ms generalizing h with
  | nil => exact pureRuns holds
  | cons m ms ih =>
    refine bindRuns (readRuns (f.pointersAt m) rfl holds) fun p h' after => ?_
    obtain ⟨rfl,holds⟩ := after
    cases member : f.members m with
    | none =>
      rw [List.filterMap_cons_none member] at holds
      exact bindRuns (pureRuns holds) fun _ _ holds => ih holds
    | some b =>
      rw [List.filterMap_cons_some member] at holds
      exact bindRuns (freeRuns (holdsPerm holds (.swap _ _ _))) fun _ _ holds => ih holds

theorem parsedUrlFreeRuns (holds : Holds h k (f.blocks ++ frame)) :
    Runs (parsedUrlFree (some f.block)) h fun _ h' => Holds h' k frame :=
  bindRuns (freeMembersRuns Member.all holds) fun _ _ holds => freeRuns holds

theorem failRuns (holds : Holds h k (f.blocks ++ frame)) :
    Runs (fail f.block) h fun purl h' => purl = none ∧ Holds h' k frame :=
  bindRuns (parsedUrlFreeRuns holds) fun _ _ holds => pureRuns ⟨rfl,holds⟩

theorem allocateRuns {n : Nat} (fits : n+1 < 2^64) (absent : f.contents m = none) (holds : Holds h k (f.blocks ++ frame)) :
    Runs (allocate M f.block m n) h fun p h' => match p with
      | none => Holds h' (k+1) (f.blocks ++ frame)
      | some p => Holds h' k ((f.set m (p,List.replicate (n+1) none)).blocks ++ frame) := by
  have none_ := Filled.absentMember absent
  have inside := (List.getElem?_eq_some_iff.mp (f.pointersAt m)).1
  have size : toSize ((n : Int)+1) = n+1 := toSizeNat fits
  rw [allocate,size]
  refine bindRuns (mallocRuns M (n+1) holds) fun p h' allocated => ?_
  cases p with
  | none =>
    refine bindRuns (writeRuns inside allocated) fun _ h'' written => ?_
    rw [Filled.pointersNull none_] at written
    refine weaken (memberRuns (f := f) written) fun p h' after => ?_
    rw [after.1,none_]
    exact after.2
  | some p =>
    obtain ⟨others,blocks,alone⟩ := f.setBlocks m
    refine bindRuns (writeRuns inside (holdsPerm allocated (.swap _ _ _))) fun _ h'' written => ?_
    rw [alone none_] at written
    have set := holdsPerm (holdsPerm written (.swap _ _ _)) ((blocks (p,List.replicate (n+1) none)).append_right frame).symm
    refine weaken (memberRuns (f := f.set m (p,List.replicate (n+1) none)) (m := m) set) fun q h' after => ?_
    rw [after.1,f.setHeld]
    exact after.2

theorem copyRuns {s tail : List Char} {p : Nat} (short : IntSized s) (held : f.members m = some (p,List.replicate (s.length+1) none))
    (holds : Holds h k (f.blocks ++ frame)) :
    Runs (copy f.block m (s ++ tail) s.length) h fun _ h' => Holds h' k ((f.set m (p,cString s)).blocks ++ frame) := by
  have size : toSize s.length = s.length := toSizeNat (by unfold IntSized at short; omega)
  refine bindRuns (targetRuns held holds) fun q h' after => ?_
  obtain ⟨rfl,holds⟩ := after
  refine weaken (ownedRuns (Q := fun _ => True) (c := cString s) held holds fun bs owned => ?_) fun _ _ after => after.2
  rw [size]
  refine bindRuns (copyPaddedRuns (.char '\x00') [] _ (by simp) owned) fun _ h''' filled => ?_
  have text : ((s ++ tail).map Cell.char).takeD s.length (.char '\x00') = s.map Cell.char := by
    rw [List.takeD_eq_take _ (by simp),List.map_append,List.take_left' (by simp)]
  have last : (List.replicate (s.length+1) none : List (Option Cell)).drop s.length = [none] := by
    rw [List.drop_replicate,Nat.add_sub_cancel_left]
    rfl
  rw [← List.replicate_succ,text,last,List.nil_append] at filled
  refine weaken (writeRuns (by simp) filled) fun _ h'' written => ⟨trivial,?_⟩
  rw [List.set_append_right _ _ (by simp)] at written
  simpa [cString,Function.comp_def] using written

theorem heldContents {s : List Char} (content : f.contents m = some (cString s)) : ∃ p, f.members m = some (p,cString s) := by
  obtain ⟨b,held,cells⟩ := Option.map_eq_some_iff.mp content
  exact ⟨b.1,held.trans (congrArg some (Prod.ext rfl cells))⟩

theorem toLowerRuns {s : List Char} (content : f.contents .scheme = some (cString s)) (holds : Holds h k (f.blocks ++ frame)) :
    Runs (toLower f.block s.length) h fun _ h' => ∃ g : Filled, g.block = f.block ∧
      g.contents = Function.update f.contents .scheme (some (cString (s.map Char.toLower))) ∧ Holds h' k (g.blocks ++ frame) := by
  obtain ⟨p,held⟩ := heldContents content
  refine bindRuns (targetRuns held holds) fun q h' after => ?_
  obtain ⟨rfl,holds⟩ := after
  have lowered : ∀ bs, Holds h' k ((q,cString s) :: bs) →
      Runs (modifyAll Cell.toChar (fun c => .char c.toLower) q 0 s.length) h' fun _ h'' =>
        True ∧ Holds h'' k ((q,cString (s.map Char.toLower)) :: bs) := by
    intro bs owned
    refine weaken (modifyAllRuns Cell.char (fun _ => rfl) (fun c => .char c.toLower) s [] owned) fun _ h'' after => ?_
    exact ⟨trivial,by simpa [cString,Function.comp_def] using after⟩
  refine weaken (ownedRuns held holds lowered) fun _ h'' after =>
    ⟨f.set .scheme (q,cString (s.map Char.toLower)),rfl,f.setContents _ _,after.2⟩

/- From here parse_url() either returns what is expected, with the blocks that this takes, or it has
freed all it had: because of malloc(), or because nothing is expected. -/
def Good (prog : Do (Option Nat)) (h : Heap Nat Cell) (k : Nat) (frame : List (Block Nat Cell))
    (expected : Option (Member → Option (List (Option Cell)))) : Prop :=
  Runs prog h fun purl h' => match purl with
    | none => ∃ k', Holds h' k' frame ∧ (k < k' ∨ k' = k ∧ expected = none)
    | some purl => ∃ f : Filled, f.block = purl ∧ expected = some f.contents ∧ Holds h' k (f.blocks ++ frame)

section Stages
variable {purl : Nat} {expected : Option (Member → Option (List (Option Cell)))} {s : List Char}

theorem failGood (holds : Holds h k (f.blocks ++ frame)) (at_ : f.block = purl) (refused : expected = none) :
    Good (fail purl) h k frame expected := by
  subst at_
  refine weaken (failRuns holds) fun purl h' after => ?_
  obtain ⟨rfl,holds⟩ := after
  exact ⟨k,holds,.inr ⟨rfl,refused⟩⟩

theorem exhaustedGood (holds : Holds h (k+1) (f.blocks ++ frame)) (at_ : f.block = purl) : Good (fail purl) h k frame expected := by
  subst at_
  refine weaken (failRuns holds) fun purl h' after => ?_
  obtain ⟨rfl,holds⟩ := after
  exact ⟨k+1,holds,.inl (Nat.lt_succ_self k)⟩

theorem shortSize (short : IntSized s) : s.length+1 < 2^64 := by
  unfold IntSized at short
  omega

theorem storeGood {curstr tail : List Char} {next : Do (Option Nat)} (at_ : f.block = purl) (absent : f.contents m = none)
    (holds : Holds h k (f.blocks ++ frame)) (short : IntSized s) (joined : curstr = s ++ tail)
    (rest : ∀ g : Filled, g.block = purl → g.contents = Function.update f.contents m (some (cString s)) →
      ∀ h', Holds h' k (g.blocks ++ frame) → Good next h' k frame expected) :
    Good (store M purl m curstr (toInt s.length) next) h k frame expected := by
  subst at_ joined
  rw [toIntShort short]
  refine bindRuns (allocateRuns (shortSize short) absent holds) fun p h' allocated => ?_
  cases p with
  | none => exact exhaustedGood allocated rfl
  | some p =>
    refine bindRuns (copyRuns (f := f.set m (p,_)) short (f.setHeld _ _) allocated) fun _ h'' copied => ?_
    rw [Filled.setSet] at copied
    exact rest (f.set m (p,cString s)) rfl (f.setContents m _) h'' copied

theorem storeOptionalGood {d : Char} {ends : Char → Bool} {next : List Char → Do (Option Nat)} (at_ : f.block = purl)
    (absent : f.contents m = none) (holds : Holds h k (f.blocks ++ frame)) (short : IntSized s)
    (rest : ∀ part tail, ParsedUrl.optional d ends s = (part,tail) → IntSized tail → ∀ g : Filled, g.block = purl →
      g.contents = Function.update f.contents m (part.map cString) → ∀ h', Holds h' k (g.blocks ++ frame) →
      Good (next tail) h' k frame expected) :
    Good (storeOptional M purl m d ends s next) h k frame expected := by
  have still := (Filled.absentContents absent).symm
  cases s with
  | nil => exact rest none [] rfl short f at_ still h holds
  | cons c cs =>
    rw [storeOptional]
    split
    · rename_i same
      have joined := (scanSource ends cs).joined
      have parts := shortParts (joined ▸ (shortParts (s := [c]) short).2)
      exact storeGood at_ absent holds parts.1 joined fun g block contents h' holds =>
        rest _ _ (if_pos same) parts.2 g block contents h' holds
    · rename_i other
      exact rest none (c :: cs) (if_neg other) short f at_ still h holds

theorem storeSchemeGood {next : List Char → Do (Option Nat)} (at_ : f.block = purl) (absent : f.contents .scheme = none)
    (holds : Holds h k (f.blocks ++ frame)) (short : IntSized s) (refused : ParsedUrl.readScheme s = none → expected = none)
    (rest : ∀ scheme tail, ParsedUrl.readScheme s = some (scheme,tail) → IntSized tail → ∀ g : Filled, g.block = purl →
      g.contents = Function.update f.contents .scheme (some (cString scheme)) → ∀ h', Holds h' k (g.blocks ++ frame) →
      Good (next tail) h' k frame expected) :
    Good (storeScheme M purl s next) h k frame expected := by
  have joined := (scanSource (· = ':') s).joined
  unfold ParsedUrl.readScheme at refused rest
  unfold storeScheme
  obtain ⟨⟨scheme,after⟩,scanned⟩ : ∃ x, scan (· = ':') s = x := ⟨_,rfl⟩
  rw [scanned] at joined refused rest ⊢
  cases after with
  | nil => exact failGood holds at_ (refused rfl)
  | cons c tail =>
    subst joined
    obtain ⟨shortScheme,shortRest⟩ := shortParts short
    have looked : (scheme ++ c :: tail).take (toInt scheme.length).toNat = scheme := by
      rw [toIntShort shortScheme,Int.toNat_natCast,List.take_left' rfl]
    simp only [looked] at refused rest ⊢
    split
    · rename_i legal
      refine storeGood at_ absent holds shortScheme rfl fun g block contents h' holds => ?_
      have content : g.contents .scheme = some (cString scheme) := by rw [contents,Function.update_self]
      rw [toIntShort shortScheme,← block]
      refine bindRuns (toLowerRuns content holds) fun _ h'' lowered => ?_
      obtain ⟨g',block',contents',holds⟩ := lowered
      rw [contents,Function.update_idem] at contents'
      exact rest _ _ (if_pos legal) (shortParts (s := [c]) shortRest).2 g' (block'.trans block) contents' h'' holds
    · rename_i illegal
      exact failGood holds at_ (refused (if_neg illegal))

theorem storeUserGood {next : List Char → Do (Option Nat)} (at_ : f.block = purl) (noName : f.contents .username = none)
    (noWord : f.contents .password = none) (holds : Holds h k (f.blocks ++ frame)) (short : IntSized s)
    (refused : ParsedUrl.readUser s = none → expected = none)
    (rest : ∀ username password tail, ParsedUrl.readUser s = some (username,password,tail) → IntSized tail → ∀ g : Filled,
      g.block = purl →
      g.contents = Function.update (Function.update f.contents .username (username.map cString)) .password (password.map cString) →
      ∀ h', Holds h' k (g.blocks ++ frame) → Good (next tail) h' k frame expected) :
    Good (storeUser M purl s next) h k frame expected := by
  have joined := (scanSource (fun c => c = ':' || c = '@') s).joined
  unfold ParsedUrl.readUser at refused rest
  unfold storeUser
  split
  · rename_i flag
    rw [if_pos flag] at refused rest
    obtain ⟨⟨username,after⟩,scanned⟩ : ∃ x, scan (fun c => c = ':' || c = '@') s = x := ⟨_,rfl⟩
    rw [scanned] at joined
    simp only [scanned] at refused rest ⊢
    obtain ⟨shortName,shortAfter⟩ := shortParts (joined ▸ short)
    refine storeGood at_ noName holds shortName joined fun g block contents h' holds => ?_
    have noWord' : g.contents .password = none := by rw [contents]; simpa using noWord
    refine storeOptionalGood block noWord' holds shortAfter fun password tail given shortTail g' block' contents' h'' holds => ?_
    simp only [given] at refused rest
    rw [contents] at contents'
    split
    · exact rest _ _ _ rfl (shortParts (s := ['@']) shortTail).2 g' block' contents' h'' holds
    · rename_i other
      refine failGood holds block' (refused ?_)
      split
      · exact absurd rfl (other _)
      · rfl
  · rename_i noFlag
    rw [if_neg noFlag] at refused rest
    refine rest _ _ _ rfl short f at_ ?_ h holds
    rw [Filled.absentContents noName,Filled.absentContents noWord]

theorem hostJoined {s host tail : List Char} (read : (if s.head? = some '[' then
      ((scan (· = ']') s).1 ++ (scan (· = ']') s).2.take 1,(scan (· = ']') s).2.drop 1)
    else scan (fun c => c = ':' || c = '/') s) = (host,tail)) : s = host ++ tail := by
  split at read
  · obtain ⟨rfl,rfl⟩ := Prod.mk.inj read
    rw [List.append_assoc,List.take_append_drop]
    exact (scanSource _ s).joined
  · have joined := (scanSource (fun c => c = ':' || c = '/') s).joined
    rwa [read] at joined

theorem storeHostGood {next : List Char → Do (Option Nat)} (at_ : f.block = purl) (absent : f.contents .host = none)
    (holds : Holds h k (f.blocks ++ frame)) (short : IntSized s) (refused : ParsedUrl.readHost s = none → expected = none)
    (rest : ∀ host tail, ParsedUrl.readHost s = some (host,tail) → IntSized tail → ∀ g : Filled, g.block = purl →
      g.contents = Function.update f.contents .host (some (cString host)) → ∀ h', Holds h' k (g.blocks ++ frame) →
      Good (next tail) h' k frame expected) :
    Good (storeHost M purl s next) h k frame expected := by
  unfold ParsedUrl.readHost at refused rest
  unfold storeHost
  obtain ⟨⟨host,tail⟩,read⟩ : ∃ x, (if s.head? = some '[' then
      ((scan (· = ']') s).1 ++ (scan (· = ']') s).2.take 1,(scan (· = ']') s).2.drop 1)
    else scan (fun c => c = ':' || c = '/') s) = x := ⟨_,rfl⟩
  have joined := hostJoined read
  simp only [read] at refused rest ⊢
  subst at_ joined
  obtain ⟨shortHost,shortTail⟩ := shortParts short
  rw [toIntShort shortHost]
  refine bindRuns (allocateRuns (shortSize shortHost) absent holds) fun p h' allocated => ?_
  cases p with
  | none => exact exhaustedGood allocated rfl
  | some p =>
    have least : (host.length : Int) ≤ 0 ↔ host = [] := by
      rw [← List.length_eq_zero_iff]
      omega
    simp only [least]
    split
    · rename_i empty
      exact failGood allocated rfl (refused (if_pos empty))
    · rename_i some_
      refine bindRuns (copyRuns (f := f.set .host (p,_)) shortHost (f.setHeld _ _) allocated) fun _ h'' copied => ?_
      rw [Filled.setSet] at copied
      exact rest _ _ (if_neg some_) shortTail (f.set .host (p,cString host)) rfl (f.setContents .host _) h'' copied

theorem storePathGood (at_ : f.block = purl) (noPath : f.contents .path = none) (noQuery : f.contents .query = none)
    (noFragment : f.contents .fragment = none) (holds : Holds h k (f.blocks ++ frame)) (short : IntSized s)
    (refused : ParsedUrl.readPath s = none → expected = none)
    (parsed : ∀ path query fragment, ParsedUrl.readPath s = some (path,query,fragment) →
      expected = some (Function.update (Function.update (Function.update f.contents .path (path.map cString)) .query
        (query.map cString)) .fragment (fragment.map cString))) :
    Good (storePath M purl s) h k frame expected := by
  unfold storePath
  split
  · refine pureRuns ⟨f,at_,?_,holds⟩
    rw [parsed _ _ _ rfl,Filled.absentContents noPath,Filled.absentContents noQuery,Filled.absentContents noFragment]
  · rename_i rest
    have joined := (scanSource (fun c => c = '#' || c = '?') rest).joined
    obtain ⟨shortPath,shortRest⟩ := shortParts (joined ▸ (shortParts (s := ['/']) short).2)
    refine storeGood at_ noPath holds shortPath joined fun g block contents h' holds => ?_
    have noQuery' : g.contents .query = none := by rw [contents]; simpa using noQuery
    refine storeOptionalGood block noQuery' holds shortRest fun query tail asked shortTail g' block' contents' h'' holds => ?_
    have noFragment' : g'.contents .fragment = none := by rw [contents',contents]; simpa using noFragment
    refine storeOptionalGood block' noFragment' holds shortTail
      fun fragment last marked _ g'' block'' contents'' h''' holds => ?_
    have read : ParsedUrl.readPath ('/' :: rest) = some (some (scan (fun c => c = '#' || c = '?') rest).1,query,fragment) := by
      have whole : ParsedUrl.optional '?' (· = '#') (scan (fun c => c = '#' || c = '?') rest).2 = (query,tail) := asked
      simp only [ParsedUrl.readPath,whole,marked]
    refine pureRuns ⟨g'',block'',?_,holds⟩
    rw [contents'',contents',contents]
    exact parsed _ _ _ read
  · rename_i notEnd notPath
    refine failGood holds at_ (refused ?_)
    unfold ParsedUrl.readPath
    split
    · exact absurd rfl notEnd
    · exact absurd rfl (notPath _)
    · rfl

end Stages
end Rules
end Purl

namespace ParsedUrl

def member (u : ParsedUrl) : Member → Option (List Char)
  | .scheme => some u.scheme
  | .host => some u.host
  | .port => u.port
  | .path => u.path
  | .query => u.query
  | .fragment => u.fragment
  | .username => u.username
  | .password => u.password

end ParsedUrl

namespace Purl

theorem setNullRuns {h : Heap Nat Cell} {k : Nat} {bs : List (Block Nat Cell)} {block : Nat} (ms : List Member)
    {content : List (Option Cell)} (room : ∀ m ∈ ms, m.offset < content.length) (holds : Holds h k ((block,content) :: bs)) :
    Runs (setNull block ms) h fun _ h' =>
      Holds h' k ((block,ms.foldl (fun cells m => cells.set m.offset (some (.pointer none))) content) :: bs) := by
  induction ms generalizing h content with
  | nil => exact pureRuns holds
  | cons m ms ih =>
    obtain ⟨here,others⟩ := List.forall_mem_cons.mp room
    refine bindRuns (writeRuns here holds) fun _ h' written => ?_
    exact ih (fun n mem => by rw [List.length_set]; exact others n mem) written

theorem parseUrlGood (M : Allocator Nat) {url : List Char} (short : IntSized url) {h : Heap Nat Cell} {k : Nat}
    {frame : List (Block Nat Cell)} (holds : Holds h k frame) :
    Good (parseUrl M url) h k frame ((ParsedUrl.parse url).map fun u m => (u.member m).map cString) := by
  refine bindRuns (mallocRuns M Member.all.length holds) fun p h' allocated => ?_
  cases p with
  | none => exact pureRuns ⟨k+1,allocated,.inl (Nat.lt_succ_self k)⟩
  | some block =>
    refine bindRuns (setNullRuns Member.all (by decide) allocated) fun _ h₀ holds => ?_
    let f : Filled := ⟨block,fun _ => none⟩
    have empty : ∀ m, f.contents m = none := fun _ => rfl
    refine storeSchemeGood (f := f) rfl (empty _) holds short (fun refused => ?_)
      fun scheme rest atScheme short f₁ b₁ c₁ h₁ holds => ?_
    · rw [ParsedUrl.parse,refused]
      rfl
    rw [Purl.eatSlashes]
    cases atSlashes : ParsedUrl.eatSlashes rest with
    | none =>
      refine failGood holds b₁ ?_
      simp [ParsedUrl.parse,atScheme,atSlashes]
    | some rest' =>
      have slashes := ParsedUrl.slashesSource atSlashes
      rw [slashes] at short
      refine storeUserGood b₁ (by simp [c₁,empty]) (by simp [c₁,empty]) holds (shortParts (s := ['/','/']) short).2
        (fun refused => ?_) fun username password rest atUser short f₂ b₂ c₂ h₂ holds => ?_
      · simp [ParsedUrl.parse,atScheme,atSlashes,refused]
      refine storeHostGood b₂ (by simp [c₁,c₂,empty]) holds short (fun refused => ?_)
        fun host rest atHost short f₃ b₃ c₃ h₃ holds => ?_
      · simp [ParsedUrl.parse,atScheme,atSlashes,atUser,refused]
      refine storeOptionalGood b₃ (by simp [c₁,c₂,c₃,empty]) holds short fun port rest atPort short f₄ b₄ c₄ h₄ holds => ?_
      refine storePathGood b₄ (by simp [c₁,c₂,c₃,c₄,empty]) (by simp [c₁,c₂,c₃,c₄,empty]) (by simp [c₁,c₂,c₃,c₄,empty]) holds
        short (fun refused => ?_) fun path query fragment atPath => ?_
      · simp [ParsedUrl.parse,atScheme,atSlashes,atUser,atHost,atPort,refused]
      · simp only [ParsedUrl.parse,atScheme,atSlashes,atUser,atHost,atPort,atPath,bind,Option.bind_some,Option.map_some]
        refine congrArg some (funext fun m => ?_)
        rw [c₄,c₃,c₂,c₁]
        cases m <;> rfl

structure Returned (h h' : Heap Nat Cell) (purl : Nat) (u : ParsedUrl) : Prop where
  fresh : purl ∉ h.blocks.map Prod.fst
  content : ∃ pointers, (purl,pointers) ∈ h'.blocks ∧ pointers.length = Member.all.length ∧ ∀ m : Member,
    match u.member m with
    | none => pointers[m.offset]? = some (some (.pointer none))
    | some s => ∃ p, pointers[m.offset]? = some (some (.pointer (some p))) ∧ p ∉ h.blocks.map Prod.fst ∧ (p,cString s) ∈ h'.blocks

/- What is left when parse_url(url) has returned: all of its memory is given back, because a malloc()
failed or the text is no URL; or its members are those of the URL, and parsed_url_free() gives back
the rest. -/
def Leaves (url : List Char) (h : Heap Nat Cell) : Option Nat → Heap Nat Cell → Prop
  | none, h' => h'.blocks.Perm h.blocks ∧ (h.failures < h'.failures ∨ ParsedUrl.parse url = none)
  | some purl, h' => h'.failures = h.failures ∧ (∀ b ∈ h.blocks, b ∈ h'.blocks) ∧
      (∃ u, ParsedUrl.parse url = some u ∧ Returned h h' purl u) ∧
      Runs (parsedUrlFree (some purl)) h' fun _ h'' => h''.blocks.Perm h.blocks ∧ h''.failures = h.failures

theorem filledReturned {h h' : Heap Nat Cell} {k : Nat} {f : Filled} {u : ParsedUrl} (holds : Holds h' k (f.blocks ++ h.blocks))
    (contents : ∀ m, f.contents m = (u.member m).map cString) : Returned h h' f.block u := by
  have inside : ∀ b, b ∈ f.blocks → b ∈ h'.blocks := fun b mem => holds.blocks.mem_iff.mpr (List.mem_append_left _ mem)
  have fresh : ∀ b ∈ f.blocks, b.1 ∉ h.blocks.map Prod.fst := by
    intro b mem old
    have apart := holds.distinct
    rw [List.map_append,List.nodup_append] at apart
    exact apart.2.2 _ (List.mem_map_of_mem mem) _ old rfl
  refine ⟨fresh _ List.mem_cons_self,f.pointers,inside _ List.mem_cons_self,rfl,fun m => ?_⟩
  have content := contents m
  have pointer := f.pointersAt m
  cases given : u.member m with
  | none =>
    rw [given] at content
    rw [Filled.absentMember content] at pointer
    exact pointer
  | some s =>
    rw [given] at content
    obtain ⟨p,held⟩ := heldContents content
    rw [held] at pointer
    have own : (p,cString s) ∈ f.blocks :=
      List.mem_cons_of_mem _ (List.mem_filterMap.mpr ⟨m,by cases m <;> decide,held⟩)
    exact ⟨p,pointer,fresh _ own,inside _ own⟩

theorem parseUrlMemory (M : Allocator Nat) {url : List Char} (short : IntSized url) {h : Heap Nat Cell}
    (distinct : (h.blocks.map Prod.fst).Nodup) : Runs (parseUrl M url) h (Leaves url h) := by
  refine weaken (parseUrlGood M short ⟨.refl _,distinct,rfl⟩) fun r h' good => ?_
  cases r with
  | none =>
    obtain ⟨k,holds,cause⟩ := good
    exact ⟨holds.blocks,cause.imp (fun fails => holds.failures ▸ fails) fun refused => Option.map_eq_none_iff.mp refused.2⟩
  | some purl =>
    obtain ⟨f,rfl,same,holds⟩ := good
    obtain ⟨u,parsed,contents⟩ := Option.map_eq_some_iff.mp same
    exact ⟨holds.failures,fun b mem => holds.blocks.mem_iff.mpr (List.mem_append_right _ mem),
      ⟨u,parsed,filledReturned holds fun m => (congrFun contents m).symm⟩,
      weaken (parsedUrlFreeRuns holds) fun _ h'' freed => ⟨freed.blocks,freed.failures⟩⟩

def nextFree (live : List Nat) : Nat := live.max?.getD 0+1

theorem nextFreeFresh (live : List Nat) : nextFree live ∉ live :=
  fun mem => Nat.not_succ_le_self _ (List.le_max?_getD_of_mem mem)

def bounded (n : Nat) : Allocator Nat where
  malloc calls live _ := if calls < n then some (nextFree live) else none
  fresh := by
    intro calls live _ p found
    split at found <;> try contradiction
    cases Option.some.inj found
    exact nextFreeFresh live

theorem parseUrlMemoryBounded :
    ∃ r h', parseUrl (bounded 3) "tcp://host:1".toList ⟨0,0,[(7,[])]⟩ = .ok (r,h') ∧ (7,[]) ∈ h'.blocks := by
  have distinct : (([(7,[])] : List (Block Nat Cell)).map Prod.fst).Nodup := List.nodup_singleton 7
  have short : IntSized "tcp://host:1".toList := by
    unfold IntSized
    decide
  obtain ⟨r,h',ok,after⟩ := parseUrlMemory (bounded 3) short (h := ⟨0,0,[(7,[])]⟩) distinct
  refine ⟨r,h',ok,?_⟩
  cases r with
  | none => exact after.1.mem_iff.mpr List.mem_cons_self
  | some purl => exact after.2.1 _ List.mem_cons_self

section Connect
variable {h : Heap Nat Cell} {k : Nat} {frame : List (Block Nat Cell)} {f : Filled} {m : Member}

def text (purl : Nat) (m : Member) : Do (List Char) := do
  let p ← target purl m
  readUntil Cell.toChar '\x00' p

end Connect

end Purl

namespace Master
open Purl

end Master
end FmiTcpMaster
