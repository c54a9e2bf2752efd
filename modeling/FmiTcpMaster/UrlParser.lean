import FmiTcpMaster.Text

/-! url_parser.c, read as one step for each part of a URL, and the URLs that name a host and a
port to it. malloc() is taken to succeed, and a text to have fewer than 2^31-1 characters, so that
`int len` holds the length of each of its parts. -/
namespace FmiTcpMaster
open Text

structure ParsedUrl where
  scheme : List Char
  host : List Char
  port : Option (List Char)
  path : Option (List Char)
  query : Option (List Char)
  fragment : Option (List Char)
  username : Option (List Char)
  password : Option (List Char)
  deriving DecidableEq, Repr

namespace ParsedUrl

def isSchemeChar (c : Char) : Bool := c.isAlpha || c = '+' || c = '-' || c = '.'

def readScheme (url : List Char) : Option (List Char × List Char) :=
  match scan (· = ':') url with
  | (scheme,_ :: rest) => if scheme.all isSchemeChar then some (scheme.map Char.toLower,rest) else none
  | (_,[]) => none

def eatSlashes : List Char → Option (List Char)
  | '/' :: '/' :: rest => some rest
  | _ => none

def optional (d : Char) (ends : Char → Bool) : List Char → Option (List Char) × List Char
  | [] => (none,[])
  | c :: rest => if c = d then ((scan ends rest).1,(scan ends rest).2) else (none,c :: rest)

def userpassFlag (rest : List Char) : Bool := (scan (fun c => c = '@' || c = '/') rest).2.head? = some '@'

def readUser (rest : List Char) : Option (Option (List Char) × Option (List Char) × List Char) :=
  if userpassFlag rest then
    let (username,rest) := scan (fun c => c = ':' || c = '@') rest
    let (password,rest) := optional ':' (· = '@') rest
    match rest with
    | '@' :: rest => some (some username,password,rest)
    | _ => none
  else some (none,none,rest)

def readHost (rest : List Char) : Option (List Char × List Char) :=
  let (host,rest) :=
    if rest.head? = some '[' then
      let (inner,rest) := scan (· = ']') rest
      (inner ++ rest.take 1,rest.drop 1)
    else scan (fun c => c = ':' || c = '/') rest
  if host = [] then none else some (host,rest)

def readPath : List Char → Option (Option (List Char) × Option (List Char) × Option (List Char))
  | [] => some (none,none,none)
  | '/' :: rest =>
    let (path,rest) := scan (fun c => c = '#' || c = '?') rest
    let (query,rest) := optional '?' (· = '#') rest
    some (path,query,(optional '#' (fun _ => false) rest).1)
  | _ => none

def parse (url : List Char) : Option ParsedUrl := do
  let (scheme,rest) ← readScheme url
  let rest ← eatSlashes rest
  let (username,password,rest) ← readUser rest
  let (host,rest) ← readHost rest
  let (port,rest) := optional ':' (· = '/') rest
  let (path,query,fragment) ← readPath rest
  some ⟨scheme,host,port,path,query,fragment,username,password⟩

inductive Userinfo : List Char → List Char → Prop where
  | given {user rest} (clean : ∀ c ∈ user, c ≠ '@' ∧ c ≠ '/') : Userinfo (user ++ ['@']) rest
  | absent {rest} (clean : '@' ∉ rest.takeWhile (· ≠ '/')) : Userinfo [] rest

inductive Host : List Char → Prop where
  | name {host} (nonempty : host ≠ []) (plain : host.head? ≠ some '[') (clean : ∀ c ∈ host, c ≠ ':' ∧ c ≠ '/') :
      Host host
  | literal {inner} (clean : ']' ∉ inner) : Host ('[' :: inner ++ [']'])

inductive Names : List Char → List Char → List Char → Prop where
  | url {scheme info host port tail} (letters : scheme.all isSchemeChar = true)
      (user : Userinfo info (host ++ ':' :: (port ++ tail))) (named : Host host) (clean : '/' ∉ port)
      (ends : ∀ c ∈ tail.head?, c = '/') :
      Names (scheme ++ ':' :: '/' :: '/' :: (info ++ (host ++ ':' :: (port ++ tail)))) host port

theorem schemeSource {url scheme rest : List Char} (ok : readScheme url = some (scheme,rest)) :
    ∃ letters : List Char, letters.all isSchemeChar = true ∧ url = letters ++ ':' :: rest := by
  have source := scanSource (· = ':') url
  unfold readScheme at ok
  split at ok <;> try contradiction
  rename_i letters c rest' same
  rw [same] at source
  split at ok <;> try contradiction
  rename_i legal
  cases Option.some.inj ok
  have colon : c = ':' := by simpa using source.stops c rfl
  exact ⟨letters,legal,colon ▸ source.joined⟩

theorem schemeFromSource {letters rest : List Char} (legal : letters.all isSchemeChar = true) :
    readScheme (letters ++ ':' :: rest) = some (letters.map Char.toLower,rest) := by
  have source : Scanned (· = ':') (letters ++ ':' :: rest) letters (':' :: rest) := by
    refine ⟨rfl,?_,by simp⟩
    intro c mem
    have inside := List.all_eq_true.mp legal c mem
    rw [decide_eq_false_iff_not]
    rintro rfl
    exact absurd inside (by decide)
  rw [readScheme,scanFromSource source]
  exact if_pos legal

theorem slashesSource {url rest : List Char} (ok : eatSlashes url = some rest) : url = '/' :: '/' :: rest := by
  unfold eatSlashes at ok
  split at ok <;> try contradiction
  cases Option.some.inj ok
  rfl

theorem userpassSource {s : List Char} (flag : userpassFlag s = true) :
    ∃ user rest, s = user ++ '@' :: rest ∧ ∀ c ∈ user, c ≠ '@' ∧ c ≠ '/' := by
  have source := scanSource (fun c => c = '@' || c = '/') s
  have first : (scan (fun c => c = '@' || c = '/') s).2.head? = some '@' := by simpa [userpassFlag] using flag
  obtain ⟨rest,same⟩ := List.head?_eq_some_iff.mp first
  refine ⟨_,rest,same ▸ source.joined,fun c mem => ?_⟩
  simpa using source.clean c mem

theorem userpassAbsent {s : List Char} : userpassFlag s = false ↔ '@' ∉ s.takeWhile (· ≠ '/') := by
  induction s with
  | nil => simp [userpassFlag,scan]
  | cons c cs ih =>
    by_cases slash : c = '/'
    · subst slash
      simp [userpassFlag,scan]
    · by_cases user : c = '@'
      · subst user
        simp [userpassFlag,scan]
      · have next : userpassFlag (c :: cs) = userpassFlag cs := by simp [userpassFlag,scan,slash,user]
        rw [next,ih]
        simp [slash,Ne.symm user]

theorem userGiven {user : List Char} (rest : List Char) (clean : ∀ c ∈ user, c ≠ '@' ∧ c ≠ '/') :
    ∃ username password, readUser (user ++ '@' :: rest) = some (username,password,rest) := by
  have flag : userpassFlag (user ++ '@' :: rest) = true := by
    have source : Scanned (fun c => c = '@' || c = '/') (user ++ '@' :: rest) user ('@' :: rest) :=
      ⟨rfl,fun c mem => by simp [clean c mem],by simp⟩
    simp [userpassFlag,scanFromSource source]
  obtain ⟨name,tail,joined,plain,stops⟩ : ∃ name tail, user = name ++ tail ∧ (∀ c ∈ name, (c = ':') = False) ∧
      ∀ c ∈ tail.head?, c = ':' := by
    have source := scanSource (· = ':') user
    exact ⟨_,_,source.joined,fun c mem => by simpa using source.clean c mem,fun c mem => by simpa using source.stops c mem⟩
  subst joined
  have named : Scanned (fun c => c = ':' || c = '@') (name ++ (tail ++ '@' :: rest)) name (tail ++ '@' :: rest) := by
    refine ⟨rfl,fun c mem => by simp [plain c mem,clean c (List.mem_append_left _ mem)],?_⟩
    cases tail with
    | nil => simp
    | cons c cs => simp [stops c rfl]
  rw [List.append_assoc] at flag ⊢
  rw [readUser,if_pos flag,scanFromSource named]
  cases tail with
  | nil => exact ⟨some name,none,by simp [optional]⟩
  | cons c word =>
    cases stops c rfl
    have secret : Scanned (· = '@') (word ++ '@' :: rest) word ('@' :: rest) := by
      refine ⟨rfl,fun c mem => ?_,by simp⟩
      simpa using (clean c (List.mem_append_right _ (List.mem_cons_of_mem _ mem))).1
    exact ⟨some name,some word,by simp [optional,scanFromSource secret]⟩

theorem userSource {s rest : List Char} {username password : Option (List Char)}
    (ok : readUser s = some (username,password,rest)) : ∃ info, s = info ++ rest ∧ Userinfo info rest := by
  cases flag : userpassFlag s with
  | true =>
    obtain ⟨user,rest',rfl,clean⟩ := userpassSource flag
    obtain ⟨_,_,given⟩ := userGiven rest' clean
    cases Option.some.inj (ok.symm.trans given)
    exact ⟨user ++ ['@'],by simp,.given clean⟩
  | false =>
    rw [readUser,flag] at ok
    cases Option.some.inj ok
    exact ⟨[],rfl,.absent (userpassAbsent.mp flag)⟩

theorem userFromSource {info rest : List Char} (user : Userinfo info rest) :
    ∃ username password, readUser (info ++ rest) = some (username,password,rest) := by
  cases user with
  | @given user rest clean =>
    obtain ⟨username,password,ok⟩ := userGiven rest clean
    exact ⟨username,password,by simpa using ok⟩
  | absent clean => exact ⟨none,none,by simp [readUser,userpassAbsent.mpr clean]⟩

theorem literalSource {s host rest : List Char} (bracket : s.head? = some '[')
    (ok : readHost s = some (host,':' :: rest)) : s = host ++ ':' :: rest ∧ Host host := by
  have source := scanSource (· = ']') s
  simp only [readHost,if_pos bracket] at ok
  split at ok <;> try contradiction
  obtain ⟨named,after⟩ := Prod.mk.inj (Option.some.inj ok)
  cases remaining : (scan (· = ']') s).2 with
  | nil => simp [remaining] at after
  | cons c cs =>
    simp only [remaining,List.take_succ_cons,List.take_zero,List.drop_succ_cons,List.drop_zero] at named after
    have joined := source.joined
    have close : c = ']' := by simpa using source.stops c (by simp [remaining])
    rw [remaining,close,after] at joined
    cases opened : (scan (· = ']') s).1 with
    | nil =>
      rw [joined,opened] at bracket
      simp at bracket
    | cons b inner =>
      rw [joined,opened] at bracket
      have first : b = '[' := by simpa using bracket
      subst first
      rw [opened,close] at named
      refine ⟨by rw [joined,opened,← named]; simp,?_⟩
      rw [← named]
      refine .literal fun mem => ?_
      have clean := source.clean ']' (by rw [opened]; exact List.mem_cons_of_mem _ mem)
      simp at clean

theorem nameSource {s host rest : List Char} (bracket : s.head? ≠ some '[')
    (ok : readHost s = some (host,':' :: rest)) : s = host ++ ':' :: rest ∧ Host host := by
  have source := scanSource (fun c => c = ':' || c = '/') s
  simp only [readHost,if_neg bracket] at ok
  split at ok <;> try contradiction
  rename_i nonempty
  obtain ⟨rfl,after⟩ := Prod.mk.inj (Option.some.inj ok)
  have joined := source.joined
  rw [after] at joined
  refine ⟨joined,.name nonempty ?_ fun c mem => by simpa using source.clean c mem⟩
  rw [joined,List.head?_append] at bracket
  intro plain
  exact bracket (by rw [plain]; rfl)

theorem hostSource {s host rest : List Char} (ok : readHost s = some (host,':' :: rest)) :
    s = host ++ ':' :: rest ∧ Host host := by
  by_cases bracket : s.head? = some '['
  · exact literalSource bracket ok
  · exact nameSource bracket ok

theorem hostFromSource {host : List Char} (rest : List Char) (named : Host host) :
    readHost (host ++ ':' :: rest) = some (host,':' :: rest) := by
  cases named with
  | name nonempty plain clean =>
    have source : Scanned (fun c => c = ':' || c = '/') (host ++ ':' :: rest) host (':' :: rest) :=
      ⟨rfl,fun c mem => by simp [clean c mem],by simp⟩
    have bracket : (host ++ ':' :: rest).head? ≠ some '[' := by
      cases host with
      | nil => exact absurd rfl nonempty
      | cons c cs => exact plain
    simp only [readHost,if_neg bracket,scanFromSource source,if_neg nonempty]
  | @literal inner clean =>
    have source : Scanned (· = ']') ('[' :: inner ++ [']'] ++ ':' :: rest) ('[' :: inner) (']' :: ':' :: rest) := by
      refine ⟨by simp,fun c mem => ?_,by simp⟩
      rw [decide_eq_false_iff_not]
      rintro rfl
      rcases List.mem_cons.mp mem with same | inside
      · exact absurd same (by decide)
      · exact clean inside
    have bracket : ('[' :: inner ++ [']'] ++ ':' :: rest).head? = some '[' := rfl
    simp only [readHost,if_pos bracket,scanFromSource source]
    simp

theorem pathSource {tail : List Char} {parts} (ok : readPath tail = some parts) : ∀ c ∈ tail.head?, c = '/' := by
  unfold readPath at ok
  split at ok
  · simp
  · simp
  · contradiction

theorem pathFromSource {tail : List Char} (ends : ∀ c ∈ tail.head?, c = '/') : ∃ parts, readPath tail = some parts := by
  cases tail with
  | nil => exact ⟨_,rfl⟩
  | cons c cs =>
    cases ends c rfl
    exact ⟨_,rfl⟩

theorem parseNames {uri port : List Char} {u : ParsedUrl} (ok : parse uri = some u) (given : u.port = some port) :
    Names uri u.host port := by
  simp only [parse,bind,Option.bind_eq_some_iff] at ok
  obtain ⟨⟨scheme,rest⟩,atScheme,rest',atSlashes,⟨username,password,authority⟩,atUser,⟨host,after⟩,atHost,⟨path,query,fragment⟩,atPath,last⟩ := ok
  cases Option.some.inj last
  obtain ⟨letters,legal,rfl⟩ := schemeSource atScheme
  cases slashesSource atSlashes
  obtain ⟨info,rfl,user⟩ := userSource atUser
  cases after with
  | nil => simp [optional] at given
  | cons c rest =>
    by_cases colon : c = ':'
    · subst colon
      obtain ⟨rfl,named⟩ := hostSource atHost
      have source := scanSource (· = '/') rest
      simp only [optional,if_pos] at given atPath
      cases Option.some.inj given
      rw [source.joined] at user
      have names := Names.url legal user named (fun mem => by simpa using source.clean '/' mem) (pathSource atPath)
      rwa [← source.joined] at names
    · simp [optional,colon] at given

theorem namesParse {uri host port : List Char} (names : Names uri host port) :
    ∃ u, parse uri = some u ∧ u.host = host ∧ u.port = some port := by
  cases names with
  | @url scheme info _ _ tail letters user named clean ends =>
    obtain ⟨username,password,atUser⟩ := userFromSource user
    obtain ⟨⟨path,query,fragment⟩,atPath⟩ := pathFromSource ends
    have source : Scanned (· = '/') (port ++ tail) port tail := by
      refine ⟨rfl,fun c mem => ?_,fun c mem => by simp [ends c mem]⟩
      rw [decide_eq_false_iff_not]
      rintro rfl
      exact clean mem
    refine ⟨⟨scheme.map Char.toLower,host,some port,path,query,fragment,username,password⟩,?_,rfl,rfl⟩
    simp only [parse,schemeFromSource letters,eatSlashes,atUser,hostFromSource _ named,optional,scanFromSource source,
      atPath,if_pos,bind,Option.bind_some]

theorem namesExact {uri host port : List Char} :
    (∃ u, parse uri = some u ∧ u.host = host ∧ u.port = some port) ↔ Names uri host port := by
  constructor
  · rintro ⟨u,ok,rfl,given⟩
    exact parseNames ok given
  · exact namesParse

example : (parse "tcp://me:pw@[::1]:3000/run?x#y".toList).map (fun u => (String.ofList u.host,u.port.map String.ofList)) =
    some ("[::1]",some "3000") := by decide

end ParsedUrl
end FmiTcpMaster
