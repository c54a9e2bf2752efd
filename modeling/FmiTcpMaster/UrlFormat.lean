import FmiTcpMaster.UrlParser

/-! The URLs that parse_url() reads, with all eight members: each part is read exactly where it is
written, so that a URL and what was read of it determine each other up to the case of the scheme. -/
namespace FmiTcpMaster.ParsedUrl
open Text

def writeOptional (d : Char) : Option (List Char) → List Char
  | none => []
  | some part => d :: part

structure Announced (d : Char) (ends : Char → Bool) (part : Option (List Char)) (rest : List Char) : Prop where
  clean : ∀ x ∈ part, ∀ c ∈ x, ends c = false
  stops : part.isSome = true → ∀ c ∈ rest.head?, ends c = true
  absent : part = none → ∀ c ∈ rest.head?, c ≠ d

theorem optionalExact {d : Char} {ends : Char → Bool} {s rest : List Char} {part : Option (List Char)} :
    optional d ends s = (part,rest) ↔ s = writeOptional d part ++ rest ∧ Announced d ends part rest := by
  constructor
  · intro read
    cases s with
    | nil =>
      obtain ⟨rfl,rfl⟩ := Prod.mk.inj read
      exact ⟨rfl,by simp,by simp,by simp⟩
    | cons c cs =>
      rw [optional] at read
      split at read
      · rename_i same
        subst same
        obtain ⟨rfl,rfl⟩ := Prod.mk.inj read
        have source := scanSource ends cs
        exact ⟨congrArg (c :: ·) source.joined,by simpa using source.clean,fun _ => source.stops,by simp⟩
      · rename_i other
        obtain ⟨rfl,rfl⟩ := Prod.mk.inj read
        exact ⟨rfl,by simp,by simp,by simpa using other⟩
  · rintro ⟨rfl,announced⟩
    cases part with
    | none =>
      cases rest with
      | nil => rfl
      | cons c cs => exact if_neg (announced.absent rfl c rfl)
    | some x =>
      have source : Scanned ends (x ++ rest) x rest := ⟨rfl,announced.clean x rfl,announced.stops rfl⟩
      show optional d ends (d :: (x ++ rest)) = _
      rw [optional,if_pos rfl,scanFromSource source]

theorem schemeExact {s scheme rest : List Char} : readScheme s = some (scheme,rest) ↔
    ∃ letters : List Char, letters.all isSchemeChar = true ∧ scheme = letters.map Char.toLower ∧
      s = letters ++ ':' :: rest := by
  constructor
  · intro read
    obtain ⟨letters,legal,rfl⟩ := schemeSource read
    rw [schemeFromSource legal] at read
    obtain ⟨rfl,_⟩ := Prod.mk.inj (Option.some.inj read)
    exact ⟨letters,legal,rfl,rfl⟩
  · rintro ⟨letters,legal,rfl,rfl⟩
    exact schemeFromSource legal

theorem slashesExact {s rest : List Char} : eatSlashes s = some rest ↔ s = '/' :: '/' :: rest :=
  ⟨slashesSource,fun same => by rw [same]; rfl⟩

def writeUser : Option (List Char) → Option (List Char) → List Char
  | some username, password => username ++ (writeOptional ':' password ++ ['@'])
  | none, _ => []

inductive UserPlain (rest : List Char) : Option (List Char) → Option (List Char) → Prop where
  | absent (clean : '@' ∉ rest.takeWhile (· ≠ '/')) : UserPlain rest none none
  | given {username password} (named : ∀ c ∈ username, c ≠ ':' ∧ c ≠ '@' ∧ c ≠ '/')
      (secret : ∀ x ∈ password, ∀ c ∈ x, c ≠ '@' ∧ c ≠ '/') : UserPlain rest (some username) password

theorem userWritten (rest : List Char) {username : List Char} {password : Option (List Char)}
    (named : ∀ c ∈ username, c ≠ ':' ∧ c ≠ '@' ∧ c ≠ '/') (secret : ∀ x ∈ password, ∀ c ∈ x, c ≠ '@' ∧ c ≠ '/') :
    readUser (username ++ (writeOptional ':' password ++ '@' :: rest)) = some (some username,password,rest) := by
  have whole : ∀ c ∈ username ++ writeOptional ':' password, c ≠ '@' ∧ c ≠ '/' := by
    refine List.forall_mem_append.mpr ⟨fun c mem => (named c mem).2,?_⟩
    cases password with
    | none => simp [writeOptional]
    | some x => exact List.forall_mem_cons.mpr ⟨by decide,secret x rfl⟩
  have flag : userpassFlag (username ++ (writeOptional ':' password ++ '@' :: rest)) = true := by
    have source : Scanned (fun c => c = '@' || c = '/') (username ++ (writeOptional ':' password ++ '@' :: rest))
        (username ++ writeOptional ':' password) ('@' :: rest) :=
      ⟨(List.append_assoc _ _ _).symm,fun c mem => by simp [whole c mem],by simp⟩
    simp [userpassFlag,scanFromSource source]
  have name : Scanned (fun c => c = ':' || c = '@') (username ++ (writeOptional ':' password ++ '@' :: rest)) username
      (writeOptional ':' password ++ '@' :: rest) := by
    refine ⟨rfl,fun c mem => by simp [named c mem],?_⟩
    cases password <;> simp [writeOptional]
  have word : optional ':' (· = '@') (writeOptional ':' password ++ '@' :: rest) = (password,'@' :: rest) :=
    optionalExact.mpr ⟨rfl,fun x mem c inside => by simp [secret x mem c inside],by simp,by simp⟩
  simp only [readUser,if_pos flag,scanFromSource name,word]

theorem userExact {s rest : List Char} {username password : Option (List Char)} :
    readUser s = some (username,password,rest) ↔ s = writeUser username password ++ rest ∧ UserPlain rest username password := by
  constructor
  · intro read
    cases flag : userpassFlag s with
    | true =>
      obtain ⟨user,rest',rfl,clean⟩ := userpassSource flag
      have source := scanSource (· = ':') user
      obtain ⟨⟨part,nothing⟩,cut⟩ : ∃ p, optional ':' (fun _ => false) (scan (· = ':') user).2 = p := ⟨_,rfl⟩
      obtain ⟨tail,announced⟩ := optionalExact.mp cut
      have empty : nothing = [] := by
        cases nothing with
        | nil => rfl
        | cons c cs =>
          cases part with
          | none =>
            rw [writeOptional,List.nil_append] at tail
            exact absurd (by simpa using source.stops c (by rw [tail]; rfl)) (announced.absent rfl c rfl)
          | some x => exact absurd (announced.stops rfl c rfl) (by simp)
      subst empty
      rw [List.append_nil] at tail
      have joined := source.joined
      rw [tail] at joined
      rw [joined,List.forall_mem_append] at clean
      have named : ∀ c ∈ (scan (· = ':') user).1, c ≠ ':' ∧ c ≠ '@' ∧ c ≠ '/' := fun c mem =>
        ⟨by simpa using source.clean c mem,clean.1 c mem⟩
      have secret : ∀ x ∈ part, ∀ c ∈ x, c ≠ '@' ∧ c ≠ '/' := by
        rintro x rfl c mem
        exact clean.2 c (List.mem_cons_of_mem _ mem)
      have written := userWritten rest' named secret
      rw [← List.append_assoc,← joined] at written
      obtain ⟨rfl,same⟩ := Prod.mk.inj (Option.some.inj (read.symm.trans written))
      obtain ⟨rfl,rfl⟩ := Prod.mk.inj same
      refine ⟨?_,.given named secret⟩
      rw [writeUser,← List.append_assoc,← joined]
      simp
    | false =>
      rw [readUser,flag] at read
      obtain ⟨rfl,same⟩ := Prod.mk.inj (Option.some.inj read)
      obtain ⟨rfl,rfl⟩ := Prod.mk.inj same
      exact ⟨rfl,.absent (userpassAbsent.mp flag)⟩
  · rintro ⟨rfl,plain⟩
    cases plain with
    | absent clean => simp [writeUser,readUser,userpassAbsent.mpr clean]
    | @given username password named secret =>
      have written := userWritten rest named secret
      rw [writeUser]
      simpa using written

/- A literal need not be closed: then it is all that is left of the URL. -/
inductive HostPlain (rest : List Char) : List Char → Prop where
  | name {host} (nonempty : host ≠ []) (plain : host.head? ≠ some '[') (clean : ∀ c ∈ host, c ≠ ':' ∧ c ≠ '/')
      (ends : ∀ c ∈ rest.head?, c = ':' ∨ c = '/') : HostPlain rest host
  | closed {inner} (clean : ']' ∉ inner) : HostPlain rest ('[' :: inner ++ [']'])
  | opened {inner} (clean : ']' ∉ inner) (last : rest = []) : HostPlain rest ('[' :: inner)

theorem literalScanned {inner : List Char} (clean : ']' ∉ inner) : ∀ c ∈ '[' :: inner, decide (c = ']') = false := by
  refine List.forall_mem_cons.mpr ⟨by decide,fun c mem => ?_⟩
  rw [decide_eq_false_iff_not]
  rintro rfl
  exact clean mem

theorem literalExact {s host rest : List Char} (bracket : s.head? = some '[') :
    readHost s = some (host,rest) ↔ s = host ++ rest ∧ HostPlain rest host := by
  constructor
  · intro read
    have source := scanSource (· = ']') s
    obtain ⟨tail,whole⟩ := List.head?_eq_some_iff.mp bracket
    obtain ⟨inner,first⟩ : ∃ inner, (scan (· = ']') s).1 = '[' :: inner := by
      subst whole
      exact ⟨_,by rw [scan,List.takeWhile_cons]; rfl⟩
    simp only [readHost,if_pos bracket] at read
    split at read <;> try contradiction
    obtain ⟨rfl,rfl⟩ := Prod.mk.inj (Option.some.inj read)
    have joined := source.joined
    rw [first] at joined ⊢
    have clean : ']' ∉ inner := by
      intro mem
      have inside := source.clean ']' (by rw [first]; exact List.mem_cons_of_mem _ mem)
      simp at inside
    cases remaining : (scan (· = ']') s).2 with
    | nil => exact ⟨by simpa [remaining] using joined,.opened (by simpa using clean) rfl⟩
    | cons c cs =>
      have close : c = ']' := by simpa using source.stops c (by rw [remaining]; rfl)
      subst close
      refine ⟨by simpa [remaining] using joined,?_⟩
      exact .closed clean
  · rintro ⟨rfl,plain⟩
    rw [readHost,if_pos bracket]
    cases plain with
    | name nonempty other =>
      rw [List.head?_append] at bracket
      cases host with
      | nil => exact absurd rfl nonempty
      | cons c cs => exact absurd bracket other
    | @closed inner clean =>
      have source : Scanned (· = ']') ('[' :: inner ++ [']'] ++ rest) ('[' :: inner) (']' :: rest) :=
        ⟨by simp,literalScanned clean,by simp⟩
      rw [scanFromSource source]
      simp
    | @opened inner clean last =>
      subst last
      have source : Scanned (· = ']') ('[' :: inner ++ []) ('[' :: inner) [] := ⟨rfl,literalScanned clean,by simp⟩
      rw [scanFromSource source]
      simp

theorem nameExact {s host rest : List Char} (bracket : s.head? ≠ some '[') :
    readHost s = some (host,rest) ↔ s = host ++ rest ∧ HostPlain rest host := by
  constructor
  · intro read
    have source := scanSource (fun c => c = ':' || c = '/') s
    simp only [readHost,if_neg bracket] at read
    split at read <;> try contradiction
    rename_i nonempty
    obtain ⟨rfl,rfl⟩ := Prod.mk.inj (Option.some.inj read)
    refine ⟨source.joined,.name nonempty (fun plain => bracket ?_) (fun c mem => by simpa using source.clean c mem)
      fun c mem => by simpa using source.stops c mem⟩
    rw [source.joined,List.head?_append,plain]
    rfl
  · rintro ⟨rfl,plain⟩
    cases plain with
    | name nonempty _ clean ends =>
      have source : Scanned (fun c => c = ':' || c = '/') (host ++ rest) host rest :=
        ⟨rfl,fun c mem => by simp [clean c mem],fun c mem => by simpa using ends c mem⟩
      rw [readHost,if_neg bracket,scanFromSource source]
      exact if_neg nonempty
    | closed => exact absurd rfl bracket
    | opened => exact absurd rfl bracket

theorem hostExact {s host rest : List Char} : readHost s = some (host,rest) ↔ s = host ++ rest ∧ HostPlain rest host := by
  by_cases bracket : s.head? = some '['
  · exact literalExact bracket
  · exact nameExact bracket

def writePath : Option (List Char) → Option (List Char) → Option (List Char) → List Char
  | some path, query, fragment => '/' :: (path ++ (writeOptional '?' query ++ writeOptional '#' fragment))
  | none, _, _ => []

inductive PathPlain : Option (List Char) → Option (List Char) → Option (List Char) → Prop where
  | absent : PathPlain none none none
  | given {path query fragment} (clean : ∀ c ∈ path, c ≠ '#' ∧ c ≠ '?') (asked : ∀ x ∈ query, '#' ∉ x) :
      PathPlain (some path) query fragment

theorem fragmentExact {s : List Char} {fragment : Option (List Char)} (stops : ∀ c ∈ s.head?, c = '#') :
    (optional '#' (fun _ => false) s).1 = fragment ↔ s = writeOptional '#' fragment := by
  obtain ⟨⟨part,rest⟩,read⟩ : ∃ p, optional '#' (fun _ => false) s = p := ⟨_,rfl⟩
  obtain ⟨written,announced⟩ := optionalExact.mp read
  have empty : rest = [] := by
    cases rest with
    | nil => rfl
    | cons c cs =>
      cases part with
      | none =>
        rw [writeOptional,List.nil_append] at written
        exact absurd (stops c (by rw [written]; rfl)) (announced.absent rfl c rfl)
      | some x => exact absurd (announced.stops rfl c rfl) (by simp)
  rw [empty,List.append_nil] at written
  rw [read,written]
  cases part <;> cases fragment <;> simp [writeOptional]

theorem pathExact {s : List Char} {path query fragment : Option (List Char)} :
    readPath s = some (path,query,fragment) ↔ s = writePath path query fragment ∧ PathPlain path query fragment := by
  constructor
  · intro read
    cases s with
    | nil =>
      obtain ⟨rfl,same⟩ := Prod.mk.inj (Option.some.inj read)
      obtain ⟨rfl,rfl⟩ := Prod.mk.inj same
      exact ⟨rfl,.absent⟩
    | cons c rest =>
      cases pathSource read c rfl
      have source := scanSource (fun c => c = '#' || c = '?') rest
      obtain ⟨⟨part,last⟩,cut⟩ : ∃ p, optional '?' (· = '#') (scan (fun c => c = '#' || c = '?') rest).2 = p := ⟨_,rfl⟩
      obtain ⟨tail,announced⟩ := optionalExact.mp cut
      have stops : ∀ c ∈ last.head?, c = '#' := by
        intro c mem
        cases part with
        | none =>
          have either : c = '#' ∨ c = '?' := by
            rw [writeOptional,List.nil_append] at tail
            simpa using source.stops c (by rw [tail]; exact mem)
          exact either.resolve_right (announced.absent rfl c mem)
        | some x => simpa using announced.stops rfl c mem
      have form : readPath ('/' :: rest) = some (some (scan (fun c => c = '#' || c = '?') rest).1,part,
          (optional '#' (fun _ => false) last).1) := by
        simp only [readPath,cut]
      obtain ⟨rfl,same⟩ := Prod.mk.inj (Option.some.inj (form.symm.trans read))
      obtain ⟨rfl,ended⟩ := Prod.mk.inj same
      have written := (fragmentExact stops).mp ended
      refine ⟨?_,.given (fun c mem => by simpa using source.clean c mem) ?_⟩
      · rw [writePath,← written,← tail,← source.joined]
      · intro x mem inside
        simpa using announced.clean x mem '#' inside
  · rintro ⟨rfl,plain⟩
    cases plain with
    | absent => rfl
    | @given path query fragment clean asked =>
      have source : Scanned (fun c => c = '#' || c = '?') (path ++ (writeOptional '?' query ++ writeOptional '#' fragment))
          path (writeOptional '?' query ++ writeOptional '#' fragment) := by
        refine ⟨rfl,fun c mem => by simp [clean c mem],?_⟩
        cases query <;> cases fragment <;> simp [writeOptional]
      have cut : optional '?' (· = '#') (writeOptional '?' query ++ writeOptional '#' fragment) =
          (query,writeOptional '#' fragment) := by
        refine optionalExact.mpr ⟨rfl,fun x mem c inside => ?_,?_,?_⟩
        · rw [decide_eq_false_iff_not]
          rintro rfl
          exact asked x mem inside
        · cases fragment <;> simp [writeOptional]
        · cases fragment <;> simp [writeOptional]
      have last : (optional '#' (fun _ => false) (writeOptional '#' fragment)).1 = fragment :=
        (fragmentExact (by cases fragment <;> simp [writeOptional])).mpr rfl
      simp only [writePath,readPath,scanFromSource source,cut,last]

def writePort (u : ParsedUrl) : List Char := writeOptional ':' u.port ++ writePath u.path u.query u.fragment

def write (letters : List Char) (u : ParsedUrl) : List Char :=
  letters ++ ':' :: '/' :: '/' :: (writeUser u.username u.password ++ (u.host ++ u.writePort))

structure Plain (u : ParsedUrl) : Prop where
  user : UserPlain (u.host ++ u.writePort) u.username u.password
  host : HostPlain u.writePort u.host
  port : ∀ x ∈ u.port, '/' ∉ x
  path : PathPlain u.path u.query u.fragment

theorem pathStarts {path query fragment : Option (List Char)} : ∀ c ∈ (writePath path query fragment).head?, c = '/' := by
  cases path <;> simp [writePath]

theorem portExact {s rest : List Char} {port : Option (List Char)} (starts : ∀ c ∈ rest.head?, c = '/') :
    optional ':' (· = '/') s = (port,rest) ↔ s = writeOptional ':' port ++ rest ∧ ∀ x ∈ port, '/' ∉ x := by
  refine optionalExact.trans (and_congr_right fun _ => ⟨fun announced x mem inside => ?_,fun clean => ⟨?_,?_,?_⟩⟩)
  · simpa using announced.clean x mem '/' inside
  · intro x mem c inside
    rw [decide_eq_false_iff_not]
    rintro rfl
    exact clean x mem inside
  · exact fun _ c mem => decide_eq_true (starts c mem)
  · rintro _ c mem rfl
    exact absurd (starts ':' mem) (by decide)

/- parse_url() succeeds on the URLs that are written from plain members, and returns these members
with the scheme in lower case. -/
theorem parseExact {uri : List Char} {u : ParsedUrl} : parse uri = some u ↔ u.Plain ∧
    ∃ letters : List Char, letters.all isSchemeChar = true ∧ u.scheme = letters.map Char.toLower ∧ uri = u.write letters := by
  constructor
  · intro ok
    simp only [parse,bind,Option.bind_eq_some_iff] at ok
    obtain ⟨⟨scheme,rest⟩,atScheme,rest',atSlashes,⟨username,password,authority⟩,atUser,⟨host,after⟩,atHost,
      ⟨path,query,fragment⟩,atPath,last⟩ := ok
    cases Option.some.inj last
    obtain ⟨⟨port,tail⟩,atPort⟩ : ∃ p, optional ':' (· = '/') after = p := ⟨_,rfl⟩
    rw [atPort] at atPath
    obtain ⟨letters,legal,rfl,rfl⟩ := schemeExact.mp atScheme
    cases slashesExact.mp atSlashes
    obtain ⟨rfl,user⟩ := userExact.mp atUser
    obtain ⟨rfl,named⟩ := hostExact.mp atHost
    obtain ⟨rfl,pathPlain⟩ := pathExact.mp atPath
    obtain ⟨rfl,clean⟩ := (portExact pathStarts).mp atPort
    simp only [atPort]
    exact ⟨⟨user,named,clean,pathPlain⟩,letters,legal,rfl,rfl⟩
  · rintro ⟨plain,letters,legal,lower,rfl⟩
    have atUser := userExact.mpr ⟨rfl,plain.user⟩
    have atHost := hostExact.mpr ⟨rfl,plain.host⟩
    have atPort : optional ':' (· = '/') u.writePort = (u.port,writePath u.path u.query u.fragment) :=
      (portExact pathStarts).mpr ⟨rfl,plain.port⟩
    have atPath := pathExact.mpr ⟨rfl,plain.path⟩
    simp only [parse,write,schemeFromSource legal,eatSlashes,atUser,atHost,atPort,atPath,bind,Option.bind_some,← lower]

end FmiTcpMaster.ParsedUrl
