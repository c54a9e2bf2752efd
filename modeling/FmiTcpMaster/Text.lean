import Mathlib.Data.List.Basic
import Mathlib.Data.List.TakeWhile
import Mathlib.Data.Int.Order.Basic

/-! Text as C and C++ programs read it: items cut off at a delimiter, numbers at the beginning
of a text, and a list of words walked by an index that the body may advance. -/
namespace Text

section Items
variable {delim : Char}

def itemsFrom (delim : Char) : List Char → List Char → List (List Char)
  | item, [] => if item = [] then [] else [item]
  | item, c :: cs => if c = delim then item :: itemsFrom delim [] cs else itemsFrom delim (item ++ [c]) cs

/- What getline(stream,item,delim) reads until it fails: what follows the last delimiter counts
unless it is empty. -/
def items (delim : Char) (s : List Char) : List (List Char) := itemsFrom delim [] s

theorem itemsClean {x : List Char} (clean : delim ∉ x) (item rest : List Char) :
    itemsFrom delim item (x ++ rest) = itemsFrom delim (item ++ x) rest := by
  induction x generalizing item with
  | nil => simp
  | cons c cs ih =>
    rw [List.mem_cons,not_or] at clean
    rw [List.cons_append,itemsFrom,if_neg (Ne.symm clean.1),ih clean.2]
    simp

theorem itemsLast {x : List Char} (clean : delim ∉ x) (some : x ≠ []) : items delim x = [x] := by
  have all := itemsClean clean [] []
  rw [List.append_nil,List.nil_append] at all
  rw [items,all,itemsFrom,if_neg some]

theorem itemsNext {x : List Char} (clean : delim ∉ x) (rest : List Char) :
    items delim (x ++ delim :: rest) = x :: items delim rest := by
  rw [items,itemsClean clean,itemsFrom,if_pos rfl,List.nil_append,items]

theorem itemsJoined {xs : List (List Char)} (clean : ∀ x ∈ xs, delim ∉ x) (some : ∀ x ∈ xs, x ≠ []) :
    items delim (List.intercalate [delim] xs) = xs := by
  induction xs with
  | nil => rfl
  | cons x xs ih =>
    have first := clean x List.mem_cons_self
    cases xs with
    | nil => rw [List.intercalate_singleton,itemsLast first (some x List.mem_cons_self)]
    | cons y ys =>
      rw [List.intercalate_cons_cons,List.append_assoc,List.singleton_append,itemsNext first,
        ih (fun z mem => clean z (List.mem_cons_of_mem _ mem)) fun z mem => some z (List.mem_cons_of_mem _ mem)]

theorem memJoined {c : Char} {xs : List (List Char)} (other : c ≠ delim) (absent : ∀ x ∈ xs, c ∉ x) :
    c ∉ List.intercalate [delim] xs := by
  induction xs with
  | nil => exact List.not_mem_nil
  | cons x xs ih =>
    have rest := ih fun y mem => absent y (List.mem_cons_of_mem _ mem)
    cases xs with
    | nil =>
      rw [List.intercalate_singleton]
      exact absent x List.mem_cons_self
    | cons y ys =>
      rw [List.intercalate_cons_cons]
      simp only [List.mem_append,List.mem_singleton,not_or]
      exact ⟨⟨absent x List.mem_cons_self,other⟩,rest⟩

theorem joinedSome {x : List Char} {xs : List (List Char)} (some : x ≠ []) : List.intercalate [delim] (x :: xs) ≠ [] := by
  cases xs with
  | nil => rwa [List.intercalate_singleton]
  | cons y ys => simp [List.intercalate_cons_cons]

inductive Lines (delim : Char) : List Char → List (List Char) → Prop where
  | done : Lines delim [] []
  | last {x} (some : x ≠ []) (clean : delim ∉ x) : Lines delim x [x]
  | next {x s xs} (clean : delim ∉ x) (rest : Lines delim s xs) : Lines delim (x ++ delim :: s) (x :: xs)

theorem linesFrom {item : List Char} (clean : delim ∉ item) (s : List Char) :
    Lines delim (item ++ s) (itemsFrom delim item s) := by
  induction s generalizing item with
  | nil =>
    rw [itemsFrom,List.append_nil]
    split
    · rename_i empty
      rw [empty]
      exact .done
    · rename_i some
      exact .last some clean
  | cons c cs ih =>
    rw [itemsFrom]
    split
    · rename_i same
      rw [same]
      exact .next clean (ih List.not_mem_nil)
    · rename_i other
      rw [List.append_cons]
      exact ih (by simpa using ⟨clean,Ne.symm other⟩)

theorem itemsExact {s : List Char} {xs : List (List Char)} : items delim s = xs ↔ Lines delim s xs := by
  constructor
  · rintro rfl
    exact linesFrom List.not_mem_nil s
  · intro lines
    induction lines with
    | done => rfl
    | last some clean => exact itemsLast clean some
    | next clean _ ih => rw [itemsNext clean,ih]

end Items

section Scans
variable {ends : Char → Bool}

/- while('\0' != *p && !ends(*p)) p++: the text passed over and the text at the cursor. -/
def scan (ends : Char → Bool) (s : List Char) : List Char × List Char :=
  (s.takeWhile fun c => !ends c,s.dropWhile fun c => !ends c)

structure Scanned (ends : Char → Bool) (s passed rest : List Char) : Prop where
  joined : s = passed ++ rest
  clean : ∀ c ∈ passed, ends c = false
  stops : ∀ c ∈ rest.head?, ends c = true

theorem scanSource (ends : Char → Bool) (s : List Char) : Scanned ends s (scan ends s).1 (scan ends s).2 := by
  refine ⟨List.takeWhile_append_dropWhile.symm,?_,?_⟩
  · intro c mem
    simpa using List.mem_takeWhile_imp mem
  · intro c mem
    have first := List.head?_dropWhile_not (fun c => !ends c) s
    simp only [scan] at mem
    rw [Option.mem_def.mp mem] at first
    simpa using first

theorem scanFromSource {s passed rest : List Char} (source : Scanned ends s passed rest) : scan ends s = (passed,rest) := by
  have inside : ∀ c ∈ passed, (!ends c) = true := fun c mem => by simp [source.clean c mem]
  have stop : rest.takeWhile (fun c => !ends c) = [] ∧ rest.dropWhile (fun c => !ends c) = rest := by
    cases rest with
    | nil => exact ⟨rfl,rfl⟩
    | cons c cs => simp [source.stops c rfl]
  rw [scan,source.joined,List.takeWhile_append_of_pos inside,List.dropWhile_append_of_pos inside,stop.1,stop.2,
    List.append_nil]

end Scans

section Numbers

def isSpace (c : Char) : Bool := c = ' ' || c = '\t' || c = '\n' || c = '\x0b' || c = '\x0c' || c = '\r'

def value (s : List Char) : Nat := Nat.ofDigitChars 10 s 0

structure Numeral (s : List Char) : Prop where
  some : s ≠ []
  digits : ∀ c ∈ s, c.isDigit = true

instance (s : List Char) : Decidable (Numeral s) :=
  decidable_of_iff (s ≠ [] ∧ s.all Char.isDigit = true)
    ⟨fun h => ⟨h.1,List.all_eq_true.mp h.2⟩,fun h => ⟨h.some,List.all_eq_true.mpr h.digits⟩⟩

def sign : List Char → Bool × List Char
  | '-' :: s => (true,s)
  | '+' :: s => (false,s)
  | s => (false,s)

def signed (negative : Bool) (n : Nat) : Int := if negative then -n else n

def leading (s : List Char) : Option Int :=
  let (negative,s) := sign (s.dropWhile isSpace)
  match s.takeWhile Char.isDigit with
  | [] => none
  | digits => some (signed negative (value digits))

theorem digitOrdinary {c : Char} (digit : c.isDigit = true) : isSpace c = false ∧ c ≠ '-' ∧ c ≠ '+' := by
  have inside := Char.isDigit_iff_toNat.mp digit
  have apart : ∀ d : Char, d.toNat < 48 → c ≠ d := by
    rintro d less rfl
    exact absurd inside.1 (by simpa using less)
  refine ⟨?_,apart '-' (by decide),apart '+' (by decide)⟩
  simp only [isSpace,Bool.or_eq_false_iff,decide_eq_false_iff_not]
  exact ⟨⟨⟨⟨⟨apart _ (by decide),apart _ (by decide)⟩,apart _ (by decide)⟩,apart _ (by decide)⟩,apart _ (by decide)⟩,
    apart _ (by decide)⟩

theorem signDigits {s : List Char} (numeral : Numeral s) : s.dropWhile isSpace = s ∧ sign s = (false,s) := by
  cases s with
  | nil => exact absurd rfl numeral.some
  | cons c cs =>
    obtain ⟨space,minus,plus⟩ := digitOrdinary (numeral.digits c List.mem_cons_self)
    refine ⟨by simp [space],?_⟩
    unfold sign
    split
    · rename_i same
      exact absurd (List.cons.inj same).1 minus
    · rename_i same
      exact absurd (List.cons.inj same).1 plus
    · rfl

theorem digitsAll {s : List Char} (numeral : Numeral s) : s.takeWhile Char.isDigit = s :=
  List.takeWhile_eq_self_iff.mpr numeral.digits

theorem leadingNumeral {s : List Char} (numeral : Numeral s) : leading s = some (value s : Int) := by
  obtain ⟨blank,plain⟩ := signDigits numeral
  simp only [leading,blank,plain,digitsAll numeral]
  cases s with
  | nil => exact absurd rfl numeral.some
  | cons c cs => rfl

theorem leadingNegative {s : List Char} (numeral : Numeral s) : leading ('-' :: s) = some (-(value s : Int)) := by
  have blank : ('-' :: s).dropWhile isSpace = '-' :: s := rfl
  simp only [leading,blank,sign,digitsAll numeral]
  cases s with
  | nil => exact absurd rfl numeral.some
  | cons c cs => rfl

def Integer (s : List Char) : Prop := Numeral (sign s).2

instance (s : List Char) : Decidable (Integer s) := inferInstanceAs (Decidable (Numeral (sign s).2))

theorem numeralInteger {s : List Char} (numeral : Numeral s) : Integer s := by
  rw [Integer,(signDigits numeral).2]
  exact numeral

theorem integerChars {s : List Char} (integer : Integer s) : s ≠ [] ∧ ∀ c ∈ s, c.isDigit = true ∨ c = '-' ∨ c = '+' := by
  unfold Integer sign at integer
  split at integer
  · refine ⟨by simp,fun c mem => ?_⟩
    rcases List.mem_cons.mp mem with same | digit
    · exact .inr (.inl same)
    · exact .inl (integer.digits c digit)
  · refine ⟨by simp,fun c mem => ?_⟩
    rcases List.mem_cons.mp mem with same | digit
    · exact .inr (.inr same)
    · exact .inl (integer.digits c digit)
  · exact ⟨integer.some,fun c mem => .inl (integer.digits c mem)⟩

theorem integerClean {s : List Char} {d : Char} (integer : Integer s) (digit : d.isDigit = false) (minus : d ≠ '-')
    (plus : d ≠ '+') : d ∉ s := by
  intro mem
  rcases (integerChars integer).2 d mem with inside | same | same
  · rw [digit] at inside
    contradiction
  · exact minus same
  · exact plus same

end Numbers

section Words
variable {W S E : Type}

/- for(j=1; j<argc; j++): the body sees a word and the next one, if any, and may say j++. -/
def walk (body : S → W → Option W → Except E (S × Bool)) : Bool → S → List W → Except E S
  | _, s, [] => .ok s
  | true, s, _ :: ws => walk body false s ws
  | false, s, w :: ws =>
    match body s w ws.head? with
    | .ok (s,skip) => walk body skip s ws
    | .error e => .error e

variable {body : S → W → Option W → Except E (S × Bool)}

theorem walkWord {s : S} {w : W} {ws : List W} {r : Except E S} (sees : body s w ws.head? = r.map fun s => (s,false)) :
    walk body false s (w :: ws) = r.bind fun s => walk body false s ws := by
  cases r <;> simp [walk,sees,Except.map,Except.bind]

theorem walkPair {s : S} {w v : W} {ws : List W} {r : Except E S} (sees : body s w (some v) = r.map fun s => (s,true)) :
    walk body false s (w :: v :: ws) = r.bind fun s => walk body false s ws := by
  cases r <;> simp [walk,sees,Except.map,Except.bind]

theorem walkKeeps {I : S → Prop} (each : ∀ s w next s' skip, I s → body s w next = .ok (s',skip) → I s') {skip : Bool}
    {s s' : S} {ws : List W} (before : I s) (ok : walk body skip s ws = .ok s') : I s' := by
  induction ws generalizing skip s with
  | nil =>
    have same : s = s' := by simpa [walk] using ok
    exact same ▸ before
  | cons w ws ih =>
    cases skip with
    | true => exact ih before (by simpa [walk] using ok)
    | false =>
      cases sees : body s w ws.head? with
      | error e => simp [walk,sees] at ok
      | ok next =>
        simp only [walk,sees] at ok
        exact ih (each s w _ _ _ before sees) ok

theorem foldFails {A : Type} {f : S → A → Except E S} {P : E → Prop} {as : List A}
    (each : ∀ s, ∀ a ∈ as, ∀ e, f s a = .error e → P e) {s : S} {e : E} (failed : as.foldlM f s = .error e) : P e := by
  induction as generalizing s with
  | nil => contradiction
  | cons a as ih =>
    rw [List.foldlM_cons] at failed
    cases first : f s a with
    | error e' =>
      rw [first] at failed
      cases Except.error.inj failed
      exact each s a List.mem_cons_self e first
    | ok s' =>
      rw [first] at failed
      exact ih (fun s b mem => each s b (List.mem_cons_of_mem _ mem)) failed

theorem foldHolds {A : Type} {f : S → A → Except E S} {I : S → Prop} {as : List A}
    (each : ∀ s a s', I s → f s a = .ok s' → I s') {s s' : S} (before : I s) (ok : as.foldlM f s = .ok s') : I s' := by
  induction as generalizing s with
  | nil =>
    cases Except.ok.inj ok
    exact before
  | cons a as ih =>
    rw [List.foldlM_cons] at ok
    cases first : f s a with
    | error e => simp [first,bind,Except.bind] at ok
    | ok next =>
      rw [first] at ok
      exact ih (each s a next before first) ok

end Words
end Text
