import FmiTcpMaster.Text

/-! common.cpp, the numbers that the three programs read from their arguments, and the ways in
which an argument can end them before anything is connected or simulated. -/
namespace FmiTcpMaster

inductive Ending where
  | shown
  | failure (help : Bool)
  | nullPointer
  | outOfRange
  deriving DecidableEq, Repr

def intMin : Int := -2147483648
def intMax : Int := 2147483647
def longMin : Int := -9223372036854775808
def longMax : Int := 9223372036854775807

def split (s : List Char) (delim : Char) : List (List Char) := Text.items delim s

/- ss >> x for an integer between lo and hi. A text of blanks leaves x as it was, one that does
not begin with a number makes it 0, and a number outside becomes the nearer bound. -/
def extract (lo hi x : Int) (s : List Char) : Int :=
  if s.dropWhile Text.isSpace = [] then x else max lo (min hi ((Text.leading s).getD 0))

/- string_to_int() returns a local variable that it never initialised: `result` is what it held. -/
def stringToInt (result : Int) (s : List Char) : Int := extract intMin intMax result s

def intToString (i : Int) : List Char :=
  if i < 0 then '-' :: Nat.toDigits 10 i.natAbs else Nat.toDigits 10 i.natAbs

/- A number that is no int leaves open what atoi() returns for it. -/
def atoi (undefined : Int) (s : List Char) : Int :=
  let n := (Text.leading s).getD 0
  if intMin ≤ n ∧ n ≤ intMax then n else undefined

theorem extractNumeral (lo hi x : Int) {s : List Char} (numeral : Text.Numeral s) (below : lo ≤ 0)
    (fits : (Text.value s : Int) ≤ hi) : extract lo hi x s = Text.value s := by
  have nonblank : s.dropWhile Text.isSpace ≠ [] := by
    rw [(Text.signDigits numeral).1]
    exact numeral.some
  rw [extract,if_neg nonblank,Text.leadingNumeral numeral,Option.getD_some,min_eq_right fits,
    max_eq_right (below.trans (Int.natCast_nonneg _))]

theorem stringToIntNumeral (result : Int) {s : List Char} (numeral : Text.Numeral s)
    (fits : (Text.value s : Int) ≤ intMax) : stringToInt result s = Text.value s :=
  extractNumeral _ _ _ numeral (by decide) fits

theorem atoiNumeral (undefined : Int) {s : List Char} (numeral : Text.Numeral s)
    (fits : (Text.value s : Int) ≤ intMax) : atoi undefined s = Text.value s := by
  have above : intMin ≤ (Text.value s : Int) := le_trans (by decide) (Int.natCast_nonneg _)
  rw [atoi,Text.leadingNumeral numeral,Option.getD_some,if_pos ⟨above,fits⟩]

theorem decimalNumeral (n : Nat) : Text.Numeral (Nat.toDigits 10 n) :=
  ⟨Nat.toDigits_ne_nil,fun _ mem => Nat.isDigit_of_mem_toDigits (by decide) (by decide) mem⟩

theorem decimalValue (n : Nat) : Text.value (Nat.toDigits 10 n) = n := Nat.ofDigitChars_ten_toDigits

theorem leadingWritten (i : Int) : Text.leading (intToString i) = some i := by
  unfold intToString
  split
  · rename_i negative
    rw [Text.leadingNegative (decimalNumeral _),decimalValue]
    exact congrArg some (by omega)
  · rename_i positive
    rw [Text.leadingNumeral (decimalNumeral _),decimalValue]
    exact congrArg some (by omega)

theorem integerWritten (i : Int) : Text.Integer (intToString i) := by
  unfold intToString
  split
  · exact decimalNumeral _
  · exact Text.numeralInteger (decimalNumeral _)

theorem stringToIntWritten (result : Int) {i : Int} (least : intMin ≤ i) (most : i ≤ intMax) :
    stringToInt result (intToString i) = i := by
  have nonblank : (intToString i).dropWhile Text.isSpace ≠ [] := by
    intro blank
    have none : Text.leading (intToString i) = none := by rw [Text.leading,blank]; rfl
    rw [leadingWritten] at none
    contradiction
  rw [stringToInt,extract,if_neg nonblank,leadingWritten,Option.getD_some,min_eq_right most,max_eq_right least]

end FmiTcpMaster
