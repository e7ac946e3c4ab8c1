import DBEngine.Lib.Binary64
import DBEngine.Python

/-!
# The numbers that texts spell

What `int` and `float` read from a text.  Both take white space around the
numeral, a sign, underscores between digits and the decimal digits of every
script; `float` also takes a fraction, an exponent, the infinities and `nan`.
-/

set_option autoImplicit false

namespace DBEngine

open Binary64 (Extended rational)

/-- An exact number. -/
inductive Number where
  | finite (q : ℚ)
  | infinite (negative : Bool)
  | nan
  deriving DecidableEq

namespace Number

def neg : Number → Number
  | finite q => finite (-q)
  | infinite negative => infinite !negative
  | nan => nan

/-- What the float nearest to a number stands for. -/
def rounded : Number → Option Extended
  | finite q => Binary64.value (Binary64.nearest q)
  | infinite negative => some (if negative then ⊥ else ⊤)
  | nan => none

end Number

/-! ## Characters -/

/-- The digits zero of the scripts behind ASCII; the other nine follow each. -/
def digitZeros : List Nat :=
  [0x660, 0x6f0, 0x7c0, 0x966, 0x9e6, 0xa66, 0xae6, 0xb66, 0xbe6, 0xc66, 0xce6, 0xd66, 0xde6, 0xe50,
    0xed0, 0xf20, 0x1040, 0x1090, 0x17e0, 0x1810, 0x1946, 0x19d0, 0x1a80, 0x1a90, 0x1b50, 0x1bb0,
    0x1c40, 0x1c50, 0xa620, 0xa8d0, 0xa900, 0xa9d0, 0xa9f0, 0xaa50, 0xabf0, 0xff10, 0x104a0, 0x10d30,
    0x11066, 0x110f0, 0x11136, 0x111d0, 0x112f0, 0x11450, 0x114d0, 0x11650, 0x116c0, 0x11730,
    0x118e0, 0x11950, 0x11c50, 0x11d50, 0x11da0, 0x11f50, 0x16a60, 0x16ac0, 0x16b50, 0x1d7ce,
    0x1d7d8, 0x1d7e2, 0x1d7ec, 0x1d7f6, 0x1e140, 0x1e2f0, 0x1e4f0, 0x1e950, 0x1fbf0]

/-- The white space behind ASCII. -/
def wideSpaces : List Nat :=
  [0x85, 0xa0, 0x1680, 0x2000, 0x2001, 0x2002, 0x2003, 0x2004, 0x2005, 0x2006, 0x2007, 0x2008, 0x2009,
    0x200a, 0x2028, 0x2029, 0x202f, 0x205f, 0x3000]

/-- A character as `int` and `float` see it: white space and digits of any script
in ASCII, and `?` for what has no place in a numeral. -/
def asciiOf (c : Char) : Char :=
  if c.toNat < 128 then c
  else if wideSpaces.contains c.toNat then ' '
  else
    match digitZeros.find? fun start => start ≤ c.toNat && c.toNat < start + 10 with
    | some start => Char.ofNat ('0'.toNat + (c.toNat - start))
    | none => '?'

/-- `Py_ISSPACE`. -/
def isSpace (c : Char) : Bool := c = ' ' || (9 ≤ c.toNat && c.toNat ≤ 13)

/-- The text without the white space around it. -/
def strip (text : List Char) : List Char := (text.dropWhile isSpace).rdropWhile isSpace

/-- The text without its underscores, `prev` being the character before it: an
underscore stands between two digits. -/
def dropUnderscores : Char → List Char → Option (List Char)
  | prev, [] => if prev = '_' then none else some []
  | prev, c :: rest =>
      if c = '_' then
        if prev.isDigit then dropUnderscores c rest else none
      else if prev = '_' && !c.isDigit then none
      else (dropUnderscores c rest).map (c :: ·)

/-- The sign, and what stands behind it. -/
def splitSign : List Char → Bool × List Char
  | '-' :: rest => (true, rest)
  | '+' :: rest => (false, rest)
  | text => (false, text)

/-- What `int` and `float` do first: the sign of the numeral and its characters. -/
def signed (text : String) : Option (Bool × List Char) :=
  (dropUnderscores ' ' (strip (text.toList.map asciiOf))).map splitSign

/-! ## `int` -/

/-- Digits, and at least one. -/
def isDigits (text : List Char) : Bool := text ≠ [] && text.all Char.isDigit

/-- The number of digits from which `int` raises. -/
def maxStrDigits : Nat := 4300

/-- The integer of a sign and digits. -/
def signedDigits (parts : Bool × List Char) : Int :=
  if parts.1 then -(Nat.ofDigitChars 10 parts.2 0) else Nat.ofDigitChars 10 parts.2 0

/-- `int(text)`. -/
def readInt (text : String) : Except PyErr Int :=
  match signed text with
  | none => .error .valueError
  | some parts =>
      if isDigits parts.2 ∧ parts.2.length ≤ maxStrDigits then .ok (signedDigits parts)
      else .error .valueError

/-! ## `float` -/

/-- A numeral without its sign. -/
inductive Magnitude where
  | finite (q : ℚ)
  | infinity
  | nan
  deriving DecidableEq

structure Numeral where
  negative : Bool
  magnitude : Magnitude
  deriving DecidableEq

/-- `m` times the `e`-th power of ten. -/
def scale (m : Nat) (e : Int) : ℚ := mkRat (m * 10 ^ e.toNat) (10 ^ (-e).toNat)

/-- The exponent behind the digits of a numeral. -/
def readExponent : List Char → Option Int
  | [] => some 0
  | c :: rest =>
      if (c = 'e' ∨ c = 'E') ∧ isDigits (splitSign rest).2 then some (signedDigits (splitSign rest))
      else none

/-- The digits behind the point, and what stands behind them. -/
def splitFraction : List Char → List Char × List Char
  | '.' :: rest => (rest.takeWhile Char.isDigit, rest.dropWhile Char.isDigit)
  | rest => ([], rest)

/-- Digits with a point and an exponent. -/
def readDecimal (text : List Char) : Option ℚ :=
  let fraction := splitFraction (text.dropWhile Char.isDigit)
  let digits := text.takeWhile Char.isDigit ++ fraction.1
  if digits = [] then none
  else (readExponent fraction.2).map fun e =>
    scale (Nat.ofDigitChars 10 digits 0) (e - fraction.1.length)

def readMagnitude (text : List Char) : Option Magnitude :=
  match readDecimal text with
  | some q => some (.finite q)
  | none =>
      let word := text.map Char.toLower
      if word = "inf".toList ∨ word = "infinity".toList then some .infinity
      else if word = "nan".toList then some .nan
      else none

/-- The numeral that a text spells. -/
def readNumeral (text : String) : Option Numeral :=
  match signed text with
  | none => none
  | some parts => (readMagnitude parts.2).map fun magnitude => ⟨parts.1, magnitude⟩

namespace Numeral

/-- The number that a numeral stands for. -/
def number : Numeral → Number
  | ⟨negative, .finite q⟩ => .finite (if negative then -q else q)
  | ⟨negative, .infinity⟩ => .infinite negative
  | ⟨_, .nan⟩ => .nan

/-- The float of a numeral: the nearest one, with the sign of the numeral. -/
def toFloat : Numeral → Float
  | ⟨negative, .finite q⟩ =>
      if q = 0 then Binary64.ofUnpacked (Binary64.unpackedWhole negative 0)
      else Binary64.nearest (if negative then -q else q)
  | ⟨negative, .infinity⟩ =>
      Binary64.ofUnpacked (.infinity (if negative then .negative else .positive))
  | ⟨_, .nan⟩ => Binary64.ofUnpacked .notANumber

end Numeral

/-- `float(text)`. -/
def readFloat (text : String) : Except PyErr Float :=
  match readNumeral text with
  | some numeral => .ok numeral.toFloat
  | none => .error .valueError

/-! ## The text of numbers -/

/-- The digits of a number in base ten. -/
def digitsOf (n : Nat) : List Char := Nat.toDigits 10 n

/-- `str(v)` of an integer, which has a limit on the digits. -/
def writeInt (v : Int) : Except PyErr String :=
  let digits := digitsOf v.natAbs
  if digits.length ≤ maxStrDigits then .ok (String.ofList (if v < 0 then '-' :: digits else digits))
  else .error .valueError

/-- The exponent of the first digit of a positive number in base ten. -/
def leadingExponent (q : ℚ) : Int :=
  let e : Int := (digitsOf q.num.natAbs).length - (digitsOf q.den).length
  if scale 1 e ≤ q then e else e - 1

/-- The whole numbers `m` next to `q / 10 ^ e`, the nearer one first, and of two that are
equally near the even one. -/
def neighbours (q : ℚ) (e : Int) : List Nat :=
  let m := q * scale 1 (-e)
  let below := m.floor.toNat
  if m - below < 1 / 2 ∨ m - below = 1 / 2 ∧ below % 2 = 0 then [below, below + 1]
  else [below + 1, below]

/-- The shortest digits, from `n` of them on, that are read back as the float: a whole
number and a power of ten. -/
def shortestDigits (x : Float) (q : ℚ) (first : Int) : Nat → Nat → Nat × Int
  | 0, n => ((neighbours q (first - n + 1)).headD 0, first - n + 1)
  | fuel + 1, n =>
      let e := first - n + 1
      match (neighbours q e).find? fun m => Binary64.nearest (scale m e) = x with
      | some m => (m, e)
      | none => shortestDigits x q first fuel (n + 1)

/-- Digits with the point behind the first `point` of them, or with an exponent when it is
far from them. -/
def placePoint (digits : List Char) (point : Int) : List Char :=
  if -4 < point ∧ point ≤ 16 then
    if point ≤ 0 then '0' :: '.' :: (List.replicate (-point).toNat '0' ++ digits)
    else if digits.length ≤ point.toNat then
      digits ++ List.replicate (point.toNat - digits.length) '0' ++ ['.', '0']
    else digits.take point.toNat ++ '.' :: digits.drop point.toNat
  else
    let exponent := point - 1
    let power := digitsOf exponent.natAbs
    digits.take 1 ++ (if digits.length ≤ 1 then [] else '.' :: digits.drop 1) ++
      ['e', if exponent < 0 then '-' else '+'] ++ List.replicate (2 - power.length) '0' ++ power

/-- The text of `m * 2 ^ e`. -/
def writeMagnitude (m : Nat) (e : Int) : List Char :=
  let q : ℚ := mkRat (m * 2 ^ e.toNat) (2 ^ (-e).toNat)
  -- seventeen digits tell every float from its neighbours
  let shortest := shortestDigits (Binary64.nearest q) q (leadingExponent q) 17 1
  let digits := digitsOf shortest.1
  placePoint (digits.rdropWhile (· = '0')) (digits.length + shortest.2)

/-- `str(x)` of a float. -/
def writeFloat (x : Float) : String :=
  match x.toModel.unpack with
  | .notANumber => "nan"
  | .infinity .negative => "-inf"
  | .infinity .positive => "inf"
  | .zero .negative => "-0.0"
  | .zero .positive => "0.0"
  | .finite .negative m e _ => String.ofList ('-' :: writeMagnitude m e)
  | .finite .positive m e _ => String.ofList (writeMagnitude m e)

/-! ## What numerals are made of -/

/-- The characters of numerals. -/
def inNumeral (c : Char) : Bool := c.isAlphanum || c = '.' || c = '+' || c = '-'

theorem inNumeral_of_isDigit {c : Char} (h : c.isDigit = true) : inNumeral c = true := by
  simp [inNumeral, Char.isAlphanum, h]

theorem isSpace_of_inNumeral {c : Char} (h : inNumeral c = true) : isSpace c = false := by
  have hrange : 43 ≤ c.toNat := by
    simp only [inNumeral, Char.isAlphanum, Char.isAlpha, Char.isUpper, Char.isLower, Char.isDigit,
      Bool.or_eq_true, decide_eq_true_eq, Bool.and_eq_true, ge_iff_le, UInt32.le_iff_toNat_le,
      Char.toNat_val] at h
    rcases h with ((((⟨h, -⟩ | ⟨h, -⟩) | ⟨h, -⟩) | rfl) | rfl) | rfl
    · exact le_trans (by decide) h
    · exact le_trans (by decide) h
    · exact le_trans (by decide) h
    · decide
    · decide
    · decide
  have hne : c ≠ ' ' := by
    rintro rfl
    exact absurd hrange (by decide)
  simp only [isSpace, Bool.or_eq_false_iff, decide_eq_false_iff_not, Bool.and_eq_false_iff]
  exact ⟨hne, Or.inr (by omega)⟩

theorem isDigits_iff {text : List Char} :
    isDigits text = true ↔ text ≠ [] ∧ ∀ c ∈ text, c.isDigit = true := by
  simp [isDigits]

theorem mem_splitSign {text : List Char} {c : Char} (h : c ∈ text) :
    c ∈ (splitSign text).2 ∨ c = '+' ∨ c = '-' := by
  unfold splitSign
  split
  · rcases List.mem_cons.mp h with rfl | h
    · exact .inr (.inr rfl)
    · exact .inl h
  · rcases List.mem_cons.mp h with rfl | h
    · exact .inr (.inl rfl)
    · exact .inl h
  · exact .inl h

theorem inNumeral_of_splitSign {text : List Char}
    (h : ∀ c ∈ (splitSign text).2, inNumeral c = true) : ∀ c ∈ text, inNumeral c = true := by
  intro c hc
  rcases mem_splitSign hc with hc | rfl | rfl
  · exact h c hc
  · decide
  · decide

theorem readExponent_inNumeral {text : List Char} {e : Int} (h : readExponent text = some e) :
    ∀ c ∈ text, inNumeral c = true := by
  cases text with
  | nil => simp
  | cons first rest =>
      rw [readExponent] at h
      split at h
      · rename_i hexponent
        have hrest := inNumeral_of_splitSign fun c hc =>
          inNumeral_of_isDigit ((isDigits_iff.mp hexponent.2).2 c hc)
        intro c hc
        rcases List.mem_cons.mp hc with rfl | hc
        · rcases hexponent.1 with rfl | rfl <;> decide
        · exact hrest c hc
      · simp at h

theorem mem_splitFraction {text : List Char} {c : Char} (h : c ∈ text) :
    c = '.' ∨ c ∈ (splitFraction text).1 ∨ c ∈ (splitFraction text).2 := by
  unfold splitFraction
  split
  · rename_i rest
    rcases List.mem_cons.mp h with rfl | h
    · exact .inl rfl
    · rw [← List.takeWhile_append_dropWhile (p := Char.isDigit) (l := rest)] at h
      exact .inr (List.mem_append.mp h)
  · exact .inr (.inr h)

theorem isDigit_of_mem_splitFraction {text : List Char} {c : Char} (h : c ∈ (splitFraction text).1) :
    c.isDigit = true := by
  unfold splitFraction at h
  split at h
  · exact List.mem_takeWhile_imp h
  · simp at h

theorem readDecimal_inNumeral {text : List Char} {q : ℚ} (h : readDecimal text = some q) :
    ∀ c ∈ text, inNumeral c = true := by
  unfold readDecimal at h
  dsimp only at h
  split at h
  · simp at h
  · obtain ⟨e, he, -⟩ := Option.map_eq_some_iff.mp h
    intro c hc
    rw [← List.takeWhile_append_dropWhile (p := Char.isDigit) (l := text)] at hc
    rcases List.mem_append.mp hc with hc | hc
    · exact inNumeral_of_isDigit (List.mem_takeWhile_imp hc)
    · rcases mem_splitFraction hc with rfl | hc | hc
      · decide
      · exact inNumeral_of_isDigit (isDigit_of_mem_splitFraction hc)
      · exact readExponent_inNumeral he c hc

/-- A word that reads `inf`, `infinity` or `nan` is made of letters. -/
theorem isAlpha_of_toLower {c : Char} (h : c.toLower.isLower = true) : c.isAlpha = true := by
  by_cases hupper : c.isUpper = true
  · simp [Char.isAlpha, hupper]
  · have hsame : c.toLower = c := by
      rw [Char.toLower, dif_neg]
      simpa [Char.isUpper] using hupper
    rw [hsame] at h
    simp [Char.isAlpha, h]

theorem isAlpha_of_word {text : List Char} {word : String} (h : text.map Char.toLower = word.toList)
    (hword : word.toList.all Char.isLower = true) : ∀ c ∈ text, c.isAlpha = true := by
  intro c hc
  have hmem : c.toLower ∈ word.toList := h ▸ List.mem_map_of_mem hc
  exact isAlpha_of_toLower (List.all_eq_true.mp hword _ hmem)

theorem readMagnitude_eq_some {text : List Char} {magnitude : Magnitude}
    (h : readMagnitude text = some magnitude) :
    (∃ q, readDecimal text = some q ∧ magnitude = .finite q) ∨
      (text ≠ [] ∧ ∀ c ∈ text, c.isAlpha = true) := by
  unfold readMagnitude at h
  dsimp only at h
  split at h
  · rename_i q hq
    exact .inl ⟨q, hq, (Option.some.inj h).symm⟩
  · refine .inr ?_
    split at h
    · rename_i hword
      rcases hword with hword | hword
      · exact ⟨by rintro rfl; simp at hword, isAlpha_of_word hword (by decide)⟩
      · exact ⟨by rintro rfl; simp at hword, isAlpha_of_word hword (by decide)⟩
    · split at h
      · rename_i hword
        exact ⟨by rintro rfl; simp at hword, isAlpha_of_word hword (by decide)⟩
      · simp at h

theorem readMagnitude_inNumeral {text : List Char} {magnitude : Magnitude}
    (h : readMagnitude text = some magnitude) : ∀ c ∈ text, inNumeral c = true := by
  rcases readMagnitude_eq_some h with ⟨q, hq, -⟩ | ⟨-, halpha⟩
  · exact readDecimal_inNumeral hq
  · intro c hc
    simp [inNumeral, Char.isAlphanum, halpha c hc]

/-- A magnitude begins with no sign and no white space. -/
theorem splitSign_of_readMagnitude {text : List Char} {magnitude : Magnitude}
    (h : readMagnitude text = some magnitude) : splitSign text = (false, text) := by
  have hsign (c : Char) (rest : List Char) (hc : c = '-' ∨ c = '+') : text ≠ c :: rest := by
    rintro rfl
    rcases readMagnitude_eq_some h with ⟨q, hq, -⟩ | ⟨-, halpha⟩
    · rcases hc with rfl | rfl <;> simp [readDecimal, splitFraction] at hq
    · have := halpha c List.mem_cons_self
      rcases hc with rfl | rfl <;> simp [Char.isAlpha, Char.isUpper, Char.isLower] at this
  unfold splitSign
  split
  · exact absurd rfl (hsign '-' _ (.inl rfl))
  · exact absurd rfl (hsign '+' _ (.inr rfl))
  · rfl

theorem readMagnitude_nil : readMagnitude [] = none := by decide

/-- Digits alone are a whole number. -/
theorem readMagnitude_of_isDigits {digits : List Char} (h : isDigits digits = true) :
    readMagnitude digits = some (.finite ((Nat.ofDigitChars 10 digits 0 : ℕ) : ℚ)) := by
  obtain ⟨hne, hall⟩ := isDigits_iff.mp h
  have htake : digits.takeWhile Char.isDigit = digits := List.takeWhile_eq_self_iff.mpr hall
  have hdrop : digits.dropWhile Char.isDigit = [] := List.dropWhile_eq_nil_iff.mpr hall
  have hdecimal : readDecimal digits = some ((Nat.ofDigitChars 10 digits 0 : ℕ) : ℚ) := by
    unfold readDecimal
    simp only [htake, hdrop, splitFraction, List.append_nil, if_neg hne, readExponent, Option.map_some,
      List.length_nil, Nat.cast_zero, sub_zero]
    simp [scale, Rat.mkRat_one]
  rw [readMagnitude, hdecimal]

/-- What `int` reads, `float` reads as the same number. -/
theorem readNumeral_of_readInt {text : String} {v : Int} (h : readInt text = .ok v) :
    ∃ numeral, readNumeral text = some numeral ∧ numeral.number = .finite v := by
  unfold readInt at h
  split at h
  · simp at h
  · rename_i parts hparts
    split at h
    · rename_i hdigits
      refine ⟨⟨parts.1, .finite ((Nat.ofDigitChars 10 parts.2 0 : ℕ) : ℚ)⟩, ?_, ?_⟩
      · rw [readNumeral, hparts]
        simp only [readMagnitude_of_isDigits hdigits.1, Option.map_some]
      · obtain rfl := Except.ok.inj h
        rw [Numeral.number, signedDigits]
        cases parts.1 <;> simp
    · simp at h

/-- The float of a numeral stands for what its number rounds to. -/
theorem Numeral.value_toFloat (numeral : Numeral) :
    Binary64.value numeral.toFloat = numeral.number.rounded := by
  have hpack (u : Float.Model.UnpackedFloat) : Binary64.value (Binary64.ofUnpacked u) =
      Binary64.unpackedValue (Float.Model.UnpackedFloat.unpack .binary64
        (Float.Model.UnpackedFloat.pack .binary64 u)) := rfl
  obtain ⟨negative, magnitude⟩ := numeral
  cases magnitude with
  | finite q =>
      by_cases hq : q = 0
      · subst hq
        have hzero : Number.rounded (.finite 0) = some (rational 0) := by
          rw [Number.rounded, Binary64.nearest, hpack]
          simp [Binary64.unpackedWhole, Float.Model.UnpackedFloat.div, Binary64.unpack_zero,
            Binary64.unpackedValue]
        have hnumber : (Numeral.mk negative (.finite 0)).number = .finite 0 := by
          cases negative <;> simp [number]
        rw [hnumber, hzero, toFloat, if_pos rfl, hpack]
        simp [Binary64.unpackedWhole, Binary64.unpack_zero, Binary64.unpackedValue]
      · rw [toFloat, if_neg hq]
        rfl
  | infinity =>
      rw [toFloat, hpack, Binary64.unpack_infinity]
      cases negative <;> rfl
  | nan =>
      rw [toFloat, hpack]
      rfl

/-! ## Texts that are put together -/

theorem dropUnderscores_eq {prev : Char} {text text' : List Char}
    (h : dropUnderscores prev text = some text') : text' = text.filter (· ≠ '_') := by
  induction text generalizing prev text' with
  | nil =>
      rw [dropUnderscores] at h
      split at h
      · simp at h
      · simpa using h.symm
  | cons c rest ih =>
      rw [dropUnderscores] at h
      split at h
      · rename_i hc
        split at h
        · rw [ih h, List.filter_cons_of_neg (by simp [hc])]
        · simp at h
      · rename_i hc
        split at h
        · simp at h
        · obtain ⟨rest', hrest, rfl⟩ := Option.map_eq_some_iff.mp h
          rw [ih hrest, List.filter_cons_of_pos (by simpa using hc)]

/-- Of the character before a text it only matters whether it is a digit or an
underscore. -/
theorem dropUnderscores_congr (prev prev' : Char) (hprev : prev ≠ '_' ∧ prev.isDigit = false)
    (hprev' : prev' ≠ '_' ∧ prev'.isDigit = false) (text : List Char) :
    dropUnderscores prev text = dropUnderscores prev' text := by
  cases text with
  | nil => simp [dropUnderscores, hprev.1, hprev'.1]
  | cons c rest => simp [dropUnderscores, hprev.1, hprev.2, hprev'.1, hprev'.2]

/-- Inside a numeral there is no white space and nothing foreign. -/
theorem inNumeral_of_readNumeral {text : String} {numeral : Numeral}
    (h : readNumeral text = some numeral) :
    ∀ c ∈ strip (text.toList.map asciiOf), inNumeral c = true ∨ c = '_' := by
  unfold readNumeral at h
  split at h
  · simp at h
  · rename_i parts hparts
    obtain ⟨magnitude, hmagnitude, -⟩ := Option.map_eq_some_iff.mp h
    obtain ⟨stripped, hstripped, hsign⟩ := Option.map_eq_some_iff.mp hparts
    have hall : ∀ c ∈ stripped, inNumeral c = true :=
      inNumeral_of_splitSign (hsign ▸ readMagnitude_inNumeral hmagnitude)
    intro c hc
    by_cases hunderscore : c = '_'
    · exact .inr hunderscore
    · refine .inl (hall c ?_)
      rw [dropUnderscores_eq hstripped]
      exact List.mem_filter.mpr ⟨hc, by simpa using hunderscore⟩

theorem rdropWhile_append_cons {p : Char → Bool} {c : Char} (hc : p c = false) (before rest : List Char) :
    (before ++ c :: rest).rdropWhile p = before ++ c :: rest.rdropWhile p := by
  have hreverse : (before ++ c :: rest).reverse = rest.reverse ++ (c :: before.reverse) := by simp
  have hstop : (c :: before.reverse).dropWhile p = c :: before.reverse := by
    rw [List.dropWhile_cons, if_neg (by simp [hc])]
  simp only [List.rdropWhile, hreverse, List.dropWhile_append, hstop]
  split
  · rename_i hempty
    rw [List.isEmpty_iff.mp hempty]
    simp
  · simp

/-- The start of a text stays when white space is taken off its end, unless it is
white space throughout. -/
theorem rdropWhile_cons_space (c : Char) (rest : List Char) :
    (c :: rest).rdropWhile isSpace = [] ∨ c ∈ (c :: rest).rdropWhile isSpace := by
  have hstart : (c :: rest).rdropWhile isSpace <+: c :: rest := List.rdropWhile_prefix _ _
  cases hstripped : (c :: rest).rdropWhile isSpace with
  | nil => exact .inl rfl
  | cons first tail =>
      rw [hstripped, List.cons_prefix_cons] at hstart
      exact .inr (hstart.1 ▸ List.mem_cons_self)

/-- A sign before a text. -/
theorem signed_minus (text : String) :
    signed ("-" ++ text) =
      (dropUnderscores ' ' ((text.toList.map asciiOf).rdropWhile isSpace)).map fun t => (true, t) := by
  have hlist : ("-" ++ text).toList.map asciiOf = '-' :: text.toList.map asciiOf := by
    rw [String.toList_append, List.map_append]
    rfl
  have hstrip : strip ('-' :: text.toList.map asciiOf) =
      '-' :: (text.toList.map asciiOf).rdropWhile isSpace :=
    rdropWhile_append_cons (by decide) [] _
  rw [signed, hlist, hstrip, dropUnderscores, if_neg (by decide), if_neg (by decide), Option.map_map,
    dropUnderscores_congr '-' ' ' (by decide) (by decide)]
  rfl

/-- Behind a sign a numeral goes on at once. -/
theorem isSpace_of_magnitude {c : Char} {rest text : List Char} {magnitude : Magnitude}
    (htext : dropUnderscores ' ' ((c :: rest).rdropWhile isSpace) = some text)
    (h : readMagnitude text = some magnitude) : isSpace c = false := by
  rcases rdropWhile_cons_space c rest with hnil | hmem
  · rw [hnil] at htext
    obtain rfl : [] = text := Option.some.inj htext
    simp [readMagnitude_nil] at h
  · by_contra hspace
    have hne : c ≠ '_' := by
      rintro rfl
      exact hspace rfl
    have hin : c ∈ text := by
      rw [dropUnderscores_eq htext]
      exact List.mem_filter.mpr ⟨hmem, by simpa using hne⟩
    exact hspace (isSpace_of_inNumeral (readMagnitude_inNumeral h c hin))

/-- A numeral behind a minus sign has no sign of its own. -/
theorem readNumeral_minus {text : String} {numeral : Numeral}
    (h : readNumeral ("-" ++ text) = some numeral) :
    ∃ magnitude, numeral = ⟨true, magnitude⟩ ∧ readNumeral text = some ⟨false, magnitude⟩ := by
  rw [readNumeral, signed_minus] at h
  cases hdrop : dropUnderscores ' ' ((text.toList.map asciiOf).rdropWhile isSpace) with
  | none => simp [hdrop] at h
  | some body =>
      rw [hdrop] at h
      obtain ⟨magnitude, hmagnitude, rfl⟩ := Option.map_eq_some_iff.mp h
      refine ⟨magnitude, rfl, ?_⟩
      have hstrip : strip (text.toList.map asciiOf) = (text.toList.map asciiOf).rdropWhile isSpace := by
        rw [strip]
        cases hlist : text.toList.map asciiOf with
        | nil => rfl
        | cons c rest =>
            rw [hlist] at hdrop
            rw [List.dropWhile_cons, isSpace_of_magnitude hdrop hmagnitude]
            rfl
      rw [readNumeral, signed, hstrip, hdrop]
      simp only [Option.map_some, splitSign_of_readMagnitude hmagnitude, hmagnitude]

theorem readNumeral_minus_space (text : String) : readNumeral ("- " ++ text) = none := by
  have happend : "- " ++ text = "-" ++ (" " ++ text) := by
    rw [← String.append_assoc]
    rfl
  have hlist : (" " ++ text).toList.map asciiOf = ' ' :: text.toList.map asciiOf := by
    rw [String.toList_append, List.map_append]
    rfl
  rw [happend, readNumeral, signed_minus, hlist]
  cases hdrop : dropUnderscores ' ' ((' ' :: text.toList.map asciiOf).rdropWhile isSpace) with
  | none => rfl
  | some body =>
      cases hmagnitude : readMagnitude body with
      | none => simp [hmagnitude]
      | some magnitude => exact absurd (isSpace_of_magnitude hdrop hmagnitude) (by decide)

theorem readNumeral_paren (text : String) : readNumeral ("(" ++ text ++ ")") = none := by
  cases h : readNumeral ("(" ++ text ++ ")") with
  | none => rfl
  | some numeral =>
      have hlist : ("(" ++ text ++ ")").toList.map asciiOf = '(' :: (text ++ ")").toList.map asciiOf := by
        rw [String.append_assoc, String.toList_append, List.map_append]
        rfl
      have hstrip : strip ('(' :: (text ++ ")").toList.map asciiOf) =
          '(' :: ((text ++ ")").toList.map asciiOf).rdropWhile isSpace :=
        rdropWhile_append_cons (by decide) [] _
      have hin := inNumeral_of_readNumeral h '(' (by rw [hlist, hstrip]; exact List.mem_cons_self)
      exact absurd hin (by decide)

/-- A symbol between spaces: white space stays inside the text, or nothing but the
symbol is left. -/
theorem strip_infix {c : Char} (hc : isSpace c = false) (before rest : List Char) :
    ' ' ∈ strip (before ++ ' ' :: c :: ' ' :: rest) ∨ strip (before ++ ' ' :: c :: ' ' :: rest) = [c] := by
  rw [strip, List.dropWhile_append]
  split
  · have hskip : (' ' :: c :: ' ' :: rest).dropWhile isSpace = [] ++ c :: ' ' :: rest := by
      rw [List.dropWhile_cons, if_pos (by decide), List.dropWhile_cons, hc]
      rfl
    rw [hskip, rdropWhile_append_cons hc, List.nil_append]
    rcases rdropWhile_cons_space ' ' rest with hnil | hmem
    · rw [hnil]
      exact .inr rfl
    · exact .inl (List.mem_cons_of_mem _ hmem)
  · rw [List.append_cons, rdropWhile_append_cons hc]
    exact .inl (by simp)

theorem readNumeral_infix {c : Char} (hascii : asciiOf c = c) (hspace : isSpace c = false)
    (hnone : readNumeral (String.singleton c) = none) (a b : String) :
    readNumeral (a ++ " " ++ String.singleton c ++ " " ++ b) = none := by
  have hlist : (a ++ " " ++ String.singleton c ++ " " ++ b).toList.map asciiOf =
      a.toList.map asciiOf ++ ' ' :: c :: ' ' :: b.toList.map asciiOf := by
    simp [String.toList_append, hascii, show asciiOf ' ' = ' ' from rfl]
  cases h : readNumeral (a ++ " " ++ String.singleton c ++ " " ++ b) with
  | none => rfl
  | some numeral =>
      rcases strip_infix hspace (a.toList.map asciiOf) (b.toList.map asciiOf) with hmem | hone
      · exact absurd (inNumeral_of_readNumeral h ' ' (hlist ▸ hmem)) (by decide)
      · have hsingle : strip ((String.singleton c).toList.map asciiOf) = [c] := by
          simp [strip, hascii, hspace]
        have hsame : signed (a ++ " " ++ String.singleton c ++ " " ++ b) = signed (String.singleton c) := by
          rw [signed, signed, hlist, hone, hsingle]
        rw [readNumeral, hsame, ← readNumeral, hnone] at h
        exact h.symm

end DBEngine
