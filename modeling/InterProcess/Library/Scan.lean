import InterProcess.Library.Narrow
import Mathlib.Data.List.TakeDrop
import Mathlib.Data.List.TakeWhile

/-!
# Scanning a line

`fgets` and `sscanf` as the C library defines them, for the conversions `%Ns`, `%*Ns`,
`%d` and `%u`. A conversion skips white space first and takes as much as it can; `scan`
gives the values that were converted before the first conversion that failed, so that
its length is what `sscanf` returns. A number is read as a `long`, which saturates, and
is narrowed to an `int` then.
-/

namespace Scan

/-- `isspace` in the C locale. -/
def isSpace (b : UInt8) : Bool := b == 32 || (9 ≤ b && b ≤ 13)

def isDigit (b : UInt8) : Bool := 48 ≤ b && b ≤ 57

/-- The bytes that can stand in a word of a C string. -/
def isGraph (b : UInt8) : Bool := !isSpace b && b != 0

def skipSpace (bs : List UInt8) : List UInt8 := bs.dropWhile isSpace

/-- `%Ns`: at most `width` bytes that are not space, and what follows them. -/
def word (width : ℕ) (bs : List UInt8) : Option (List UInt8 × List UInt8) :=
  let rest := skipSpace bs
  let w := (rest.takeWhile fun b => !isSpace b).take width
  if w = [] then none else some (w, rest.drop w.length)

/-- The number that the digits stand for. -/
def magnitude (digits : List UInt8) : ℕ :=
  digits.foldl (fun n d => 10 * n + (d.toNat - 48)) 0

/-- A sign, if there is one, and what follows it. -/
def sign (bs : List UInt8) : Bool × List UInt8 :=
  match bs with
  | [] => (false, [])
  | b :: rest => if b = 45 then (true, rest) else if b = 43 then (false, rest) else (false, bs)

/-- A numeral: whether it is negative, its digits, and what follows it. -/
def numeral (bs : List UInt8) : Option ((Bool × List UInt8) × List UInt8) :=
  let (negative, rest) := sign (skipSpace bs)
  let digits := rest.takeWhile isDigit
  if digits = [] then none else some ((negative, digits), rest.drop digits.length)

/-- The integer that a numeral stands for. -/
def integer (negative : Bool) (digits : List UInt8) : ℤ :=
  if negative then -(magnitude digits : ℤ) else magnitude digits

/-- The nearest `long`. -/
def clampLong (z : ℤ) : ℤ := max (-2 ^ 63) (min z (2 ^ 63 - 1))

/-- What `%d` stores: the nearest `long`, narrowed. -/
def storeInt (z : ℤ) : Int32 := Int32.ofInt (clampLong z)

/-- The `unsigned long` of `strtoul`. -/
def unsignedLong (negative : Bool) (digits : List UInt8) : UInt64 :=
  if 2 ^ 64 ≤ magnitude digits then UInt64.ofNat (2 ^ 64 - 1)
  else if negative then -UInt64.ofNat (magnitude digits)
  else UInt64.ofNat (magnitude digits)

/-- A conversion of a format. -/
inductive Directive where
  /-- `%*Ns` -/
  | skip (width : ℕ)
  /-- `%Ns` -/
  | word (width : ℕ)
  /-- `%d` -/
  | int
  /-- `%u` -/
  | unsigned
  deriving DecidableEq, Repr

inductive Value where
  | word (w : List UInt8)
  | int (v : Int32)
  | unsigned (v : UInt32)
  deriving DecidableEq, Repr

/-- `sscanf`: the values that are converted. -/
def scan : List Directive → List UInt8 → List Value
  | [], _ => []
  | .skip width :: ds, bs =>
      match word width bs with
      | none => []
      | some (_, rest) => scan ds rest
  | .word width :: ds, bs =>
      match word width bs with
      | none => []
      | some (w, rest) => .word w :: scan ds rest
  | .int :: ds, bs =>
      match numeral bs with
      | none => []
      | some ((negative, digits), rest) =>
          .int (storeInt (integer negative digits)) :: scan ds rest
  | .unsigned :: ds, bs =>
      match numeral bs with
      | none => []
      | some ((negative, digits), rest) =>
          .unsigned (unsignedLong negative digits).toUInt32 :: scan ds rest

/-- `fgets` with a buffer of the given size: what it stores, up to and with the end of
the line if that fits, and what is left of the input. `none` at the end of it. -/
def fgets (size : ℕ) (input : List UInt8) : Option (List UInt8 × List UInt8) :=
  if input = [] then none
  else
    let chunk := input.take (size - 1)
    let line := chunk.takeWhile (· != 10)
    let n := if line.length < chunk.length then line.length + 1 else line.length
    some (input.take n, input.drop n)

/-- The C string in a buffer. -/
def cString (buffer : List UInt8) : List UInt8 := buffer.takeWhile (· != 0)

/-- `strtoull` of base 10. -/
def strtoull (s : List UInt8) : UInt64 :=
  match numeral s with
  | none => 0
  | some ((negative, digits), _) => unsignedLong negative digits

/-- `tolower` in the C locale. -/
def tolower (b : UInt8) : UInt8 := if 65 ≤ b ∧ b ≤ 90 then b + 32 else b

/-! ### Words -/

/-- The input is at its end or at white space. -/
def Ends (rest : List UInt8) : Prop := ∀ b ∈ rest.head?, isSpace b = true

theorem ends_nil : Ends [] := by simp [Ends]

theorem ends_space (rest : List UInt8) : Ends (32 :: rest) := by simp [Ends, isSpace]

theorem isSpace_of_isGraph {b : UInt8} (h : isGraph b = true) : isSpace b = false := by
  simp only [isGraph, Bool.and_eq_true, Bool.not_eq_true'] at h
  exact h.1

theorem ne_zero_of_isGraph {b : UInt8} (h : isGraph b = true) : b ≠ 0 := by
  simp only [isGraph, Bool.and_eq_true, bne_iff_ne] at h
  exact h.2

theorem isGraph_of_lt {b : UInt8} (h : 32 < b.toNat) : isGraph b = true := by
  simp only [isGraph, isSpace, Bool.and_eq_true, Bool.not_eq_true', Bool.or_eq_false_iff,
    beq_eq_false_iff_ne, Bool.and_eq_false_iff, decide_eq_false_iff_not, bne_iff_ne,
    UInt8.le_iff_toNat_le, ne_eq, ← UInt8.toNat_inj]
  simp
  omega

theorem isGraph_tolower (b : UInt8) : isGraph (tolower b) = isGraph b := by
  unfold tolower
  split_ifs with h
  · simp only [UInt8.le_iff_toNat_le, UInt8.reduceToNat] at h
    have hlower : (b + 32).toNat = b.toNat + 32 := by
      simp only [UInt8.toNat_add, UInt8.reduceToNat]
      omega
    rw [isGraph_of_lt (b := b + 32) (by omega), isGraph_of_lt (b := b) (by omega)]
  · rfl

theorem skipSpace_of_word {w : List UInt8} (hne : w ≠ []) (hw : ∀ b ∈ w, isSpace b = false)
    (rest : List UInt8) : skipSpace (w ++ rest) = w ++ rest := by
  obtain ⟨b, bs, rfl⟩ := List.exists_cons_of_ne_nil hne
  simp [skipSpace, hw b List.mem_cons_self]

theorem takeWhile_word {w rest : List UInt8} (hw : ∀ b ∈ w, isSpace b = false)
    (hrest : Ends rest) : ((w ++ rest).takeWhile fun b => !isSpace b) = w := by
  rw [List.takeWhile_append_of_pos (by simpa using hw)]
  cases rest with
  | nil => simp
  | cons b rest => simp [hrest b rfl]

@[simp] theorem word_space (width : ℕ) (bs : List UInt8) : word width (32 :: bs) = word width bs := by
  simp [word, skipSpace, isSpace]

theorem word_append {width : ℕ} {w rest : List UInt8} (hwidth : 0 < width) (hne : w ≠ [])
    (hw : ∀ b ∈ w, isSpace b = false) (hrest : Ends rest) :
    word width (w ++ rest) = some (w.take width, w.drop width ++ rest) := by
  have htake : w.take width ≠ [] := by
    simp [List.take_eq_nil_iff, hne, hwidth.ne']
  have hdrop : (w ++ rest).drop (w.take width).length = w.drop width ++ rest := by
    rcases Nat.le_total w.length width with hle | hle
    · simp [List.take_of_length_le hle, List.drop_of_length_le hle]
    · rw [List.length_take_of_le hle, List.drop_append_of_le_length hle]
  simp only [word, skipSpace_of_word hne hw, takeWhile_word hw hrest, if_neg htake, hdrop]

theorem word_fits {width : ℕ} {w rest : List UInt8} (hne : w ≠ []) (hlength : w.length ≤ width)
    (hw : ∀ b ∈ w, isSpace b = false) (hrest : Ends rest) :
    word width (w ++ rest) = some (w, rest) := by
  have hwidth : 0 < width := (List.length_pos_iff.mpr hne).trans_le hlength
  rw [word_append hwidth hne hw hrest, List.take_of_length_le hlength,
    List.drop_of_length_le hlength, List.nil_append]

theorem length_le_of_word {width : ℕ} {bs w rest : List UInt8}
    (h : word width bs = some (w, rest)) : w.length ≤ width := by
  unfold word at h
  dsimp only at h
  split at h
  · cases h
  · obtain ⟨rfl, -⟩ := Prod.mk.inj (Option.some.inj h)
    exact List.length_take_le _ _

theorem length_le_of_mem_scan {ds : List Directive} {bs w : List UInt8}
    (h : .word w ∈ scan ds bs) : ∃ width, .word width ∈ ds ∧ w.length ≤ width := by
  induction ds generalizing bs with
  | nil => simp [scan] at h
  | cons d ds ih =>
      have hrest : ∀ {rest : List UInt8}, .word w ∈ scan ds rest →
          ∃ width, .word width ∈ d :: ds ∧ w.length ≤ width := by
        intro rest hmem
        obtain ⟨width, hwidth, hle⟩ := ih hmem
        exact ⟨width, List.mem_cons_of_mem _ hwidth, hle⟩
      cases d with
      | skip width =>
          simp only [scan] at h
          split at h
          · cases h
          · exact hrest h
      | word width =>
          simp only [scan] at h
          split at h
          · cases h
          · next w' rest hword =>
              rcases List.mem_cons.mp h with heq | hmem
              · obtain rfl := Value.word.inj heq
                exact ⟨width, List.mem_cons_self, length_le_of_word hword⟩
              · exact hrest hmem
      | int | unsigned =>
          simp only [scan] at h
          split at h
          · cases h
          · rcases List.mem_cons.mp h with heq | hmem
            · cases heq
            · exact hrest hmem

/-! ### Numbers -/

/-- The text of a sign. -/
def signText : Option Bool → List UInt8
  | none => []
  | some true => [45]
  | some false => [43]

/-- The bytes are a decimal numeral of the integer. -/
def IsNumeral (bs : List UInt8) (z : ℤ) : Prop :=
  ∃ sgn digits, bs = signText sgn ++ digits ∧ digits ≠ [] ∧ digits.all isDigit = true ∧
    z = integer (sgn == some true) digits

theorem isGraph_of_isDigit {b : UInt8} (h : isDigit b = true) : isGraph b = true := by
  simp only [isDigit, Bool.and_eq_true, decide_eq_true_eq, UInt8.le_iff_toNat_le,
    UInt8.reduceToNat] at h
  exact isGraph_of_lt (by omega)

theorem IsNumeral.isGraph {bs : List UInt8} {z : ℤ} (h : IsNumeral bs z) :
    bs ≠ [] ∧ ∀ b ∈ bs, isGraph b = true := by
  obtain ⟨sgn, digits, rfl, hne, hdigits, -⟩ := h
  refine ⟨by simp [hne], fun b hb => ?_⟩
  rcases List.mem_append.mp hb with hsign | hdigit
  · rcases sgn with _ | (_ | _)
    · cases hsign
    · rw [List.mem_singleton.mp hsign]
      decide
    · rw [List.mem_singleton.mp hsign]
      decide
  · exact isGraph_of_isDigit (List.all_eq_true.mp hdigits b hdigit)

theorem sign_signText (sgn : Option Bool) {digits : List UInt8} (hne : digits ≠ [])
    (hdigits : ∀ b ∈ digits, isDigit b = true) (rest : List UInt8) :
    sign (signText sgn ++ digits ++ rest) = (sgn == some true, digits ++ rest) := by
  obtain ⟨b, bs, rfl⟩ := List.exists_cons_of_ne_nil hne
  have hdigit := hdigits b List.mem_cons_self
  have h45 : b ≠ 45 := by
    rintro rfl
    exact absurd hdigit (by decide)
  have h43 : b ≠ 43 := by
    rintro rfl
    exact absurd hdigit (by decide)
  rcases sgn with _ | (_ | _) <;> simp [signText, sign, h45, h43]

@[simp] theorem numeral_space (bs : List UInt8) : numeral (32 :: bs) = numeral bs := by
  simp [numeral, skipSpace, isSpace]

/-- A numeral is read as a whole, however long it is. -/
theorem numeral_append {bs rest : List UInt8} {z : ℤ} (h : IsNumeral bs z) (hrest : Ends rest) :
    ∃ negative digits, numeral (bs ++ rest) = some ((negative, digits), rest) ∧
      integer negative digits = z := by
  obtain ⟨hbs, hgraph⟩ := h.isGraph
  obtain ⟨sgn, digits, rfl, hne, hdigits, rfl⟩ := h
  rw [List.all_eq_true] at hdigits
  refine ⟨sgn == some true, digits, ?_, rfl⟩
  have htake : (digits ++ rest).takeWhile isDigit = digits := by
    rw [List.takeWhile_append_of_pos hdigits]
    cases rest with
    | nil => simp
    | cons b rest =>
        have hspace : isSpace b = true := hrest b rfl
        have hdigit : isDigit b = false := by
          by_contra hdigit
          have := isSpace_of_isGraph (isGraph_of_isDigit (Bool.not_eq_false _ ▸ hdigit))
          rw [hspace] at this
          cases this
        simp [hdigit]
  simp only [numeral, skipSpace_of_word hbs fun b hb => isSpace_of_isGraph (hgraph b hb),
    sign_signText sgn hne hdigits, htake, if_neg hne, List.drop_left]

/-- An integer is stored as it is exactly when it is an `int`. -/
theorem toInt_storeInt_iff {z : ℤ} : (storeInt z).toInt = z ↔ Narrow.Fits z := by
  constructor
  · intro h
    rw [← h]
    exact Narrow.fits_toInt _
  · intro h
    have hclamp : clampLong z = z := by
      obtain ⟨hle, hlt⟩ := h
      unfold clampLong
      omega
    rw [storeInt, hclamp]
    exact Narrow.toInt_ofInt_iff.mpr h

/-! ### Lines -/

theorem takeWhile_line {line : List UInt8} (hline : ∀ b ∈ line, b ≠ 10) (rest : List UInt8) :
    ((line ++ 10 :: rest).takeWhile (· != 10)) = line := by
  rw [List.takeWhile_append_of_pos (by simpa using hline)]
  simp

theorem fgets_line {size : ℕ} {line rest : List UInt8} (hlength : line.length < size - 1)
    (hline : ∀ b ∈ line, b ≠ 10) :
    fgets size (line ++ 10 :: rest) = some (line ++ [10], rest) := by
  obtain ⟨k, hk⟩ : ∃ k, size - 1 = line.length + (k + 1) := ⟨size - 1 - line.length - 1, by omega⟩
  have hchunk : (line ++ 10 :: rest).take (size - 1) = line ++ 10 :: rest.take k := by
    rw [hk, List.take_length_add_append, List.take_succ_cons]
  have htake : (line ++ 10 :: rest).take (line.length + 1) = line ++ [10] := by
    rw [List.take_length_add_append, List.take_succ_cons, List.take_zero]
  have hdrop : (line ++ 10 :: rest).drop (line.length + 1) = rest := by
    rw [List.drop_length_add_append, List.drop_succ_cons, List.drop_zero]
  simp [fgets, hchunk, takeWhile_line hline, htake, hdrop]

theorem fgets_end {size : ℕ} {line : List UInt8} (hlength : line.length ≤ size - 1)
    (hne : line ≠ []) (hline : ∀ b ∈ line, b ≠ 10) : fgets size line = some (line, []) := by
  have htake : line.takeWhile (· != 10) = line :=
    List.takeWhile_eq_self_iff.mpr (by simpa using hline)
  simp [fgets, hne, List.take_of_length_le hlength, htake]

theorem fgets_full {size : ℕ} {line rest : List UInt8} (hlength : line.length = size - 1)
    (hne : line ≠ []) (hline : ∀ b ∈ line, b ≠ 10) :
    fgets size (line ++ rest) = some (line, rest) := by
  have htake : line.takeWhile (· != 10) = line :=
    List.takeWhile_eq_self_iff.mpr (by simpa using hline)
  simp [fgets, hne, ← hlength, htake]

end Scan
