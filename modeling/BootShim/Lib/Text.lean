-- SUMMARY: Text as lists of characters: Unicode white space, trimming, splitting into words, and hexadecimal numerals.
import Mathlib.Data.List.DropRight
import Mathlib.Tactic

/-!
# Text

A string slice is its list of characters. White space is the Unicode property
`White_Space`, which is what trimming and splitting into words go by.
-/

namespace Text

/-- The characters of the Unicode property `White_Space`. -/
def isWhitespace (c : Char) : Bool :=
  let n := c.toNat
  (9 ≤ n && n ≤ 13) || n == 0x20 || n == 0x85 || n == 0xa0 || n == 0x1680 ||
    (0x2000 ≤ n && n ≤ 0x200a) || n == 0x2028 || n == 0x2029 || n == 0x202f ||
    n == 0x205f || n == 0x3000

/-- Drops white space at the front. -/
def trimStart (s : List Char) : List Char := s.dropWhile isWhitespace

/-- Drops white space at the back. -/
def trimEnd (s : List Char) : List Char := s.rdropWhile isWhitespace

/-- Drops white space at both ends. -/
def trim (s : List Char) : List Char := trimEnd (trimStart s)

/-- The maximal runs of characters that are not white space. -/
def splitWhitespace (s : List Char) : List (List Char) :=
  (s.splitOnP isWhitespace).filter fun w => !w.isEmpty

/-- What stands before the first separator and what stands behind it. -/
def splitOnce (sep : Char) : List Char → Option (List Char × List Char)
  | [] => none
  | c :: s =>
    if c = sep then some ([], s) else (splitOnce sep s).map fun parts => (c :: parts.1, parts.2)

/-- The lower-case hexadecimal digits of `n`, at least `width` of them. -/
def hexDigits (width n : Nat) : List Char :=
  let digits := Nat.toDigits 16 n
  List.replicate (width - digits.length) '0' ++ digits

/-- `n` as `0x` and hexadecimal digits, zero-padded to `width` of them. -/
def hex (n : Nat) (width : Nat) : String := "0x" ++ String.ofList (hexDigits width n)

/-- The two hexadecimal digits of each byte. -/
def hexEncode (bs : List UInt8) : String :=
  String.ofList (bs.flatMap fun b => hexDigits 2 b.toNat)

/-! ## Reading numerals back -/

/-- The value of a lower-case hexadecimal digit. -/
def digitValue (c : Char) : Nat := if c.toNat < 0x60 then c.toNat - 0x30 else c.toNat - 0x57

/-- The value of a row of hexadecimal digits. -/
def hexValue (s : List Char) : Nat := s.foldl (fun n c => 16 * n + digitValue c) 0

/-- The number behind the `0x` of a numeral. -/
def readHex (s : String) : Nat := hexValue (s.toList.drop 2)

theorem digitValue_digitChar {d : Nat} (hd : d < 16) : digitValue (Nat.digitChar d) = d := by
  have hall : ∀ d : Fin 16, digitValue (Nat.digitChar d) = d := by decide
  exact hall ⟨d, hd⟩

theorem hexValue_append_singleton (s : List Char) (c : Char) :
    hexValue (s ++ [c]) = 16 * hexValue s + digitValue c := by
  rw [hexValue, List.foldl_append]
  rfl

/-- Leading zeros count for nothing. -/
theorem hexValue_replicate_append (k : Nat) (s : List Char) :
    hexValue (List.replicate k '0' ++ s) = hexValue s := by
  have hzero : (List.replicate k '0').foldl (fun n c => 16 * n + digitValue c) 0 = 0 := by
    induction k with
    | zero => rfl
    | succ k ih => exact ih
  rw [hexValue, List.foldl_append, hzero, hexValue]

theorem hexValue_toDigits (n : Nat) : hexValue (Nat.toDigits 16 n) = n := by
  induction n using Nat.strongRecOn with
  | ind n ih =>
    rw [Nat.toDigits_eq_if (by decide)]
    split
    · next hlt =>
      have hdigit := digitValue_digitChar hlt
      simpa [hexValue] using hdigit
    · next hge =>
      rw [hexValue_append_singleton, ih (n / 16) (by omega),
        digitValue_digitChar (Nat.mod_lt n (by decide))]
      omega

/-- A numeral is read as the number it was written for. -/
@[simp] theorem readHex_hex (n width : Nat) : readHex (hex n width) = n := by
  rw [readHex, hex]
  simp only [String.toList_append, String.toList_ofList]
  exact (hexValue_replicate_append _ _).trans (hexValue_toDigits n)

/-! ## Words -/

@[simp] theorem splitWhitespace_nil : splitWhitespace [] = [] := rfl

/-- White space separates the words before it from those after it. -/
theorem splitWhitespace_append_cons (s t : List Char) {c : Char} (hc : isWhitespace c = true) :
    splitWhitespace (s ++ c :: t) = splitWhitespace s ++ splitWhitespace t := by
  rw [splitWhitespace, List.splitOnP_append_cons s t hc, List.filter_append]
  rfl

theorem splitWhitespace_trimStart (s : List Char) :
    splitWhitespace (trimStart s) = splitWhitespace s := by
  induction s with
  | nil => rfl
  | cons c s ih =>
    rw [trimStart, List.dropWhile_cons]
    split
    · next hc =>
      rw [← List.nil_append (c :: s), splitWhitespace_append_cons [] s hc]
      exact ih
    · rfl

theorem splitWhitespace_trimEnd (s : List Char) :
    splitWhitespace (trimEnd s) = splitWhitespace s := by
  induction s using List.reverseRecOn with
  | nil => rfl
  | append_singleton s c ih =>
    rw [trimEnd, List.rdropWhile_concat]
    split
    · next hc =>
      rw [splitWhitespace_append_cons s [] hc, splitWhitespace_nil, List.append_nil]
      exact ih
    · rfl

/-- Trimming changes no word. -/
theorem splitWhitespace_trim (s : List Char) : splitWhitespace (trim s) = splitWhitespace s := by
  rw [trim, splitWhitespace_trimEnd, splitWhitespace_trimStart]

/-! ## Trimmed text -/

variable {s t : List Char}

theorem trimEnd_trim (s : List Char) : trimEnd (trim s) = trim s :=
  List.rdropWhile_idempotent isWhitespace (trimStart s)

/-- Trimming the back leaves the front as it is. -/
theorem trimStart_trim (s : List Char) : trimStart (trim s) = trim s := by
  apply List.dropWhile_eq_self_iff.mpr
  intro hpos
  have hpre : trim s <+: trimStart s := List.rdropWhile_prefix isWhitespace _
  rw [hpre.getElem hpos]
  exact List.dropWhile_get_zero_not isWhitespace s _

/-- A text without white space at its ends is trimmed. -/
theorem trim_eq_self (hstart : trimStart s = s) (hend : trimEnd s = s) : trim s = s := by
  rw [trim, hstart, hend]

theorem trim_trim (s : List Char) : trim (trim s) = trim s :=
  trim_eq_self (trimStart_trim s) (trimEnd_trim s)

theorem trimStart_append (hs : trimStart s = s) (hnil : s ≠ []) (t : List Char) :
    trimStart (s ++ t) = s ++ t := by
  cases s with
  | nil => exact absurd rfl hnil
  | cons c s =>
    have hc : ¬ isWhitespace c = true := List.dropWhile_eq_self_iff.mp hs (Nat.succ_pos _)
    exact List.dropWhile_cons_of_neg hc

theorem trimEnd_append (s : List Char) (ht : trimEnd t = t) (hnil : t ≠ []) :
    trimEnd (s ++ t) = s ++ t := by
  apply List.rdropWhile_eq_self_iff.mpr
  intro hne
  rw [List.getLast_append_of_ne_nil hne hnil]
  exact List.rdropWhile_eq_self_iff.mp ht hnil

/-- A text without white space is trimmed. -/
theorem trim_of_forall (h : ∀ c ∈ s, isWhitespace c = false) : trim s = s := by
  apply trim_eq_self
  · apply List.dropWhile_eq_self_iff.mpr
    intro hpos
    rw [h _ (List.getElem_mem hpos)]
    exact Bool.false_ne_true
  · apply List.rdropWhile_eq_self_iff.mpr
    intro hne
    rw [h _ (List.getLast_mem hne)]
    exact Bool.false_ne_true

/-- The first separator is the one that splits. -/
theorem splitOnce_append {sep : Char} (hs : sep ∉ s) (t : List Char) :
    splitOnce sep (s ++ sep :: t) = some (s, t) := by
  induction s with
  | nil => exact if_pos rfl
  | cons c s ih =>
    obtain ⟨hc, hs⟩ := List.ne_and_not_mem_of_not_mem_cons hs
    rw [List.cons_append, splitOnce, if_neg (Ne.symm hc), ih hs]
    rfl

end Text
