-- SUMMARY: Numbers read out of text: digits in a base, an optional plus sign, and the limit of a machine type.
import BootShim.Lib.Commitment
import BootShim.Lib.Text

/-!
# Numerals

`fromStrRadix` reads a number below a limit. The first character that does not fit ends it,
because it is no digit or because the number outgrows the limit, and each has its message.
-/

namespace Text

/-- The value of a digit. From ten on the digits are letters of either case. -/
def toDigit (radix : Nat) (c : Char) : Option Nat :=
  let n := c.toNat
  let d :=
    if 0x30 ≤ n ∧ n ≤ 0x39 then n - 0x30
    else if 0x61 ≤ n ∧ n ≤ 0x7a then n - 0x61 + 10
    else if 0x41 ≤ n ∧ n ≤ 0x5a then n - 0x41 + 10
    else radix
  if d < radix then some d else none

/-- Reads digits behind a number that has been read. -/
def readDigits (radix limit n : Nat) : List Char → Except String Nat
  | [] => .ok n
  | c :: s =>
    match toDigit radix c with
    | none => .error "invalid digit found in string"
    | some d =>
      if n * radix + d < limit then readDigits radix limit (n * radix + d) s
      else .error "number too large to fit in target type"

/-- Reads a number below the limit, with or without a plus sign. -/
def fromStrRadix (radix limit : Nat) : List Char → Except String Nat
  | [] => .error "cannot parse integer from empty string"
  | ['+'] => .error "invalid digit found in string"
  | '+' :: s => readDigits radix limit 0 s
  | s => readDigits radix limit 0 s

variable {radix limit n : Nat} {c : Char} {s : List Char}

/-! ## The digits that are written -/

/-- A digit as it is written. -/
def IsDigit (radix : Nat) (c : Char) : Prop := ∃ d < radix, c = Nat.digitChar d

theorem isDigit_of_mem_toDigits (hradix : 1 < radix) (hc : c ∈ Nat.toDigits radix n) :
    IsDigit radix c := by
  induction n using Nat.strongRecOn with
  | ind n ih =>
    rw [Nat.toDigits_eq_if hradix] at hc
    split at hc
    · next hlt => exact ⟨n, hlt, List.mem_singleton.mp hc⟩
    · next hge =>
      rcases List.mem_append.mp hc with hc | hc
      · exact ih (n / radix) (Nat.div_lt_self (by omega) hradix) hc
      · exact ⟨n % radix, Nat.mod_lt n (by omega), List.mem_singleton.mp hc⟩

theorem isDigit_of_mem_hexDigits {width : Nat} (hc : c ∈ hexDigits width n) : IsDigit 16 c := by
  rcases List.mem_append.mp hc with hc | hc
  · exact ⟨0, by decide, List.eq_of_mem_replicate hc⟩
  · exact isDigit_of_mem_toDigits (by decide) hc

/-- Of the bases up to sixteen, what holds of every digit holds of the sixteen. -/
theorem forall_isDigit {P : Char → Prop} (hradix : radix ≤ 16)
    (h : ∀ d : Fin 16, P (Nat.digitChar d)) (hc : IsDigit radix c) : P c := by
  obtain ⟨d, hd, rfl⟩ := hc
  exact h ⟨d, hd.trans_le hradix⟩

/-! ## Reading them back -/

theorem toDigit_digitChar (hradix : radix ≤ 16) (hn : n < radix) :
    toDigit radix (Nat.digitChar n) = some n := by
  have hall : ∀ r : Fin 17, ∀ d : Fin 16, d.val < r.val → toDigit r (Nat.digitChar d) = some d.val := by
    decide +kernel
  exact hall ⟨radix, Nat.lt_succ_of_le hradix⟩ ⟨n, hn.trans_le hradix⟩ hn

theorem readDigits_cons : readDigits radix limit n (c :: s) =
    match toDigit radix c with
    | none => .error "invalid digit found in string"
    | some d =>
      if n * radix + d < limit then readDigits radix limit (n * radix + d) s
      else .error "number too large to fit in target type" := rfl

/-- A digit that fits is taken in. -/
theorem readDigits_cons_of_lt {d : Nat} (hdigit : toDigit radix c = some d)
    (hlt : n * radix + d < limit) :
    readDigits radix limit n (c :: s) = readDigits radix limit (n * radix + d) s := by
  rw [readDigits_cons, hdigit]
  exact if_pos hlt

/-- Digits are read from the left. -/
theorem readDigits_append (t : List Char) :
    readDigits radix limit n (s ++ t) =
      readDigits radix limit n s >>= fun m => readDigits radix limit m t := by
  induction s generalizing n with
  | nil => rfl
  | cons c s ih =>
    rw [List.cons_append, readDigits_cons, readDigits_cons]
    cases toDigit radix c with
    | none => rfl
    | some d =>
      simp only
      split
      · exact ih
      · rfl

/-- Leading zeros count for nothing. -/
theorem readDigits_replicate_append (hradix : 1 < radix) (hle : radix ≤ 16) (hlimit : 0 < limit)
    (k : Nat) :
    readDigits radix limit 0 (List.replicate k '0' ++ s) = readDigits radix limit 0 s := by
  have hzero : toDigit radix '0' = some 0 := toDigit_digitChar (n := 0) hle (by omega)
  induction k with
  | zero => rfl
  | succ k ih =>
    rw [List.replicate_succ, List.cons_append, readDigits_cons_of_lt hzero (by omega)]
    simpa using ih

/-- A number below the limit is read back from its digits. -/
theorem readDigits_toDigits (hradix : 1 < radix) (hle : radix ≤ 16) (hn : n < limit) :
    readDigits radix limit 0 (Nat.toDigits radix n) = .ok n := by
  induction n using Nat.strongRecOn with
  | ind n ih =>
    rw [Nat.toDigits_eq_if hradix]
    split
    · next hlt =>
      rw [readDigits_cons_of_lt (toDigit_digitChar hle hlt) (by omega), Nat.zero_mul, Nat.zero_add]
      rfl
    · next hge =>
      have hmod : n % radix < radix := Nat.mod_lt n (by omega)
      have hdiv : n / radix < n := Nat.div_lt_self (by omega) hradix
      have hsum : n / radix * radix + n % radix = n := Nat.div_add_mod' n radix
      rw [readDigits_append, ih (n / radix) hdiv (hdiv.trans hn)]
      change readDigits radix limit (n / radix) [Nat.digitChar (n % radix)] = _
      rw [readDigits_cons_of_lt (toDigit_digitChar hle hmod) (by rwa [hsum]), hsum]
      rfl

/-- Digits alone are read as they are. -/
theorem fromStrRadix_of_isDigit (hradix : radix ≤ 16) (hnil : s ≠ [])
    (hs : ∀ c ∈ s, IsDigit radix c) :
    fromStrRadix radix limit s = readDigits radix limit 0 s := by
  have hplus : ∀ c ∈ s, c ≠ '+' := fun c hc =>
    forall_isDigit (P := fun c => c ≠ '+') hradix (by decide) (hs c hc)
  unfold fromStrRadix
  split
  · exact absurd rfl hnil
  · exact absurd rfl (hplus '+' List.mem_cons_self)
  · exact absurd rfl (hplus '+' List.mem_cons_self)
  · rfl

/-- A hexadecimal numeral is read back, however wide it is written. -/
theorem fromStrRadix_hexDigits {width : Nat} (hn : n < limit) :
    fromStrRadix 16 limit (hexDigits width n) = .ok n := by
  have hnil : hexDigits width n ≠ [] := List.append_ne_nil_of_right_ne_nil _ Nat.toDigits_ne_nil
  rw [fromStrRadix_of_isDigit (by decide) hnil fun c => isDigit_of_mem_hexDigits, hexDigits]
  exact (readDigits_replicate_append (by decide) (by decide) (by omega) _).trans
    (readDigits_toDigits (by decide) (by decide) hn)

/-! ## Bytes as digits -/

theorem length_hexDigits_two (b : UInt8) : (hexDigits 2 b.toNat).length = 2 := by
  have hle : (Nat.toDigits 16 b.toNat).length ≤ 2 :=
    (Nat.length_toDigits_le_iff (by decide) (by decide)).mpr b.toNat_lt
  rw [hexDigits, List.length_append, List.length_replicate]
  omega

/-- The text of a row of bytes settles the bytes. -/
theorem hexEncode_injective : Function.Injective hexEncode := by
  intro bs cs h
  have hflat : bs.flatMap (fun b => hexDigits 2 b.toNat) =
      cs.flatMap fun b => hexDigits 2 b.toNat := String.ofList_inj.mp h
  refine (Commitment.flatMap_eq_iff (n := 2) (by decide) (fun b _ => length_hexDigits_two b)
    (fun b _ => length_hexDigits_two b) fun b _ c _ hbc => ?_).mp hflat
  have hread : ∀ b : UInt8, hexValue (hexDigits 2 b.toNat) = b.toNat := fun b =>
    (hexValue_replicate_append _ _).trans (hexValue_toDigits _)
  rw [← UInt8.toNat_inj, ← hread b, ← hread c, hbc]

end Text
