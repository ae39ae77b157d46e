-- SUMMARY: The operator's sizes and apertures, read from text (`parse_size` and `parse_hole` in `src/main.rs`).
import BootShim.Lib.Checked
import BootShim.Lib.Numeral

/-!
# Sizes on the command line

A size is a number, in hexadecimal behind `0x`, with a suffix that scales it or without. An
aperture is two sizes with a colon between them, which is also how a manifest writes one.
-/

namespace BootShim.Cli

open Checked

/-- The digits of a size, and what its suffix multiplies them by. -/
def splitScale (text : List Char) : List Char × Nat :=
  match text.getLast? with
  | some 'K' | some 'k' => (text.dropLast, 1 <<< 10)
  | some 'M' | some 'm' => (text.dropLast, 1 <<< 20)
  | some 'G' | some 'g' => (text.dropLast, 1 <<< 30)
  | _ => (text, 1)

def parseValue (digits : List Char) : Except String Nat :=
  match digits with
  | '0' :: 'x' :: hex => Text.fromStrRadix 16 (2 ^ 64) hex
  | _ => Text.fromStrRadix 10 (2 ^ 64) digits

def parseSize (text : List Char) : Except String UInt64 := do
  let (digits, scale) := splitScale (Text.trim text)
  let value ← parseValue digits
  ensure (value * scale < 2 ^ 64) "size overflows"
  pure (UInt64.ofNat (value * scale))

def parseHole (text : List Char) : Except String (UInt64 × UInt64) :=
  match Text.splitOnce ':' text with
  | none => .error "expected BASE:SIZE"
  | some (base, size) => do
    let base ← parseSize base
    let size ← parseSize size
    pure (base, size)

/-! ## Sizes without a suffix -/

/-- A character of a numeral: neither white space nor a suffix, nor the colon. -/
def Plain (c : Char) : Prop :=
  Text.isWhitespace c = false ∧ c ∉ ['K', 'k', 'M', 'm', 'G', 'g', ':']

instance (c : Char) : Decidable (Plain c) := inferInstanceAs (Decidable (_ ∧ _))

variable {text : List Char}

theorem plain_of_isDigit {radix : Nat} {c : Char} (hradix : radix ≤ 16) (hc : Text.IsDigit radix c) :
    Plain c := Text.forall_isDigit hradix (by decide) hc

theorem splitScale_of_plain (h : ∀ c ∈ text, Plain c) : splitScale text = (text, 1) := by
  have hlast : ∀ c, text.getLast? = some c → c ∉ ['K', 'k', 'M', 'm', 'G', 'g', ':'] :=
    fun c hc => (h c (List.mem_of_getLast? hc)).2
  unfold splitScale
  split
  · next hK => exact absurd (by decide) (hlast _ hK)
  · next hk => exact absurd (by decide) (hlast _ hk)
  · next hM => exact absurd (by decide) (hlast _ hM)
  · next hm => exact absurd (by decide) (hlast _ hm)
  · next hG => exact absurd (by decide) (hlast _ hG)
  · next hg => exact absurd (by decide) (hlast _ hg)
  · rfl

/-- A plain numeral is the size it says. -/
theorem parseSize_of_plain (h : ∀ c ∈ text, Plain c) {n : UInt64}
    (hvalue : parseValue text = .ok n.toNat) : parseSize text = .ok n := by
  have hlt : n.toNat * 1 < 2 ^ 64 := by
    rw [Nat.mul_one]
    exact n.toNat_lt
  rw [parseSize, Text.trim_of_forall fun c hc => (h c hc).1, splitScale_of_plain h]
  simp only
  rw [hvalue, ok_bind, ensure_of hlt, ok_bind, Nat.mul_one, UInt64.ofNat_toNat]
  rfl

theorem toList_hex (n width : Nat) :
    (Text.hex n width).toList = '0' :: 'x' :: Text.hexDigits width n := by
  simp only [Text.hex, String.toList_append, String.toList_ofList]
  rfl

theorem plain_of_mem_hex {n width : Nat} {c : Char} (hc : c ∈ (Text.hex n width).toList) :
    Plain c := by
  rw [toList_hex] at hc
  rcases List.mem_cons.mp hc with rfl | hc
  · decide
  · rcases List.mem_cons.mp hc with rfl | hc
    · decide
    · exact plain_of_isDigit le_rfl (Text.isDigit_of_mem_hexDigits hc)

/-- The hexadecimal numerals of the manifest are read back, however wide they are. -/
theorem parseSize_hex (n : UInt64) (width : Nat) :
    parseSize (Text.hex n.toNat width).toList = .ok n := by
  apply parseSize_of_plain fun c => plain_of_mem_hex
  rw [toList_hex]
  exact Text.fromStrRadix_hexDigits n.toNat_lt

/-! ## Apertures -/

/-- An aperture is read back from the two numerals it is written as. -/
theorem parseHole_hex (base size : UInt64) (width : Nat) :
    parseHole (Text.hex base.toNat width ++ ":" ++ Text.hex size.toNat 0).toList =
      .ok (base, size) := by
  have hcolon : ':' ∉ (Text.hex base.toNat width).toList :=
    fun hmem => (plain_of_mem_hex hmem).2 (by decide)
  have hsplit : Text.splitOnce ':'
      (Text.hex base.toNat width ++ ":" ++ Text.hex size.toNat 0).toList =
      some ((Text.hex base.toNat width).toList, (Text.hex size.toNat 0).toList) := by
    rw [String.toList_append, String.toList_append, List.append_assoc]
    exact Text.splitOnce_append hcolon _
  rw [parseHole, hsplit]
  simp only
  rw [parseSize_hex, parseSize_hex]
  rfl

end BootShim.Cli
