-- SUMMARY: What the measured page tables map: every address below the limit to itself, and on SNP the first gibibyte once more unencrypted.
import BootShim.Image.IdentityMap
import BootShim.Lib.Memory
import BootShim.Lib.Paging
import BootShim.Params

/-!
# The identity map

The tables that `identityMap` writes, walked in a memory that holds them where the
builders place them. The C-bit's position decides whether they are an identity map: a
position among the address bits makes two gibibytes one.
-/

namespace BootShim.PageTables

open Bytes Image Layout Paging

/-- The C-bit of a position. The builders write zero for none. -/
def cBitAt (cBit : Nat) : Option Nat := if cBit = 0 then none else some cBit

/-- The tables of a memory, walked from where the shims point CR3. -/
def mapped (m : Memory) (cBit : Nat) (va : Nat) : Option Mapping :=
  Paging.translate m.word (cBitAt cBit) Layout.pageTables va

/-- What the shims rely on: `top` is the memory the guest has, `shared` whether the first
    gibibyte is to be seen again unencrypted. -/
structure IsIdentity (m : Memory) (cBit top : Nat) (shared : Bool) : Prop where
  low : ∀ a, a < top ∨ a < mapLimit → mapped m cBit a =
    some { phys := a, writable := true, executable := true, encrypted := shared }
  second : shared = true → ∀ a < gib, ∃ t, mapped m cBit (sharedAlias + a) = some t ∧
    t.phys = a ∧ t.encrypted = false
  unmapped : ∀ a, top ≤ a → mapLimit ≤ a →
    ¬ (shared = true ∧ sharedAlias ≤ a ∧ a < sharedAlias + gib) → mapped m cBit a = none
  injective : ∀ a b, a < mapLimit → b < mapLimit →
    (mapped m cBit a).map Mapping.phys = (mapped m cBit b).map Mapping.phys → a = b

variable {m : Memory} {cBit a : Nat} {shared : Bool}

theorem cMask_eq (cBit : Nat) : cMask cBit = mask (cBitAt cBit) := by
  unfold cMask cBitAt
  split
  · rfl
  · exact Nat.one_shiftLeft cBit

theorem cBitAt_eq_some {i : Nat} : cBitAt cBit = some i ↔ cBit ≠ 0 ∧ cBit = i := by
  unfold cBitAt
  split <;> simp_all

/-- A position the builders use: none, or one that Params::new lets through. -/
def Position (cBit : Nat) : Prop := cBit = 0 ∨ 32 ≤ cBit ∧ cBit ≤ 63

/-! ## Walking the tables -/

section

variable (h : m.Holds Layout.pageTables (identityMap cBit shared)) (hc : Position cBit)

include h hc

/-- The words of the tables as a walk reads them. -/
theorem word_entry {i : Nat} (hi : i < (if shared then 3 else 2) * 512) :
    m.word (Layout.pageTables + i * 8) = identityEntry cBit shared i := by
  have hlen := length_identityMap cBit shared
  have hfit : i * 8 + 8 ≤ (identityMap cBit shared).length := by
    rw [hlen]
    cases shared <;> simp only [if_true, Bool.false_eq_true, if_false, page] at hi ⊢ <;> omega
  have hlt : cBit < 64 := by
    rcases hc with hc | hc <;> omega
  rw [h.word hfit, getLE_identityMap hlt hfit]

omit h in
/-- None of the flags, nor an address below 4 GiB, has the C-bit. -/
private theorem low_bits (base flags : Nat) {i : Nat} (hi : i < 32) :
    (base ||| mask (cBitAt cBit) ||| flags).testBit i = (base.testBit i || flags.testBit i) := by
  have hne : cBitAt cBit ≠ some i := by
    rw [ne_eq, cBitAt_eq_some]
    rcases hc with hc | hc <;> omega
  rw [testBit_entry]
  simp [hne]

omit h in
private theorem without_table {base : Nat} (hbase : base < 2 ^ 32) :
    without (cBitAt cBit) base = base := by
  unfold cBitAt
  split
  · exact without_none base
  · refine without_of_lt (hbase.trans_le (Nat.pow_le_pow_right (by decide) ?_))
    rcases hc with hc | hc <;> omega

omit h hc in
/-- Bit 63 is the C-bit of the last position and otherwise clear. -/
private theorem no_execute (cBit : Nat) {base flags : Nat} (hbase : base < 2 ^ 63)
    (hflags : flags < 2 ^ 63) :
    (!(base ||| mask (cBitAt cBit) ||| flags).testBit 63) = decide (cBit ≠ 63) := by
  rw [testBit_entry, Nat.testBit_lt_two_pow hbase, Nat.testBit_lt_two_pow hflags, Bool.false_or,
    Bool.or_false]
  have hiff : cBitAt cBit = some 63 ↔ cBit = 63 := by
    rw [cBitAt_eq_some]
    omega
  simp [hiff]

omit h hc in
/-- The C-bit is set in every entry that has one. -/
private theorem isEncrypted_entry (cBit base flags : Nat) :
    isEncrypted (cBitAt cBit) (base ||| mask (cBitAt cBit) ||| flags) = decide (cBit ≠ 0) := by
  unfold cBitAt
  split
  · next hzero => simp [isEncrypted, hzero]
  · next hzero =>
    rw [isEncrypted, Option.any_some, testBit_entry]
    simp [hzero]

omit h in
/-- A walk goes on in the table that its entry of the top one names. -/
private theorem walk_root {table : Nat}
    (htable : table = Layout.pageTables + page ∨ table = Layout.pageTables + 2 * page)
    (hroot : m.word (Layout.pageTables + a / 2 ^ (12 + 9 * 3) % 512 * 8) =
      table ||| mask (cBitAt cBit) ||| 3) :
    walk m.word (cBitAt cBit) a 4 Layout.pageTables =
      (walk m.word (cBitAt cBit) a 3 table).map fun t =>
        { t with executable := decide (cBit ≠ 63) && t.executable } := by
  have hlt : table < 2 ^ 32 := by rcases htable with rfl | rfl <;> decide
  have haligned : table % 2 ^ 12 = 0 := by rcases htable with rfl | rfl <;> decide
  have hclear : ∀ i < 12, table.testBit i = false := fun i hi => testBit_of_mod haligned hi
  have hnext : address (cBitAt cBit) (table ||| mask (cBitAt cBit) ||| 3) = table := by
    rw [address_entry haligned (by omega) (by decide), without_table hc hlt]
  rw [walk_of_table hroot (by decide) (by rw [low_bits hc _ _ (by decide), hclear 0 (by decide)]; rfl)
    (by rw [low_bits hc _ _ (by decide), hclear 7 (by decide)]; rfl), hnext,
    no_execute cBit (by omega) (by decide), low_bits hc _ _ (by decide), hclear 1 (by decide)]
  rfl

/-- Below the limit a walk reads the second table, at the gibibyte's entry. -/
theorem mapped_low (ha : a < mapLimit) :
    mapped m cBit a = some {
      phys := without (cBitAt cBit) (a / gib * gib) + a % gib
      writable := true
      executable := decide (cBit ≠ 63)
      encrypted := decide (cBit ≠ 0) } := by
  simp only [mapLimit, gib] at ha
  have hroot : m.word (Layout.pageTables + a / 2 ^ (12 + 9 * 3) % 512 * 8) =
      (Layout.pageTables + page) ||| mask (cBitAt cBit) ||| 3 := by
    have hzero : a / 2 ^ (12 + 9 * 3) % 512 = 0 := by omega
    rw [hzero, word_entry h hc (by cases shared <;> decide), ← cMask_eq]
    rfl
  have hindex : a / 2 ^ (12 + 9 * 2) % 512 = a / gib := by
    simp only [gib]
    omega
  have hleaf : m.word (Layout.pageTables + page + a / 2 ^ (12 + 9 * 2) % 512 * 8) =
      a / gib * gib ||| mask (cBitAt cBit) ||| 0x83 := by
    have hat : Layout.pageTables + page + a / gib * 8 = Layout.pageTables + (512 + a / gib) * 8 := by
      simp only [page]
      omega
    rw [hindex, hat, word_entry h hc (by simp only [gib]; cases shared <;> simp <;> omega),
      identityEntry, if_neg (by omega), if_neg (by omega),
      if_pos ⟨by omega, by simp only [gib]; omega⟩, Nat.add_sub_cancel_left, cMask_eq]
  have hbase : a / gib * gib < 2 ^ 39 := by
    simp only [gib]
    omega
  have haligned : a / gib * gib % 2 ^ 30 = 0 := by
    simp only [gib]
    omega
  have hlow : ∀ i < 12, (a / gib * gib).testBit i = false := fun i hi =>
    testBit_of_mod haligned (by omega)
  have hwhole : without (cBitAt cBit) (a / gib * gib) % 2 ^ 30 = 0 := without_mod haligned
  have hphys : without (cBitAt cBit) (a / gib * gib) / 2 ^ (12 + 9 * 2) * 2 ^ (12 + 9 * 2) =
      without (cBitAt cBit) (a / gib * gib) := by
    omega
  have hpage := no_execute cBit (hbase.trans (by decide)) (show 0x83 < 2 ^ 63 by decide)
  rw [mapped, Paging.translate, if_pos (Or.inl (by omega)), walk_root hc (Or.inl rfl) hroot,
    walk_of_large hleaf (by decide) (by rw [low_bits hc _ _ (by decide), hlow 0 (by decide)]; decide)
      (by rw [low_bits hc _ _ (by decide), hlow 7 (by decide)]; decide),
    address_entry (by omega) (by omega) (by decide), hphys, hpage, low_bits hc _ _ (by decide),
    hlow 1 (by decide), isEncrypted_entry]
  simp only [Option.map_some, Bool.and_self]
  rfl

/-- An entry of the top table past the first, and past the second where it is used, maps
    nothing. -/
private theorem walk_of_unused (ha : 1 ≤ a / 2 ^ 39 % 512)
    (hunused : ¬ (a / 2 ^ 39 % 512 = 1 ∧ shared = true)) :
    walk m.word (cBitAt cBit) a 4 Layout.pageTables = none := by
  refine walk_of_not_present ?_
  have hi : a / 2 ^ (12 + 9 * 3) % 512 < 512 := Nat.mod_lt _ (by decide)
  rw [word_entry h hc (hi.trans_le (by cases shared <;> decide)), identityEntry,
    if_neg (show ¬ a / 2 ^ 39 % 512 = 0 by omega), if_neg hunused, if_neg (by omega), if_neg (by omega),
    Nat.zero_testBit]

theorem mapped_none (ha : mapLimit ≤ a)
    (hout : ¬ (shared = true ∧ sharedAlias ≤ a ∧ a < sharedAlias + gib)) : mapped m cBit a = none := by
  simp only [mapLimit, gib, sharedAlias] at ha hout
  rw [mapped, Paging.translate]
  split
  swap
  · rfl
  by_cases hsecond : a / 2 ^ 39 % 512 = 1 ∧ shared = true
  swap
  · exact walk_of_unused h hc (by omega) hsecond
  obtain ⟨hindex, rfl⟩ := hsecond
  have habove : ¬ (sharedAlias ≤ a ∧ a < sharedAlias + gib) := fun hin => hout ⟨rfl, hin⟩
  simp only [sharedAlias, gib] at habove
  have hroot : m.word (Layout.pageTables + a / 2 ^ (12 + 9 * 3) % 512 * 8) =
      (Layout.pageTables + 2 * page) ||| mask (cBitAt cBit) ||| 3 := by
    rw [show a / 2 ^ (12 + 9 * 3) % 512 = 1 from hindex, word_entry h hc (by decide), ← cMask_eq]
    rfl
  have hleaf : m.word (Layout.pageTables + 2 * page + a / 2 ^ (12 + 9 * 2) % 512 * 8) = 0 := by
    have hat : Layout.pageTables + 2 * page + a / 2 ^ (12 + 9 * 2) % 512 * 8 =
        Layout.pageTables + (1024 + a / 2 ^ (12 + 9 * 2) % 512) * 8 := by
      simp only [page]
      omega
    rw [hat, word_entry h hc (by simp only [if_true]; omega), identityEntry, if_neg (by omega),
      if_neg (by omega), if_neg (by omega), if_neg (by omega)]
  rw [walk_root hc (Or.inr rfl) hroot,
    walk_of_not_present (by rw [hleaf, Nat.zero_testBit]), Option.map_none]

end

/-- The first gibibyte is seen again at the shared alias, without the C-bit. -/
theorem mapped_second (h : m.Holds Layout.pageTables (identityMap cBit true)) (hc : Position cBit)
    (ha : a < gib) :
    mapped m cBit (sharedAlias + a) = some {
      phys := a
      writable := true
      executable := decide (cBit ≠ 63)
      encrypted := false } := by
  simp only [gib] at ha
  have hroot : m.word (Layout.pageTables + (sharedAlias + a) / 2 ^ (12 + 9 * 3) % 512 * 8) =
      (Layout.pageTables + 2 * page) ||| mask (cBitAt cBit) ||| 3 := by
    have hindex : (sharedAlias + a) / 2 ^ (12 + 9 * 3) % 512 = 1 := by
      simp only [sharedAlias]
      omega
    rw [hindex, word_entry h hc (by decide), ← cMask_eq]
    rfl
  have hleaf : m.word (Layout.pageTables + 2 * page + (sharedAlias + a) / 2 ^ (12 + 9 * 2) % 512 * 8) =
      0x83 := by
    have hindex : (sharedAlias + a) / 2 ^ (12 + 9 * 2) % 512 = 0 := by
      simp only [sharedAlias]
      omega
    rw [hindex, show Layout.pageTables + 2 * page + 0 * 8 = Layout.pageTables + 1024 * 8 from rfl,
      word_entry h hc (by decide)]
    rfl
  have hphys : address (cBitAt cBit) 0x83 = 0 := by
    rw [address, show 0x83 % 2 ^ 52 / 2 ^ 12 * 2 ^ 12 = 0 by decide, without, Nat.zero_and,
      Nat.xor_self]
  have hplain : isEncrypted (cBitAt cBit) 0x83 = false := by
    unfold cBitAt
    split
    · rfl
    · rw [isEncrypted, Option.any_some]
      refine Nat.testBit_lt_two_pow (lt_of_lt_of_le (show 0x83 < 2 ^ 32 by decide) ?_)
      exact Nat.pow_le_pow_right (by decide) (by rcases hc with hc | hc <;> omega)
  have hoffset : (sharedAlias + a) % 2 ^ (12 + 9 * 2) = a := by
    simp only [sharedAlias]
    omega
  rw [mapped, Paging.translate, if_pos (Or.inl (by simp only [sharedAlias]; omega)),
    walk_root hc (Or.inr rfl) hroot,
    walk_of_large hleaf (by decide) (by decide) (by decide), hphys, hplain, hoffset, Nat.zero_div,
    Nat.zero_mul, Nat.zero_add, Option.map_some,
    show (0x83 : Nat).testBit 1 = true by decide, show (0x83 : Nat).testBit 63 = false by decide,
    Bool.not_false, Bool.and_true]

/-! ## When they are an identity map -/

/-- A position past the map's own address bits, and within the ignored ones, takes nothing
    from an address. -/
theorem isIdentity_of_position {top : Nat} (h : m.Holds Layout.pageTables (identityMap cBit shared))
    (htop : top ≤ mapLimit) (hc : cBit = 0 ∧ shared = false ∨ (39 ≤ cBit ∧ cBit ≤ 62) ∧ shared = true) :
    IsIdentity m cBit top shared := by
  have hpos : Position cBit := by
    rcases hc with hc | hc
    · exact Or.inl hc.1
    · exact Or.inr (by omega)
  have hlow : ∀ a, a < mapLimit → mapped m cBit a =
      some { phys := a, writable := true, executable := true, encrypted := shared } := by
    intro a ha
    have hbase : without (cBitAt cBit) (a / gib * gib) = a / gib * gib := by
      unfold cBitAt
      split
      · exact without_none _
      · have hlt : a / gib * gib < 2 ^ 39 := by
          simp only [mapLimit, gib] at *
          omega
        exact without_of_lt (hlt.trans_le (Nat.pow_le_pow_right (by decide) (by omega)))
    have hexec : decide (cBit ≠ 63) = true := decide_eq_true (by omega)
    have hshared : decide (cBit ≠ 0) = shared := by
      rcases hc with ⟨rfl, rfl⟩ | ⟨hc, rfl⟩
      · rfl
      · exact decide_eq_true (by omega)
    rw [mapped_low h hpos ha, hbase, Nat.div_add_mod', hexec, hshared]
  refine ⟨fun a ha => hlow a (ha.elim htop.trans_lt' id), ?_,
    fun a _ ha hout => mapped_none h hpos ha hout, fun a b ha hb hphys => ?_⟩
  · rintro rfl a ha
    exact ⟨_, mapped_second h hpos ha, rfl, rfl⟩
  · rw [hlow a ha, hlow b hb] at hphys
    exact Option.some.inj hphys

/-- The last position makes every page no-execute, and one within the map's address bits
    maps its own power of two to zero. -/
theorem position_of_isIdentity {top : Nat} (h : m.Holds Layout.pageTables (identityMap cBit true))
    (hc : 32 ≤ cBit ∧ cBit ≤ 63) (hid : IsIdentity m cBit top true) : 39 ≤ cBit ∧ cBit ≤ 62 := by
  have hpos : Position cBit := Or.inr hc
  constructor
  · by_contra hlt
    have hle : 2 ^ cBit ≤ 2 ^ 38 := Nat.pow_le_pow_right (by decide) (by omega)
    have ha : 2 ^ cBit < mapLimit := by
      simp only [mapLimit, gib]
      omega
    have haligned : 2 ^ cBit / gib * gib = 2 ^ cBit := by
      have hsplit : 2 ^ cBit = 2 ^ (cBit - 30) * gib := by
        rw [show gib = 2 ^ 30 from rfl, ← Nat.pow_add]
        congr 1
        omega
      rw [hsplit, Nat.mul_div_cancel _ (by decide)]
    have hmod : 2 ^ cBit % gib = 0 := by
      have hdiv := Nat.div_add_mod' (2 ^ cBit) gib
      omega
    have hcBit : cBitAt cBit = some cBit := cBitAt_eq_some.mpr ⟨by omega, rfl⟩
    have hlow := hid.low (2 ^ cBit) (Or.inr ha)
    rw [mapped_low h hpos ha, haligned, hmod, hcBit, without_two_pow] at hlow
    have hzero := congrArg Mapping.phys (Option.some.inj hlow)
    have hpow := Nat.two_pow_pos cBit
    simp only at hzero
    omega
  · by_contra hgt
    have hlow := hid.low 0 (Or.inr (by decide))
    rw [mapped_low h hpos (by decide)] at hlow
    have hexec := congrArg Mapping.executable (Option.some.inj hlow)
    have hne : cBit ≠ 63 := of_decide_eq_true hexec
    omega

/-- The TDX tables are an identity map for every admitted guest. The SNP tables are one
    exactly for a C-bit above the map's address bits and below the no-execute bit. -/
theorem identityMap_isIdentity_iff (ram : UInt64) (vcpus : UInt32) (cmdline : List Char)
    (mmio : List (UInt64 × UInt64)) (params : Params) (m : Memory) :
    (Params.tdx ram vcpus cmdline mmio = .ok params →
      m.Holds Layout.pageTables (identityMap 0 false) → IsIdentity m 0 params.memory false) ∧
    ∀ cBit : UInt8, Params.snp ram vcpus cBit cmdline mmio = .ok params →
      m.Holds Layout.pageTables (identityMap params.cbit true) →
        (IsIdentity m params.cbit params.memory true ↔ 39 ≤ params.cbit ∧ params.cbit ≤ 62) := by
  constructor
  · intro hparams hm
    exact isIdentity_of_position hm (Params.valid_of_tdx hparams).memory_le (Or.inl ⟨rfl, rfl⟩)
  · intro cBit hparams hm
    have hvalid := Params.valid_of_snp hparams
    exact ⟨position_of_isIdentity hm ⟨hvalid.cbit_ge, hvalid.cbit_le⟩,
      fun hc => isIdentity_of_position hm hvalid.memory_le (Or.inr ⟨hc, rfl⟩)⟩

/-- The guests of the default C-bit, TDX and SNP. -/
theorem identityMap_isIdentity_sample :
    IsIdentity (Memory.store (fun _ => 0) Layout.pageTables (identityMap 0 false)) 0 0x40000000 false ∧
      IsIdentity (Memory.store (fun _ => 0) Layout.pageTables (identityMap 51 true)) 51 0x40000000
        true :=
  ⟨(identityMap_isIdentity_iff 0x40000000 1 [] [] ⟨0x40000000, 1, "panic=-1 no5lvl".toList, 51, []⟩
      _).1 (by decide +kernel) (Memory.holds_store_self _ _ _),
    ((identityMap_isIdentity_iff 0x40000000 1 [] [] ⟨0x40000000, 1, "panic=-1 no5lvl".toList, 51, []⟩
      _).2 51 (by decide +kernel) (Memory.holds_store_self _ _ _)).mpr (by decide)⟩

/-- A C-bit of 32 is admitted, and leaves 4 GiB where zero is. -/
theorem not_isIdentity_of_low_position : ∃ params, ∃ m : Memory,
    Params.snp 0x40000000 1 32 [] [] = .ok params ∧
      m.Holds Layout.pageTables (identityMap params.cbit true) ∧
        mapped m params.cbit 0x100000000 = mapped m params.cbit 0 ∧
          ¬ IsIdentity m params.cbit params.memory true := by
  have hm := Memory.holds_store_self (fun _ => 0) Layout.pageTables (identityMap 32 true)
  refine ⟨⟨0x40000000, 1, "panic=-1 no5lvl".toList, 32, []⟩, _, by decide +kernel, hm, ?_, fun hid => ?_⟩
  · rw [mapped_low hm (Or.inr (by decide)) (by decide), mapped_low hm (Or.inr (by decide)) (by decide)]
    decide
  · exact absurd (position_of_isIdentity hm (by decide) hid).1 (by decide)

end BootShim.PageTables
