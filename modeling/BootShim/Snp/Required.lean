-- SUMMARY: What memory the RequiredMemory directives of an SNP image ask a loader for.
import BootShim.Boot.Exact
import BootShim.Lib.Runs
import BootShim.Snp.Build

/-!
# Required memory

The entries of an E820 map are merged into runs whatever their types, and each run is
cut into directives that a 32-bit length can state. Both loops are those of the library
on intervals: the directives are the pieces of the runs, none of them truncated.
-/

namespace BootShim.Snp

open Boot Igvm Image Layout

/-- The directive that asks for a piece of memory, its length untruncated. -/
def requiredDirective (t : Tile Nat Unit) : Directive :=
  .requiredMemory t.lo compat (t.hi - t.lo) false

/-- The range a directive asks a loader to find memory for. -/
def requiredRange : Directive → Option (Nat × Nat)
  | .requiredMemory gpa _ numberOfBytes _ => some (gpa, gpa + numberOfBytes)
  | _ => none

/-- A directive of the list asks for memory at the address. -/
def Requires (directives : List Directive) (a : Nat) : Prop :=
  ∃ d ∈ directives, ∃ r ∈ requiredRange d, r.1 ≤ a ∧ a < r.2

/-! ## The two loops -/

/-- The first loop merges the entries as the library does. -/
theorem map_mergeEntries {e820 : List (Nat × Nat × Nat)} (hpos : ∀ e ∈ e820, 0 < e.2.1) :
    (mergeEntries e820).map rangeTile = Tile.merge (e820.map entryTile) := by
  have hpush : ∀ (out : List (Nat × Nat)) (e : Nat × Nat × Nat), 0 < e.2.1 →
      (pushRun out e.1 (e.1 + e.2.1)).map rangeTile =
        Tile.push (out.map rangeTile) (entryTile e).untagged := by
    intro out e he
    have hne : ¬ e.1 + e.2.1 ≤ e.1 := by omega
    cases out with
    | nil => simp [pushRun, Tile.push, rangeTile, entryTile, Tile.untagged, hne]
    | cons last rest =>
      simp only [pushRun, Tile.push, rangeTile, entryTile, Tile.untagged, List.map_cons, if_neg hne,
        and_true]
      split <;> rfl
  have hloop : ∀ out : List (Nat × Nat),
      (e820.foldl (fun out e => pushRun out e.1 (e.1 + e.2.1)) out).map rangeTile =
        (e820.map entryTile).foldl (fun out t => Tile.push out t.untagged) (out.map rangeTile) := by
    induction e820 with
    | nil => intro out; rfl
    | cons e es ih =>
      intro out
      rw [List.forall_mem_cons] at hpos
      rw [List.foldl_cons, List.map_cons, List.foldl_cons, ih hpos.2, hpush out e hpos.1]
  rw [mergeEntries, List.map_reverse, hloop, Tile.merge, List.map_nil]

/-- The second loop cuts a run as the library does: the cast to 32 bits loses nothing. -/
theorem splitRun_eq (pos stop : Nat) :
    splitRun pos stop = (Tile.cut requiredMemoryMax pos stop).map requiredDirective := by
  fun_induction splitRun pos stop with
  | case1 pos hlt bytes ih =>
    have hbytes : min (stop - pos) requiredMemoryMax % 2 ^ 32 =
        pos + min (stop - pos) requiredMemoryMax - pos := by
      rw [Nat.add_sub_cancel_left]
      exact Nat.mod_eq_of_lt ((min_le_right _ _).trans_lt (by decide))
    rw [Tile.cut, dif_pos ⟨hlt, by decide⟩, List.map_cons, ih, requiredDirective, ← hbytes]
  | case2 pos hge =>
    rw [Tile.cut, dif_neg fun h => hge h.1]
    rfl

theorem requiredMemory_eq {e820 : List (Nat × Nat × Nat)} (hpos : ∀ e ∈ e820, 0 < e.2.1) :
    requiredMemory e820 =
      (Tile.cuts requiredMemoryMax (Tile.merge (e820.map entryTile))).map requiredDirective := by
  rw [← map_mergeEntries hpos, requiredMemory, Tile.cuts, List.map_flatMap, List.flatMap_map]
  exact List.flatMap_congr fun run _ => splitRun_eq run.1 run.2

/-! ## What the directives ask for -/

/-- The directives ask for exactly the memory the entries state, in order, without
    overlap and in lengths a loader can take as they are. -/
structure RequiresExactly (e820 : List (Nat × Nat × Nat)) (directives : List Directive) : Prop where
  stated : ∀ d ∈ directives, ∃ gpa bytes, d = .requiredMemory gpa compat bytes false ∧
    gpa % page = 0 ∧ bytes % page = 0 ∧ 0 < bytes ∧ bytes < 2 ^ 32
  ascending : directives.Pairwise fun d d' =>
    ∀ r ∈ requiredRange d, ∀ r' ∈ requiredRange d', r.2 ≤ r'.1
  union : ∀ a, Requires directives a ↔ ∃ e ∈ e820, EntryHolds e a

theorem requires_map_iff {ts : List (Tile Nat Unit)} (hts : ∀ t ∈ ts, t.lo ≤ t.hi) {a : Nat} :
    Requires (ts.map requiredDirective) a ↔ Tile.Covers ts a () := by
  simp only [Requires, List.mem_map, exists_exists_and_eq_and]
  refine exists_congr fun t => and_congr_right fun ht => ?_
  have hsum : t.lo + (t.hi - t.lo) = t.hi := Nat.add_sub_cancel' (hts t ht)
  simp [requiredDirective, requiredRange, hsum, Tile.Mem]

/-- Of entries that ascend on page boundaries the directives miss and add nothing. -/
theorem requiresExactly_requiredMemory {e820 : List (Nat × Nat × Nat)}
    (hpos : ∀ e ∈ e820, 0 < e.2.1) (hasc : e820.Pairwise fun e f => e.1 + e.2.1 ≤ f.1)
    (haligned : ∀ e ∈ e820, e.1 % page = 0 ∧ (e.1 + e.2.1) % page = 0) :
    RequiresExactly e820 (requiredMemory e820) := by
  have htiles : ∀ t ∈ e820.map entryTile, t.lo < t.hi := by
    intro t ht
    obtain ⟨e, he, rfl⟩ := List.mem_map.mp ht
    exact Nat.lt_add_of_pos_right (hpos e he)
  have hruns : Tile.Canonical (Tile.merge (e820.map entryTile)) :=
    Tile.canonical_merge htiles (List.pairwise_map.mpr hasc)
  have hends : ∀ t ∈ Tile.merge (e820.map entryTile), page ∣ t.lo ∧ page ∣ t.hi := by
    apply Tile.ends_of_mem_merge
    intro t ht
    obtain ⟨e, he, rfl⟩ := List.mem_map.mp ht
    exact ⟨Nat.dvd_of_mod_eq_zero (haligned e he).1, Nat.dvd_of_mod_eq_zero (haligned e he).2⟩
  have hpiece : ∀ t ∈ Tile.cuts requiredMemoryMax (Tile.merge (e820.map entryTile)),
      (t.lo < t.hi ∧ t.hi - t.lo ≤ requiredMemoryMax) ∧ page ∣ t.lo ∧ page ∣ t.hi := by
    intro t ht
    obtain ⟨run, hrun, ht⟩ := List.mem_flatMap.mp ht
    have hbounds := Tile.bounds_of_mem_cut ht
    have hcap : page ∣ requiredMemoryMax := by decide
    exact ⟨⟨hbounds.2.1, hbounds.2.2.2⟩,
      Tile.dvd_of_mem_cut hcap (hends run hrun).1 (hends run hrun).2 ht⟩
  rw [requiredMemory_eq hpos]
  refine ⟨?_, ?_, ?_⟩
  · intro d hd
    obtain ⟨t, ht, rfl⟩ := List.mem_map.mp hd
    obtain ⟨⟨hlt, hle⟩, hlo, hhi⟩ := hpiece t ht
    refine ⟨t.lo, t.hi - t.lo, rfl, Nat.mod_eq_zero_of_dvd hlo,
      Nat.mod_eq_zero_of_dvd (Nat.dvd_sub hhi hlo), Nat.sub_pos_of_lt hlt, hle.trans_lt (by decide)⟩
  · rw [List.pairwise_map]
    have hcuts : (Tile.cuts requiredMemoryMax (Tile.merge (e820.map entryTile))).Pairwise
        fun s t => s.hi ≤ t.lo := Tile.pairwise_cuts hruns.ascending
    refine hcuts.imp_of_mem fun {s t} hs _ hst => ?_
    have hsum : s.lo + (s.hi - s.lo) = s.hi := Nat.add_sub_cancel' (hpiece s hs).1.1.le
    simpa [requiredDirective, requiredRange, hsum] using hst
  · intro a
    rw [requires_map_iff fun t ht => (hpiece t ht).1.1.le, Tile.covers_cuts (by decide),
      Tile.covers_merge htiles, exists_entryHolds_iff]

end BootShim.Snp
