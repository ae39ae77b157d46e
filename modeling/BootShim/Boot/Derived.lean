-- SUMMARY: E820 and the accept list as functions of which addresses the placed regions cover.
import BootShim.Boot.Map

/-!
# What a map's E820 and accept list say

The E820 map and the accept list of a validated map are canonical lists, and what
they cover is a statement about addresses: E820 gives each placed address its
region's type and each other one RAM, the accept list covers exactly the addresses
no region covers. A canonical list is determined by what it covers, so both depend
on the placed regions only through the addresses these cover.
-/

namespace BootShim.Boot

open Layout Tile

variable {placed placed' : List Placed} {memory : Nat}

/-- Every region is a nonempty interval: no end wraps around. -/
def Upright (placed : List Placed) : Prop := ∀ p ∈ placed, p.tile.lo < p.tile.hi

theorem Upright.spans (h : Upright placed) : ∀ s ∈ spans placed, s.lo < s.hi := by
  intro s hs
  obtain ⟨p, hp, rfl⟩ := mem_spans.mp hs
  exact h p hp

/-- The address lies in some region. -/
def Taken (placed : List Placed) (a : Nat) : Prop := ∃ p ∈ placed, p.tile.Mem a

theorem taken_iff {a : Nat} : Taken placed a ↔ ∃ k, Covers (placed.map Placed.tile) a k := by
  simp [Taken, Covers]

theorem not_taken_iff {a : Nat} : ¬ Taken placed a ↔ ∀ s ∈ spans placed, ¬ s.Mem a := by
  simp [Taken]

/-- Regions of a validated map that meet are one region. -/
theorem tile_eq_of_mem (h : validate placed memory = .ok ()) {p q : Placed} (hp : p ∈ placed)
    (hq : q ∈ placed) {a : Nat} (hpa : p.tile.Mem a) (hqa : q.tile.Mem a) : p = q :=
  eq_of_mem_of_apart (apart_of_validate h) hp hq hpa hqa

/-- Every region starts and ends on a page boundary, the end being a 64-bit sum. -/
def Aligned (placed : List Placed) : Prop :=
  ∀ p ∈ placed, p.tile.lo % page = 0 ∧ p.tile.hi % page = 0

/-! ## The accept list -/

/-- An address is accepted iff it is below the top and no region covers it. -/
theorem covers_acceptRanges {a : Nat} :
    Covers ((acceptRanges placed memory).map rangeTile) a () ↔ a < memory ∧ ¬ Taken placed a := by
  rw [map_acceptRanges, Sweep.covers_gaps (sortedByLo_spans placed) (Nat.zero_le a),
    not_taken_iff]

theorem mem_acceptRanges_iff {a : Nat} :
    (∃ r ∈ acceptRanges placed memory, r.1 ≤ a ∧ a < r.2) ↔ a < memory ∧ ¬ Taken placed a := by
  rw [← covers_acceptRanges]
  simp [Covers, Mem, rangeTile]

/-- The accepted ranges are nonempty, ascend and never touch. -/
theorem canonical_acceptRanges (h : Upright placed) :
    Canonical ((acceptRanges placed memory).map rangeTile) := by
  rw [map_acceptRanges]
  exact Sweep.canonical_gaps h.spans

/-- Every accepted range is nonempty and ends at or below the top. -/
theorem bounds_of_mem_acceptRanges {r : Nat × Nat} (hr : r ∈ acceptRanges placed memory) :
    r.1 < r.2 ∧ r.2 ≤ memory := by
  have hg : rangeTile r ∈ Sweep.gaps memory 0 (spans placed) := by
    rw [← map_acceptRanges]
    exact List.mem_map_of_mem hr
  exact (Sweep.bounds_of_mem_gaps hg).2

/-- The ends of the accepted ranges are ends of regions, or the ends of the map. -/
theorem aligned_of_mem_acceptRanges (h : Aligned placed) (hmem : memory % page = 0)
    {r : Nat × Nat} (hr : r ∈ acceptRanges placed memory) : r.1 % page = 0 ∧ r.2 % page = 0 := by
  have hg : rangeTile r ∈ Sweep.gaps memory 0 (spans placed) := by
    rw [← map_acceptRanges]
    exact List.mem_map_of_mem hr
  constructor
  · rcases Sweep.lo_of_mem_gaps hg with hlo | ⟨s, hs, hlo⟩
    · rw [show r.1 = 0 from hlo, Nat.zero_mod]
    · obtain ⟨p, hp, rfl⟩ := mem_spans.mp hs
      rw [show r.1 = p.tile.hi from hlo]
      exact (h p hp).2
  · rcases Sweep.hi_of_mem_gaps hg with hhi | ⟨s, hs, hhi⟩
    · rw [show r.2 = memory from hhi, hmem]
    · obtain ⟨p, hp, rfl⟩ := mem_spans.mp hs
      rw [show r.2 = p.tile.lo from hhi]
      exact (h p hp).1

/-- The accept list depends on the regions only through the addresses they cover. -/
theorem acceptRanges_congr (h : Upright placed) (h' : Upright placed')
    (htaken : ∀ a, Taken placed a ↔ Taken placed' a) :
    acceptRanges placed memory = acceptRanges placed' memory := by
  apply rangeTile_injective.list_map
  apply (canonical_acceptRanges h).ext (canonical_acceptRanges h')
  rintro a ⟨⟩
  rw [covers_acceptRanges, covers_acceptRanges, htaken]

/-! ## E820 -/

/-- The entries are nonempty, ascend, end at or below the top, and no two neighbours
    of one type touch. -/
theorem canonical_e820 (h : Upright placed) :
    Canonical ((e820 placed memory).map entryTile) ∧
      ∀ e ∈ e820 placed memory, e.1 + e.2.1 ≤ memory := by
  have hlay : Canonical (Sweep.lay memory ram (· = absent) [] 0 (spans placed)).reverse ∧
      ∀ t ∈ Sweep.lay memory ram (· = absent) [] 0 (spans placed), t.hi ≤ memory :=
    Sweep.canonical_lay (fun s hs => (h.spans s hs).le) Canonical.nil (by simp)
  refine ⟨map_e820 placed memory ▸ hlay.1, fun e he => ?_⟩
  have hmem : entryTile e ∈ Sweep.lay memory ram (· = absent) [] 0 (spans placed) := by
    rw [← List.mem_reverse, ← map_e820]
    exact List.mem_map_of_mem he
  exact hlay.2 _ hmem

/-- E820 covers as RAM whatever is below the top and in no region, reversed regions or not. -/
theorem covers_e820_of_not_taken {a : Nat} (ha : a < memory) (h : ¬ Taken placed a) :
    Covers ((e820 placed memory).map entryTile) a ram := by
  rw [map_e820, covers_reverse]
  exact Sweep.covers_lay_of_gap (by simp) (Nat.zero_le a) ha (not_taken_iff.mp h)

/-- E820 covers a region of a validated map under its type, reversed regions or not. -/
theorem covers_e820_of_mem (hv : validate placed memory = .ok ()) {p : Placed} (hp : p ∈ placed)
    (hk : p.e820 ≠ absent) {a : Nat} (ha : a < memory) (hmem : p.tile.Mem a) :
    Covers ((e820 placed memory).map entryTile) a p.e820 := by
  rw [map_e820, covers_reverse]
  exact Sweep.covers_lay_of_mem (by simp) (sortedByLo_spans placed) (ordered_of_validate hv)
    (fun s _ => Nat.zero_le _) (mem_spans.mpr ⟨p, hp, rfl⟩) hk ha hmem

/-- The ends of the entries are ends of regions, or the ends of the map. -/
theorem aligned_of_mem_e820 (h : Aligned placed) (hmem : memory % page = 0)
    {e : Nat × Nat × Nat} (he : e ∈ e820 placed memory) :
    e.1 % page = 0 ∧ (e.1 + e.2.1) % page = 0 := by
  have hlay : entryTile e ∈ Sweep.lay memory ram (· = absent) [] 0 (spans placed) := by
    rw [← List.mem_reverse, ← map_e820]
    exact List.mem_map_of_mem he
  have hends : ∀ t ∈ Sweep.lay memory ram (· = absent) [] 0 (spans placed),
      t.lo % page = 0 ∧ t.hi % page = 0 := by
    refine Sweep.ends_of_mem_lay (P := fun a => a % page = 0) (Nat.zero_mod page) hmem ?_ (by simp)
    intro s hs
    obtain ⟨p, hp, rfl⟩ := mem_spans.mp hs
    exact h p hp
  exact hends _ hlay

/-- E820 covers every address below the top, under the type of its region where it has
    one and as RAM elsewhere, except that it leaves out the absent regions. -/
theorem covers_e820 (h : Upright placed) (hv : validate placed memory = .ok ()) {a k : Nat} :
    Covers ((e820 placed memory).map entryTile) a k ↔
      a < memory ∧ ((∃ p ∈ placed, p.tile.Mem a ∧ p.e820 = k ∧ k ≠ absent) ∨
        (k = ram ∧ ¬ Taken placed a)) := by
  rw [map_e820, covers_reverse, Sweep.covers_lay (sortedByLo_spans placed)
    (fun s hs => (h.spans s hs).le) (ordered_of_validate hv) (fun s _ => Nat.zero_le _) (by simp),
    not_taken_iff]
  simp only [covers_nil, false_or, Nat.zero_le, true_and]
  refine and_congr_right fun _ => or_congr_left ?_
  constructor
  · rintro ⟨s, hs, hmem, htag, hk⟩
    obtain ⟨p, hp, rfl⟩ := mem_spans.mp hs
    exact ⟨p, hp, hmem, htag, hk⟩
  · rintro ⟨p, hp, hmem, htag, hk⟩
    exact ⟨p.tile, mem_spans.mpr ⟨p, hp, rfl⟩, hmem, htag, hk⟩

/-- E820 depends on the regions only through the addresses they cover under each type. -/
theorem e820_congr (h : Upright placed) (hv : validate placed memory = .ok ())
    (h' : Upright placed') (hv' : validate placed' memory = .ok ())
    (hcov : ∀ a k, Covers (placed.map Placed.tile) a k ↔ Covers (placed'.map Placed.tile) a k) :
    e820 placed memory = e820 placed' memory := by
  apply entryTile_injective.list_map
  apply (canonical_e820 h).1.ext (canonical_e820 h').1
  intro a k
  have htaken : Taken placed a ↔ Taken placed' a := by
    rw [taken_iff, taken_iff]
    exact exists_congr fun k => hcov a k
  have hmem : ∀ ps : List Placed, (∃ p ∈ ps, p.tile.Mem a ∧ p.e820 = k ∧ k ≠ absent) ↔
      Covers (ps.map Placed.tile) a k ∧ k ≠ absent := by
    intro ps
    simp only [Covers, List.mem_map]
    constructor
    · rintro ⟨p, hp, hmem, rfl, hk⟩
      exact ⟨⟨p.tile, ⟨p, hp, rfl⟩, hmem, rfl⟩, hk⟩
    · rintro ⟨⟨_, ⟨p, hp, rfl⟩, hmem, htag⟩, hk⟩
      exact ⟨p, hp, hmem, htag, hk⟩
  rw [covers_e820 h hv, covers_e820 h' hv', hmem, hmem, hcov, htaken]

/-- An address below the top that E820 leaves out is one an absent region covers. -/
theorem not_covers_e820_iff (h : Upright placed) (hv : validate placed memory = .ok ()) {a : Nat}
    (ha : a < memory) :
    (∀ k, ¬ Covers ((e820 placed memory).map entryTile) a k) ↔
      ∃ p ∈ placed, p.e820 = absent ∧ p.tile.Mem a := by
  constructor
  · intro hno
    by_contra hnone
    by_cases htaken : Taken placed a
    · obtain ⟨p, hp, hmem⟩ := htaken
      have hk : p.e820 ≠ absent := fun hk => hnone ⟨p, hp, hk, hmem⟩
      exact hno p.e820 ((covers_e820 h hv).mpr ⟨ha, Or.inl ⟨p, hp, hmem, rfl, hk⟩⟩)
    · exact hno ram ((covers_e820 h hv).mpr ⟨ha, Or.inr ⟨rfl, htaken⟩⟩)
  · rintro ⟨p, hp, hk, hmem⟩ k hcov
    rcases ((covers_e820 h hv).mp hcov).2 with ⟨q, hq, hqmem, hqk, hk'⟩ | ⟨_, hnot⟩
    · rw [tile_eq_of_mem hv hp hq hmem hqmem] at hk
      exact hk' (hqk ▸ hk)
    · exact hnot ⟨p, hp, hmem⟩

/-! ## When validation succeeds -/

/-- Regions that are apart from each other and lie in the map on page boundaries pass. -/
theorem validate_of_apart (h : Upright placed)
    (hapart : placed.Pairwise fun p q => p.tile.Apart q.tile)
    (hbase : ∀ p ∈ placed, p.base % page = 0 ∧ (p.base < memory ∨ p.base = resetAlias)) :
    validate placed memory = .ok () := by
  have hspans : (spans placed).Pairwise Tile.Apart :=
    ((spans_perm placed).pairwise_iff Tile.Apart.symm).mpr (List.pairwise_map.mpr hapart)
  refine validate_eq_ok.mpr ⟨List.Pairwise.isChain ?_, hbase⟩
  refine (hspans.and (sortedByLo_spans placed)).imp_of_mem fun {s t} _ ht hst => ?_
  rcases hst.1 with hle | hle
  · exact hle
  · exact absurd (h.spans t ht) (not_lt.mpr (hle.trans hst.2))

/-! ## How long the lists get -/

theorem length_pushEntry_le (out : List (Nat × Nat × Nat)) (base stop kind : Nat) :
    (pushEntry out base stop kind).length ≤ out.length + 1 := by
  unfold pushEntry
  split
  · omega
  · cases out with
    | nil => simp
    | cons last rest =>
      dsimp only
      split <;> simp

theorem length_e820_le (placed : List Placed) (memory : Nat) :
    (e820 placed memory).length ≤ 2 * placed.length + 1 := by
  have hloop : ∀ (ss : List (Tile Nat Nat)) (out : List (Nat × Nat × Nat)) (pos : Nat),
      (e820Loop memory out pos ss).length ≤ out.length + 2 * ss.length + 1 := by
    intro ss
    induction ss with
    | nil => intro out pos; exact length_pushEntry_le _ _ _ _
    | cons s ss ih =>
      intro out pos
      have hgap := length_pushEntry_le out pos memory ram
      have hbefore := length_pushEntry_le out pos s.lo ram
      have hown := length_pushEntry_le (pushEntry out pos s.lo ram) (max s.lo pos)
        (min s.hi memory) s.tag
      have hrest := ih (pushEntry out pos s.lo ram) (max pos s.hi)
      have hrest' := ih (pushEntry (pushEntry out pos s.lo ram) (max s.lo pos) (min s.hi memory)
        s.tag) (max pos s.hi)
      rw [e820Loop, List.length_cons]
      dsimp only
      split_ifs <;> omega
  have hlen : (spans placed).length = placed.length := by
    rw [(spans_perm placed).length_eq, List.length_map]
  rw [e820, List.length_reverse, ← hlen]
  exact (hloop (spans placed) [] 0).trans (by simp)

theorem length_acceptRanges_le (placed : List Placed) (memory : Nat) :
    (acceptRanges placed memory).length ≤ placed.length + 1 := by
  have hloop : ∀ (ss : List (Tile Nat Nat)) (pos : Nat),
      (acceptLoop memory pos ss).length ≤ ss.length + 1 := by
    intro ss
    induction ss with
    | nil => intro pos; simp [acceptLoop]
    | cons s ss ih =>
      intro pos
      have hrest := ih (max pos s.hi)
      rw [acceptLoop, List.length_cons]
      split
      · rw [List.length_cons]
        omega
      · omega
  have hlen : (spans placed).length = placed.length := by
    rw [(spans_perm placed).length_eq, List.length_map]
  rw [acceptRanges, ← hlen]
  exact (List.length_filter_le _ _).trans (hloop (spans placed) 0)

end BootShim.Boot
