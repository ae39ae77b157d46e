-- SUMMARY: Canonical lists of tagged half-open intervals over a linear order, and why a canonical list is determined by what it covers.
import Mathlib.Data.List.Sort
import Mathlib.Tactic

/-!
# Tilings

A tile is a half-open interval with a tag. A list of tiles is canonical when
its tiles are nonempty, ascend, and no two neighbours of one tag touch. Then the
list is a normal form: it is determined by which points it covers under which
tag (`Canonical.ext`).

`push` appends a tile to a stack of tiles, newest first, and extends the newest
tile instead when the two touch under one tag. It is the step by which a sweep
builds a canonical list.
-/

/-- The half-open interval `[lo, hi)` with a tag. -/
structure Tile (α κ : Type*) where
  lo : α
  hi : α
  tag : κ

namespace Tile

variable {α κ : Type*} [LinearOrder α]

/-- The points of a tile. -/
def Mem (t : Tile α κ) (a : α) : Prop := t.lo ≤ a ∧ a < t.hi

/-- The point `a` is covered by some tile of tag `k`. -/
def Covers (ts : List (Tile α κ)) (a : α) (k : κ) : Prop := ∃ t ∈ ts, t.Mem a ∧ t.tag = k

/-- No point lies in both tiles. -/
def Apart (s t : Tile α κ) : Prop := s.hi ≤ t.lo ∨ t.hi ≤ s.lo

theorem Apart.symm {s t : Tile α κ} (h : s.Apart t) : t.Apart s := Or.symm h

theorem Apart.not_mem {s t : Tile α κ} (h : s.Apart t) {a : α} (hs : s.Mem a) : ¬ t.Mem a := by
  intro ht
  rcases h with h | h
  · exact absurd (hs.2.trans_le h) (not_lt.mpr ht.1)
  · exact absurd (ht.2.trans_le h) (not_lt.mpr hs.1)

/-- Two nonempty tiles that no point lies in are apart. -/
theorem apart_of_forall_not_mem {s t : Tile α κ} (hs : s.lo < s.hi) (ht : t.lo < t.hi)
    (h : ∀ a, s.Mem a → ¬ t.Mem a) : s.Apart t := by
  by_contra hmeet
  obtain ⟨hlt, hgt⟩ := not_or.mp hmeet
  -- the later of the two lower ends lies in both
  have hsmem : s.Mem (max s.lo t.lo) := ⟨le_max_left _ _, max_lt hs (not_le.mp hlt)⟩
  have htmem : t.Mem (max s.lo t.lo) := ⟨le_max_right _ _, max_lt (not_le.mp hgt) ht⟩
  exact h _ hsmem htmem

theorem apart_iff_forall_not_mem {s t : Tile α κ} (hs : s.lo < s.hi) (ht : t.lo < t.hi) :
    s.Apart t ↔ ∀ a, s.Mem a → ¬ t.Mem a :=
  ⟨fun h _ => h.not_mem, apart_of_forall_not_mem hs ht⟩

/-- Of things whose tiles are apart one at most lies over a point. -/
theorem eq_of_mem_of_apart {ι : Type*} {f : ι → Tile α κ} {is : List ι}
    (h : is.Pairwise fun i j => (f i).Apart (f j)) {i j : ι} (hi : i ∈ is) (hj : j ∈ is) {a : α}
    (hia : (f i).Mem a) (hja : (f j).Mem a) : i = j := by
  have hsymm : Std.Symm fun i j => (f i).Apart (f j) := ⟨fun _ _ hij => hij.symm⟩
  by_contra hne
  exact (h.forall hi hj hne).not_mem hia hja

@[simp] theorem covers_nil (a : α) (k : κ) : ¬ Covers ([] : List (Tile α κ)) a k := by
  simp [Covers]

theorem covers_cons {t : Tile α κ} {ts : List (Tile α κ)} {a : α} {k : κ} :
    Covers (t :: ts) a k ↔ (t.Mem a ∧ t.tag = k) ∨ Covers ts a k := by
  simp [Covers]

theorem covers_append {ss ts : List (Tile α κ)} {a : α} {k : κ} :
    Covers (ss ++ ts) a k ↔ Covers ss a k ∨ Covers ts a k := by
  simp only [Covers, List.mem_append, or_and_right, exists_or]

theorem covers_reverse {ts : List (Tile α κ)} {a : α} {k : κ} :
    Covers ts.reverse a k ↔ Covers ts a k := by
  simp [Covers]

/-! ## Canonical lists -/

/-- Nonempty tiles in ascending order, no two neighbours of one tag touching. -/
structure Canonical (ts : List (Tile α κ)) : Prop where
  nonempty : ∀ t ∈ ts, t.lo < t.hi
  ascending : ts.Pairwise fun s t => s.hi ≤ t.lo
  maximal : ts.IsChain fun s t => ¬ (s.hi = t.lo ∧ s.tag = t.tag)

theorem Canonical.nil : Canonical ([] : List (Tile α κ)) :=
  ⟨by simp, List.Pairwise.nil, List.IsChain.nil⟩

theorem Canonical.tail {t : Tile α κ} {ts : List (Tile α κ)} (h : Canonical (t :: ts)) :
    Canonical ts where
  nonempty s hs := h.nonempty s (List.mem_cons_of_mem _ hs)
  ascending := (List.pairwise_cons.mp h.ascending).2
  maximal := h.maximal.tail

/-- Everything a canonical list covers after its first tile lies past that tile. -/
theorem Canonical.hi_le_of_covers {t : Tile α κ} {ts : List (Tile α κ)} (h : Canonical (t :: ts))
    {a : α} {k : κ} (hcov : Covers ts a k) : t.hi ≤ a := by
  obtain ⟨s, hs, hmem, _⟩ := hcov
  exact ((List.pairwise_cons.mp h.ascending).1 s hs).trans hmem.1

/-- The first tile starts no later than anything the list covers. -/
theorem Canonical.lo_le_of_covers {t : Tile α κ} {ts : List (Tile α κ)} (h : Canonical (t :: ts))
    {a : α} {k : κ} (hcov : Covers (t :: ts) a k) : t.lo ≤ a := by
  rcases covers_cons.mp hcov with ⟨hmem, _⟩ | hrest
  · exact hmem.1
  · exact (h.nonempty t List.mem_cons_self).le.trans (h.hi_le_of_covers hrest)

/-- At its own upper end a maximal first tile's tag stops. -/
theorem Canonical.not_covers_hi {t : Tile α κ} {ts : List (Tile α κ)} (h : Canonical (t :: ts)) :
    ¬ Covers (t :: ts) t.hi t.tag := by
  intro hcov
  rcases covers_cons.mp hcov with ⟨hmem, _⟩ | ⟨s, hs, hmem, htag⟩
  · exact lt_irrefl _ hmem.2
  · cases ts with
    | nil => cases hs
    | cons u us =>
      have hle : t.hi ≤ u.lo := (List.pairwise_cons.mp h.ascending).1 u List.mem_cons_self
      rcases List.mem_cons.mp hs with rfl | hus
      · have heq : t.hi = s.lo := le_antisymm hle hmem.1
        exact (List.isChain_cons_cons.mp h.maximal).1 ⟨heq, htag.symm⟩
      · -- a later tile starts past the neighbour, which is nonempty
        have hus' : u.hi ≤ s.lo := (List.pairwise_cons.mp h.tail.ascending).1 s hus
        have hu : u.lo < u.hi := h.nonempty u (by simp)
        exact absurd ((hle.trans_lt hu).trans_le hus') (not_lt.mpr hmem.1)

/-- Two canonical lists with the same first tile cover the same points iff their tails do. -/
private theorem Canonical.tail_covers {t : Tile α κ} {ss ts : List (Tile α κ)}
    (hs : Canonical (t :: ss)) (h : ∀ a k, Covers (t :: ss) a k → Covers (t :: ts) a k)
    {a : α} {k : κ} (hcov : Covers ss a k) : Covers ts a k := by
  rcases covers_cons.mp (h a k (covers_cons.mpr (Or.inr hcov))) with ⟨hmem, _⟩ | hrest
  · exact absurd hmem.2 (not_lt.mpr (hs.hi_le_of_covers hcov))
  · exact hrest

private theorem Canonical.head_hi_le {s t : Tile α κ} {ss ts : List (Tile α κ)}
    (hs : Canonical (s :: ss)) (hlo : s.lo = t.lo) (htag : s.tag = t.tag)
    (h : ∀ a k, Covers (t :: ts) a k → Covers (s :: ss) a k) : t.hi ≤ s.hi := by
  by_contra hlt
  have hmem : t.Mem s.hi :=
    ⟨hlo ▸ (hs.nonempty s List.mem_cons_self).le, not_le.mp hlt⟩
  exact hs.not_covers_hi (htag ▸ h _ _ (covers_cons.mpr (Or.inl ⟨hmem, rfl⟩)))

/-- A canonical list is determined by what it covers. -/
theorem Canonical.ext {ss ts : List (Tile α κ)} (hs : Canonical ss) (ht : Canonical ts)
    (h : ∀ a k, Covers ss a k ↔ Covers ts a k) : ss = ts := by
  induction ss generalizing ts with
  | nil =>
    cases ts with
    | nil => rfl
    | cons t ts =>
      have hlo : t.Mem t.lo := ⟨le_rfl, ht.nonempty t List.mem_cons_self⟩
      exact absurd ((h _ _).mpr (covers_cons.mpr (Or.inl ⟨hlo, rfl⟩))) (covers_nil _ _)
  | cons s ss ih =>
    cases ts with
    | nil =>
      have hlo : s.Mem s.lo := ⟨le_rfl, hs.nonempty s List.mem_cons_self⟩
      exact absurd ((h _ _).mp (covers_cons.mpr (Or.inl ⟨hlo, rfl⟩))) (covers_nil _ _)
    | cons t ts =>
      have hsmem : s.Mem s.lo := ⟨le_rfl, hs.nonempty s List.mem_cons_self⟩
      have htmem : t.Mem t.lo := ⟨le_rfl, ht.nonempty t List.mem_cons_self⟩
      have hscov : Covers (t :: ts) s.lo s.tag :=
        (h _ _).mp (covers_cons.mpr (Or.inl ⟨hsmem, rfl⟩))
      have htcov : Covers (s :: ss) t.lo t.tag :=
        (h _ _).mpr (covers_cons.mpr (Or.inl ⟨htmem, rfl⟩))
      have hlo : s.lo = t.lo :=
        le_antisymm (hs.lo_le_of_covers htcov) (ht.lo_le_of_covers hscov)
      have htag : s.tag = t.tag := by
        rcases covers_cons.mp hscov with ⟨_, htag⟩ | hrest
        · exact htag.symm
        · have hle := ht.hi_le_of_covers hrest
          exact absurd htmem.2 (not_lt.mpr (hlo ▸ hle))
      have hhi : s.hi = t.hi :=
        le_antisymm (ht.head_hi_le hlo.symm htag.symm fun a k => (h a k).mp)
          (hs.head_hi_le hlo htag fun a k => (h a k).mpr)
      obtain rfl : s = t := by
        cases s; cases t; simp_all
      rw [ih hs.tail ht.tail fun a k =>
        ⟨hs.tail_covers fun a k => (h a k).mp, ht.tail_covers fun a k => (h a k).mpr⟩]

/-! ## Pushing onto a stack of tiles -/

/-- Puts `t` on a stack of tiles, newest first: an empty tile is dropped, and a
    tile that continues the newest one under the same tag extends it. -/
def push [DecidableEq κ] (ts : List (Tile α κ)) (t : Tile α κ) : List (Tile α κ) :=
  if t.hi ≤ t.lo then ts
  else match ts with
    | [] => [t]
    | last :: rest =>
      if last.hi = t.lo ∧ last.tag = t.tag then { last with hi := t.hi } :: rest
      else t :: last :: rest

section push

variable [DecidableEq κ] {ts : List (Tile α κ)} {t : Tile α κ}

theorem covers_push (hts : ∀ s ∈ ts, s.lo < s.hi) {a : α} {k : κ} :
    Covers (push ts t) a k ↔ Covers ts a k ∨ (t.Mem a ∧ t.tag = k) := by
  unfold push
  split
  case isTrue hempty =>
    have hno : ¬ t.Mem a := fun hmem => absurd (hmem.1.trans_lt hmem.2) (not_lt.mpr hempty)
    simp [hno]
  case isFalse hne =>
    cases ts with
    | nil => simp [covers_cons]
    | cons last rest =>
      dsimp only
      split
      · next htouch =>
        obtain ⟨hhi, htag⟩ := htouch
        have hlast : last.lo < last.hi := hts last List.mem_cons_self
        have hmerge : Mem { last with hi := t.hi } a ↔ last.Mem a ∨ t.Mem a := by
          simp only [Mem]
          constructor
          · rintro ⟨h₁, h₂⟩
            rcases lt_or_ge a last.hi with h | h
            · exact Or.inl ⟨h₁, h⟩
            · exact Or.inr ⟨hhi ▸ h, h₂⟩
          · rintro (⟨h₁, h₂⟩ | ⟨h₁, h₂⟩)
            · exact ⟨h₁, h₂.trans (hhi ▸ not_le.mp hne)⟩
            · exact ⟨(hlast.le.trans hhi.le).trans h₁, h₂⟩
        rw [covers_cons, covers_cons, hmerge, htag]
        tauto
      · rw [covers_cons, covers_cons]
        tauto

/-- The ends of a stack are among the ends of what was pushed. -/
theorem ends_of_mem_push {P : α → Prop} (hts : ∀ s ∈ ts, P s.lo ∧ P s.hi) (ht : P t.lo ∧ P t.hi) :
    ∀ s ∈ push ts t, P s.lo ∧ P s.hi := by
  unfold push
  split
  case isTrue => exact hts
  case isFalse =>
    cases ts with
    | nil => exact List.forall_mem_singleton.mpr ht
    | cons last rest =>
      obtain ⟨hlast, hrest⟩ := List.forall_mem_cons.mp hts
      dsimp only
      split
      · exact List.forall_mem_cons.mpr ⟨⟨hlast.1, ht.2⟩, hrest⟩
      · exact List.forall_mem_cons.mpr ⟨ht, hts⟩

/-- So are its tags. -/
theorem tag_of_mem_push {P : κ → Prop} (hts : ∀ s ∈ ts, P s.tag) (ht : P t.tag) :
    ∀ s ∈ push ts t, P s.tag := by
  unfold push
  split
  case isTrue => exact hts
  case isFalse =>
    cases ts with
    | nil => exact List.forall_mem_singleton.mpr ht
    | cons last rest =>
      obtain ⟨hlast, hrest⟩ := List.forall_mem_cons.mp hts
      dsimp only
      split
      · exact List.forall_mem_cons.mpr ⟨hlast, hrest⟩
      · exact List.forall_mem_cons.mpr ⟨ht, hts⟩

/-- Pushing a tile that starts past the stack keeps the stack canonical. -/
theorem canonical_push (hts : Canonical ts.reverse) (hpast : ∀ s ∈ ts, s.hi ≤ t.lo) :
    Canonical (push ts t).reverse := by
  unfold push
  split
  case isTrue => exact hts
  case isFalse hne =>
    have ht : t.lo < t.hi := not_le.mp hne
    cases ts with
    | nil =>
      exact ⟨by simpa using ht, List.pairwise_singleton _ _, List.IsChain.singleton _⟩
    | cons last rest =>
      have hasc := List.pairwise_reverse.mp hts.ascending
      have hmax := List.isChain_reverse.mp hts.maximal
      have hpos : ∀ s ∈ last :: rest, s.lo < s.hi := fun s hs =>
        hts.nonempty s (List.mem_reverse.mpr hs)
      dsimp only
      split
      · next htouch =>
        refine ⟨?_, List.pairwise_reverse.mpr ?_, List.isChain_reverse.mpr ?_⟩
        · intro s hs
          rcases List.mem_cons.mp (List.mem_reverse.mp hs) with rfl | hs
          · exact ((hpos last List.mem_cons_self).trans_eq htouch.1).trans ht
          · exact hpos s (List.mem_cons_of_mem _ hs)
        · exact List.pairwise_cons.mpr (List.pairwise_cons.mp hasc)
        · cases rest with
          | nil => exact List.IsChain.singleton _
          | cons u us => exact List.isChain_cons_cons.mpr (List.isChain_cons_cons.mp hmax)
      · next hapart =>
        refine ⟨?_, List.pairwise_reverse.mpr ?_, List.isChain_reverse.mpr ?_⟩
        · intro s hs
          rcases List.mem_cons.mp (List.mem_reverse.mp hs) with rfl | hs
          · exact ht
          · exact hpos s hs
        · exact List.pairwise_cons.mpr ⟨hpast, hasc⟩
        · exact List.isChain_cons_cons.mpr ⟨hapart, hmax⟩

/-- A stack of nonempty tiles stays one. -/
theorem nonempty_push (hts : ∀ s ∈ ts, s.lo < s.hi) : ∀ s ∈ push ts t, s.lo < s.hi := by
  unfold push
  split
  case isTrue => exact hts
  case isFalse hne =>
    have ht : t.lo < t.hi := not_le.mp hne
    cases ts with
    | nil => simpa using ht
    | cons last rest =>
      obtain ⟨hlast, hrest⟩ := List.forall_mem_cons.mp hts
      dsimp only
      split
      · next htouch =>
        exact List.forall_mem_cons.mpr ⟨(hlast.trans_eq htouch.1).trans ht, hrest⟩
      · exact List.forall_mem_cons.mpr ⟨ht, hts⟩

/-- No tile ends past a bound that holds before and for the pushed tile. -/
theorem hi_le_of_mem_push {b : α} (hts : ∀ s ∈ ts, s.hi ≤ b) (ht : t.lo < t.hi → t.hi ≤ b) :
    ∀ s ∈ push ts t, s.hi ≤ b := by
  unfold push
  split
  case isTrue => exact hts
  case isFalse hne =>
    have ht' : t.hi ≤ b := ht (not_le.mp hne)
    cases ts with
    | nil => simpa using ht'
    | cons last rest =>
      have hrest : ∀ s ∈ rest, s.hi ≤ b := fun s hs => hts s (List.mem_cons_of_mem _ hs)
      dsimp only
      split
      · exact List.forall_mem_cons.mpr ⟨ht', hrest⟩
      · exact List.forall_mem_cons.mpr ⟨ht', hts⟩

end push

end Tile
