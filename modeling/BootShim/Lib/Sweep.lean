-- SUMMARY: Sweeps over spans sorted by their lower end: the gaps they leave and the tiling they induce.
import BootShim.Lib.Tiling

/-!
# Sweeps

A sweep walks a list of spans that is sorted by lower end, keeping the furthest
point reached so far. `gaps` collects what the spans leave over below a limit,
and `lay` lays the spans themselves over the line, filling what they leave over
with a tag of its own. The spans may overlap, stick out past the limit, and, for
`gaps`, even have their ends reversed: `Settles` says exactly when a reversed
span does no harm.
-/

namespace Sweep

open Tile

variable {α κ : Type*} [LinearOrder α]

/-- The lower ends ascend. -/
def SortedByLo (ss : List (Tile α κ)) : Prop := ss.Pairwise fun s t => s.lo ≤ t.lo

theorem SortedByLo.tail {s : Tile α κ} {ss : List (Tile α κ)} (h : SortedByLo (s :: ss)) :
    SortedByLo ss := (List.pairwise_cons.mp h).2

/-- Neighbours that follow each other make every pair do so. -/
theorem SortedByLo.pairwise_of_isChain {ss : List (Tile α κ)} (h : SortedByLo ss)
    (hchain : ss.IsChain fun s t => s.hi ≤ t.lo) : ss.Pairwise fun s t => s.hi ≤ t.lo := by
  induction ss with
  | nil => exact List.Pairwise.nil
  | cons s ss ih =>
    refine List.pairwise_cons.mpr ⟨fun u hu => ?_, ih h.tail hchain.tail⟩
    cases ss with
    | nil => cases hu
    | cons t ss =>
      have hst : s.hi ≤ t.lo := (List.isChain_cons_cons.mp hchain).1
      rcases List.mem_cons.mp hu with rfl | hu
      · exact hst
      · exact hst.trans ((List.pairwise_cons.mp h.tail).1 u hu)

/-! ## Gaps -/

/-- What the spans leave over of `[pos, limit)`, in the order a sweep meets it. -/
def gaps (limit pos : α) : List (Tile α κ) → List (Tile α Unit)
  | [] => if pos < limit then [⟨pos, limit, ()⟩] else []
  | s :: ss =>
    if pos < min s.lo limit then
      ⟨pos, min s.lo limit, ()⟩ :: gaps limit (max pos s.hi) ss
    else gaps limit (max pos s.hi) ss

theorem mem_gaps_cons {limit pos : α} {s : Tile α κ} {ss : List (Tile α κ)} {g : Tile α Unit} :
    g ∈ gaps limit pos (s :: ss) ↔
      (pos < min s.lo limit ∧ g = ⟨pos, min s.lo limit, ()⟩) ∨
        g ∈ gaps limit (max pos s.hi) ss := by
  rw [gaps]
  split <;> simp_all

/-- Every gap is a nonempty part of what the sweep has still to walk. -/
theorem bounds_of_mem_gaps {limit pos : α} {ss : List (Tile α κ)} {g : Tile α Unit}
    (hg : g ∈ gaps limit pos ss) : pos ≤ g.lo ∧ g.lo < g.hi ∧ g.hi ≤ limit := by
  induction ss generalizing pos with
  | nil =>
    rw [gaps] at hg
    split at hg
    · next hlt =>
      obtain rfl := List.mem_singleton.mp hg
      exact ⟨le_rfl, hlt, le_rfl⟩
    · cases hg
  | cons s ss ih =>
    rcases mem_gaps_cons.mp hg with ⟨hlt, rfl⟩ | hrest
    · exact ⟨le_rfl, hlt, min_le_right _ _⟩
    · have h := ih hrest
      exact ⟨(le_max_left _ _).trans h.1, h.2⟩

/-- A gap starts where the sweep does or where a span ends. -/
theorem lo_of_mem_gaps {limit pos : α} {ss : List (Tile α κ)} {g : Tile α Unit}
    (hg : g ∈ gaps limit pos ss) : g.lo = pos ∨ ∃ s ∈ ss, g.lo = s.hi := by
  induction ss generalizing pos with
  | nil =>
    rw [gaps] at hg
    split at hg
    · exact Or.inl (List.mem_singleton.mp hg ▸ rfl)
    · cases hg
  | cons s ss ih =>
    rcases mem_gaps_cons.mp hg with ⟨_, rfl⟩ | hrest
    · exact Or.inl rfl
    · rcases ih hrest with hpos | ⟨t, ht, hlo⟩
      · rcases max_choice pos s.hi with hmax | hmax
        · exact Or.inl (hpos.trans hmax)
        · exact Or.inr ⟨s, List.mem_cons_self, hpos.trans hmax⟩
      · exact Or.inr ⟨t, List.mem_cons_of_mem _ ht, hlo⟩

/-- No gap meets a span. -/
theorem not_mem_of_mem_gaps {limit pos : α} {ss : List (Tile α κ)} (hsorted : SortedByLo ss)
    {g : Tile α Unit} (hg : g ∈ gaps limit pos ss) {a : α} (ha : g.Mem a) :
    ∀ s ∈ ss, ¬ s.Mem a := by
  induction ss generalizing pos with
  | nil => simp
  | cons s ss ih =>
    intro t ht hmem
    have hlo : ∀ u ∈ ss, s.lo ≤ u.lo := (List.pairwise_cons.mp hsorted).1
    rcases mem_gaps_cons.mp hg with ⟨_, rfl⟩ | hrest
    · -- the gap ends where `s` starts, and every later span starts no sooner
      have hlt : a < s.lo := ha.2.trans_le (min_le_left _ _)
      rcases List.mem_cons.mp ht with rfl | ht
      · exact absurd hmem.1 (not_le.mpr hlt)
      · exact absurd ((hlo t ht).trans hmem.1) (not_le.mpr hlt)
    · rcases List.mem_cons.mp ht with rfl | ht
      · have hpos : t.hi ≤ g.lo := (le_max_right _ _).trans (bounds_of_mem_gaps hrest).1
        exact absurd (hpos.trans ha.1) (not_le.mpr hmem.2)
      · exact ih hsorted.tail hrest t ht hmem

/-- A point in no span lies in a gap, whichever way round the spans' ends are. -/
theorem exists_mem_gaps {limit pos : α} {ss : List (Tile α κ)} {a : α} (hpos : pos ≤ a)
    (hlimit : a < limit) (hno : ∀ s ∈ ss, ¬ s.Mem a) : ∃ g ∈ gaps limit pos ss, g.Mem a := by
  induction ss generalizing pos with
  | nil =>
    refine ⟨⟨pos, limit, ()⟩, ?_, hpos, hlimit⟩
    rw [gaps, if_pos (hpos.trans_lt hlimit)]
    exact List.mem_singleton_self _
  | cons s ss ih =>
    rcases lt_or_ge a s.lo with hlt | hge
    · have hmin : a < min s.lo limit := lt_min hlt hlimit
      exact ⟨_, mem_gaps_cons.mpr (Or.inl ⟨hpos.trans_lt hmin, rfl⟩), hpos, hmin⟩
    · have hhi : s.hi ≤ a := by
        by_contra h
        exact hno s List.mem_cons_self ⟨hge, not_le.mp h⟩
      obtain ⟨g, hg, hmem⟩ := ih (max_le hpos hhi) fun t ht => hno t (List.mem_cons_of_mem _ ht)
      exact ⟨g, mem_gaps_cons.mpr (Or.inr hg), hmem⟩

/-- The gaps are exactly the complement of the spans. -/
theorem covers_gaps {limit pos : α} {ss : List (Tile α κ)} (hsorted : SortedByLo ss) {a : α}
    (hpos : pos ≤ a) :
    Covers (gaps limit pos ss) a () ↔ a < limit ∧ ∀ s ∈ ss, ¬ s.Mem a := by
  constructor
  · rintro ⟨g, hg, hmem, _⟩
    exact ⟨hmem.2.trans_le (bounds_of_mem_gaps hg).2.2, not_mem_of_mem_gaps hsorted hg hmem⟩
  · rintro ⟨hlimit, hno⟩
    obtain ⟨g, hg, hmem⟩ := exists_mem_gaps hpos hlimit hno
    exact ⟨g, hg, hmem, rfl⟩

/-- A gap ends where the sweep does or where a span starts. -/
theorem hi_of_mem_gaps {limit pos : α} {ss : List (Tile α κ)} {g : Tile α Unit}
    (hg : g ∈ gaps limit pos ss) : g.hi = limit ∨ ∃ s ∈ ss, g.hi = s.lo := by
  induction ss generalizing pos with
  | nil =>
    rw [gaps] at hg
    split at hg
    · exact Or.inl (List.mem_singleton.mp hg ▸ rfl)
    · cases hg
  | cons s ss ih =>
    rcases mem_gaps_cons.mp hg with ⟨_, rfl⟩ | hrest
    · rcases min_choice s.lo limit with hmin | hmin
      · exact Or.inr ⟨s, List.mem_cons_self, hmin⟩
      · exact Or.inl hmin
    · rcases ih hrest with hlimit | ⟨t, ht, hhi⟩
      · exact Or.inl hlimit
      · exact Or.inr ⟨t, List.mem_cons_of_mem _ ht, hhi⟩

/-- With no span reversed the gaps ascend, and two of them touch only at an empty span. -/
theorem pairwise_gaps {limit pos : α} {ss : List (Tile α κ)} (hss : ∀ s ∈ ss, s.lo ≤ s.hi) :
    (gaps limit pos ss).Pairwise fun g h =>
      g.hi ≤ h.lo ∧ (g.hi = h.lo → ∃ s ∈ ss, s.lo = s.hi ∧ s.lo = g.hi) := by
  induction ss generalizing pos with
  | nil =>
    rw [gaps]
    split
    · exact List.pairwise_singleton _ _
    · exact List.Pairwise.nil
  | cons s ss ih =>
    have hrest : (gaps limit (max pos s.hi) ss).Pairwise fun g h =>
        g.hi ≤ h.lo ∧ (g.hi = h.lo → ∃ t ∈ s :: ss, t.lo = t.hi ∧ t.lo = g.hi) := by
      refine (ih fun t ht => hss t (List.mem_cons_of_mem _ ht)).imp fun hgh =>
        ⟨hgh.1, fun htouch => ?_⟩
      obtain ⟨t, ht, hempty⟩ := hgh.2 htouch
      exact ⟨t, List.mem_cons_of_mem _ ht, hempty⟩
    rw [gaps]
    split
    · refine List.pairwise_cons.mpr ⟨fun h hh => ?_, hrest⟩
      have hs : s.lo ≤ s.hi := hss s List.mem_cons_self
      have hbounds := bounds_of_mem_gaps hh
      have hhi : s.hi ≤ h.lo := (le_max_right _ _).trans hbounds.1
      refine ⟨(min_le_left _ _).trans (hs.trans hhi), fun htouch => ?_⟩
      -- the next gap starts below the limit, so this one ends where `s` starts and ends
      have hlo : s.lo ≤ h.lo := hs.trans hhi
      have hmin : min s.lo limit = s.lo := by
        refine min_eq_left (hlo.trans ?_)
        exact (hbounds.2.1.trans_le hbounds.2.2).le
      dsimp only at htouch ⊢
      rw [hmin] at htouch ⊢
      exact ⟨s, List.mem_cons_self, le_antisymm hs (hhi.trans htouch.ge), rfl⟩
    · exact hrest

/-- With no span reversed or empty the gaps ascend and never touch. -/
theorem canonical_gaps {limit pos : α} {ss : List (Tile α κ)}
    (hss : ∀ s ∈ ss, s.lo < s.hi) : Canonical (gaps limit pos ss) := by
  have hgaps : (gaps limit pos ss).Pairwise fun g h =>
      g.hi ≤ h.lo ∧ (g.hi = h.lo → ∃ s ∈ ss, s.lo = s.hi ∧ s.lo = g.hi) :=
    pairwise_gaps fun s hs => (hss s hs).le
  refine ⟨fun g hg => (bounds_of_mem_gaps hg).2.1, hgaps.imp And.left, ?_⟩
  refine (hgaps.imp fun hgh htouch => ?_).isChain
  obtain ⟨s, hs, hempty, -⟩ := hgh.2 htouch.1
  exact (hss s hs).ne hempty

/-! ### Reversed spans -/

/-- No span, reversed ones included, leaves the sweep short of a gap it has already
    recorded: after each span the sweep has reached the span's start or the limit. -/
def Settles (limit pos : α) : List (Tile α κ) → Prop
  | [] => True
  | s :: ss =>
    (s.lo ≤ max pos s.hi ∨ limit ≤ max pos s.hi) ∧ Settles limit (max pos s.hi) ss

theorem apart_of_settles {limit pos : α} {ss : List (Tile α κ)} (h : Settles limit pos ss) :
    (gaps limit pos ss).Pairwise Apart := by
  induction ss generalizing pos with
  | nil =>
    rw [gaps]
    split
    · exact List.pairwise_singleton _ _
    · exact List.Pairwise.nil
  | cons s ss ih =>
    rw [gaps]
    split
    · refine List.pairwise_cons.mpr ⟨fun g hg => Or.inl ?_, ih h.2⟩
      have hreach := (bounds_of_mem_gaps hg).1
      rcases h.1 with hlo | hlimit
      · exact (min_le_left _ _).trans (hlo.trans hreach)
      · exact (min_le_right _ _).trans (hlimit.trans hreach)
    · exact ih h.2

/-- A sweep that does not settle records some point twice. -/
theorem settles_of_apart {limit pos : α} {ss : List (Tile α κ)} (hsorted : SortedByLo ss)
    (h : (gaps limit pos ss).Pairwise Apart) : Settles limit pos ss := by
  induction ss generalizing pos with
  | nil => trivial
  | cons s ss ih =>
    refine ⟨?_, ih hsorted.tail ?_⟩
    · by_contra hnot
      obtain ⟨hlo, hlimit⟩ := not_or.mp hnot
      -- the point reached lies in the gap before `s`, and is swept again after it
      have hreach : max pos s.hi < min s.lo limit := lt_min (not_le.mp hlo) (not_le.mp hlimit)
      have hpos : pos < min s.lo limit := (le_max_left _ _).trans_lt hreach
      have hno : ∀ t ∈ ss, ¬ t.Mem (max pos s.hi) := fun t ht hmem =>
        absurd (((List.pairwise_cons.mp hsorted).1 t ht).trans hmem.1) hlo
      obtain ⟨g, hg, hmem⟩ := exists_mem_gaps le_rfl (not_le.mp hlimit) hno
      rw [gaps, if_pos hpos] at h
      exact ((List.pairwise_cons.mp h).1 g hg).not_mem ⟨le_max_left _ _, hreach⟩ hmem
    · rw [gaps] at h
      split at h
      · exact (List.pairwise_cons.mp h).2
      · exact h

/-- The point a sweep has reached after a run of spans. -/
def reach (pos : α) (ss : List (Tile α κ)) : α := ss.foldl (fun p s => max p s.hi) pos

@[simp] theorem reach_nil (pos : α) : reach pos ([] : List (Tile α κ)) = pos := rfl

@[simp] theorem reach_cons (pos : α) (s : Tile α κ) (ss : List (Tile α κ)) :
    reach pos (s :: ss) = reach (max pos s.hi) ss := rfl

theorem settles_append {limit pos : α} {pre post : List (Tile α κ)} :
    Settles limit pos (pre ++ post) ↔ Settles limit pos pre ∧ Settles limit (reach pos pre) post := by
  induction pre generalizing pos with
  | nil => simp [Settles]
  | cons s pre ih => simp [Settles, ih, and_assoc]

/-- A sweep settles when it does so at every span. -/
theorem settles_iff {limit pos : α} {ss : List (Tile α κ)} :
    Settles limit pos ss ↔ ∀ pre s post, ss = pre ++ s :: post →
      s.lo ≤ max (reach pos pre) s.hi ∨ limit ≤ max (reach pos pre) s.hi := by
  constructor
  · rintro h pre s post rfl
    exact (settles_append.mp h).2.1
  · intro h
    induction ss generalizing pos with
    | nil => trivial
    | cons s ss ih =>
      refine ⟨h [] s ss rfl, ih fun pre t post heq => ?_⟩
      simpa using h (s :: pre) t post (by simp [heq])

/-- The sweep has reached its start or the end of some span it has passed. -/
theorem le_reach_iff {pos b : α} {ss : List (Tile α κ)} :
    b ≤ reach pos ss ↔ b ≤ pos ∨ ∃ s ∈ ss, b ≤ s.hi := by
  induction ss generalizing pos with
  | nil => simp
  | cons s ss ih => simp [ih, or_assoc]

/-! ## Laying spans over a line -/

variable [DecidableEq κ]

/-- Lays the spans over `[pos, limit)`: each gap under the tag `gap`, each span
    under its own tag or, where `skip` says so, not at all. `out` holds the tiles
    so far, newest first. -/
def lay (limit : α) (gap : κ) (skip : κ → Prop) [DecidablePred skip] (out : List (Tile α κ))
    (pos : α) : List (Tile α κ) → List (Tile α κ)
  | [] => push out ⟨pos, limit, gap⟩
  | s :: ss =>
    if limit ≤ s.lo then push out ⟨pos, limit, gap⟩
    else
      let before := push out ⟨pos, s.lo, gap⟩
      let after :=
        if skip s.tag then before else push before ⟨max s.lo pos, min s.hi limit, s.tag⟩
      lay limit gap skip after (max pos s.hi) ss

variable {limit pos : α} {gap : κ} {skip : κ → Prop} [DecidablePred skip] {out : List (Tile α κ)}

variable (gap skip) in
/-- One span laid down keeps the stack canonical and behind the sweep. -/
private theorem lay_step {s : Tile α κ} (hs : s.lo ≤ s.hi) (hlt : s.lo < limit)
    (hout : Canonical out.reverse) (hpos : ∀ t ∈ out, t.hi ≤ pos ∧ t.hi ≤ limit) :
    let before := push out ⟨pos, s.lo, gap⟩
    let after := if skip s.tag then before else push before ⟨max s.lo pos, min s.hi limit, s.tag⟩
    Canonical after.reverse ∧ ∀ t ∈ after, t.hi ≤ max pos s.hi ∧ t.hi ≤ limit := by
  intro before after
  have hbefore : Canonical before.reverse := canonical_push hout fun t ht => (hpos t ht).1
  have hbound : ∀ t ∈ before, t.hi ≤ max s.lo pos :=
    hi_le_of_mem_push (fun t ht => (hpos t ht).1.trans (le_max_right _ _)) fun _ => le_max_left _ _
  have hlimit : ∀ t ∈ before, t.hi ≤ limit :=
    hi_le_of_mem_push (fun t ht => (hpos t ht).2) fun _ => hlt.le
  have hmono : max s.lo pos ≤ max pos s.hi :=
    max_le (hs.trans (le_max_right _ _)) (le_max_left _ _)
  by_cases hskip : skip s.tag
  · have hafter : after = before := if_pos hskip
    rw [hafter]
    exact ⟨hbefore, fun t ht => ⟨(hbound t ht).trans hmono, hlimit t ht⟩⟩
  · have hafter : after = push before ⟨max s.lo pos, min s.hi limit, s.tag⟩ := if_neg hskip
    rw [hafter]
    refine ⟨canonical_push hbefore hbound, fun t ht => ⟨?_, ?_⟩⟩
    · exact hi_le_of_mem_push (fun t ht => (hbound t ht).trans hmono)
        (fun _ => (min_le_left _ _).trans (le_max_right _ _)) t ht
    · exact hi_le_of_mem_push hlimit (fun _ => min_le_right _ _) t ht

/-- What `lay` leaves on the stack is canonical and ends at the limit. -/
theorem canonical_lay {ss : List (Tile α κ)} (hss : ∀ s ∈ ss, s.lo ≤ s.hi)
    (hout : Canonical out.reverse) (hpos : ∀ t ∈ out, t.hi ≤ pos ∧ t.hi ≤ limit) :
    Canonical (lay limit gap skip out pos ss).reverse ∧
      ∀ t ∈ lay limit gap skip out pos ss, t.hi ≤ limit := by
  have hend : Canonical (push out ⟨pos, limit, gap⟩).reverse ∧
      ∀ t ∈ push out ⟨pos, limit, gap⟩, t.hi ≤ limit :=
    ⟨canonical_push hout fun t ht => (hpos t ht).1,
      hi_le_of_mem_push (fun t ht => (hpos t ht).2) fun _ => le_rfl⟩
  induction ss generalizing out pos with
  | nil => exact hend
  | cons s ss ih =>
    rw [lay]
    split
    · exact hend
    · next hlt =>
      obtain ⟨hcan, hbound⟩ := lay_step gap skip
        (hss s List.mem_cons_self) (not_le.mp hlt) hout hpos
      refine ih (fun t ht => hss t (List.mem_cons_of_mem _ ht)) hcan hbound ⟨?_, ?_⟩
      · exact canonical_push hcan fun t ht => (hbound t ht).1
      · exact hi_le_of_mem_push (fun t ht => (hbound t ht).2) fun _ => le_rfl

/-- The ends of the tiles are among those of the spans, where the sweep starts and the limit. -/
theorem ends_of_mem_lay {P : α → Prop} {ss : List (Tile α κ)} (hpos : P pos) (hlimit : P limit)
    (hss : ∀ s ∈ ss, P s.lo ∧ P s.hi) (hout : ∀ t ∈ out, P t.lo ∧ P t.hi) :
    ∀ t ∈ lay limit gap skip out pos ss, P t.lo ∧ P t.hi := by
  have hmax : ∀ {x y}, P x → P y → P (max x y) := fun {x y} hx hy => by
    rcases max_choice x y with h | h <;> rw [h] <;> assumption
  have hmin : ∀ {x y}, P x → P y → P (min x y) := fun {x y} hx hy => by
    rcases min_choice x y with h | h <;> rw [h] <;> assumption
  induction ss generalizing out pos with
  | nil => exact ends_of_mem_push hout ⟨hpos, hlimit⟩
  | cons s ss ih =>
    obtain ⟨hs, hss⟩ := List.forall_mem_cons.mp hss
    rw [lay]
    split
    · exact ends_of_mem_push hout ⟨hpos, hlimit⟩
    · have hbefore := ends_of_mem_push (t := ⟨pos, s.lo, gap⟩) hout ⟨hpos, hs.1⟩
      refine ih (hmax hpos hs.2) hss ?_
      split
      · exact hbefore
      · exact ends_of_mem_push hbefore ⟨hmax hs.1 hpos, hmin hs.2 hlimit⟩

/-- The tags of the stack are tags of spans, or the gaps'. -/
theorem tag_of_mem_lay {P : κ → Prop} {ss : List (Tile α κ)} (hgap : P gap)
    (hss : ∀ s ∈ ss, P s.tag) (hout : ∀ t ∈ out, P t.tag) :
    ∀ t ∈ lay limit gap skip out pos ss, P t.tag := by
  induction ss generalizing out pos with
  | nil => exact tag_of_mem_push hout hgap
  | cons s ss ih =>
    obtain ⟨hs, hss⟩ := List.forall_mem_cons.mp hss
    rw [lay]
    split
    · exact tag_of_mem_push hout hgap
    · have hbefore := tag_of_mem_push (t := ⟨pos, s.lo, gap⟩) hout hgap
      refine ih hss ?_
      split
      · exact hbefore
      · exact tag_of_mem_push hbefore hs

/-! ### What `lay` covers -/

variable (limit pos gap skip out) in
/-- The stack after one span that starts below the limit. -/
def laid (s : Tile α κ) : List (Tile α κ) :=
  let before := push out ⟨pos, s.lo, gap⟩
  if skip s.tag then before else push before ⟨max s.lo pos, min s.hi limit, s.tag⟩

theorem lay_cons_of_lt {s : Tile α κ} {ss : List (Tile α κ)} (h : s.lo < limit) :
    lay limit gap skip out pos (s :: ss) =
      lay limit gap skip (laid limit pos gap skip out s) (max pos s.hi) ss := by
  rw [lay, if_neg (not_le.mpr h)]
  rfl

theorem lay_cons_of_le {s : Tile α κ} {ss : List (Tile α κ)} (h : limit ≤ s.lo) :
    lay limit gap skip out pos (s :: ss) = push out ⟨pos, limit, gap⟩ := by
  rw [lay, if_pos h]

theorem nonempty_laid (hout : ∀ t ∈ out, t.lo < t.hi) (s : Tile α κ) :
    ∀ t ∈ laid limit pos gap skip out s, t.lo < t.hi := by
  rw [laid]
  split
  · exact nonempty_push hout
  · exact nonempty_push (nonempty_push hout)

/-- One span adds the gap before it, and itself unless it is skipped. -/
theorem covers_laid (hout : ∀ t ∈ out, t.lo < t.hi) {s : Tile α κ} {a : α} {k : κ} :
    Covers (laid limit pos gap skip out s) a k ↔
      Covers out a k ∨ ((pos ≤ a ∧ a < s.lo) ∧ gap = k) ∨
        (¬ skip s.tag ∧ (max s.lo pos ≤ a ∧ a < min s.hi limit) ∧ s.tag = k) := by
  rw [laid]
  split
  · next hskip => simp only [covers_push hout, Mem, hskip, not_true, false_and, or_false]
  · next hskip =>
    simp only [covers_push (nonempty_push hout), covers_push hout, Mem, hskip, not_false_eq_true,
      true_and, or_assoc]

/-- What is on the stack stays covered. -/
theorem covers_lay_of_covers (hout : ∀ t ∈ out, t.lo < t.hi) (ss : List (Tile α κ)) {a : α} {k : κ}
    (h : Covers out a k) : Covers (lay limit gap skip out pos ss) a k := by
  induction ss generalizing out pos with
  | nil => exact (covers_push hout).mpr (Or.inl h)
  | cons s ss ih =>
    rcases le_or_gt limit s.lo with hle | hlt
    · rw [lay_cons_of_le hle]
      exact (covers_push hout).mpr (Or.inl h)
    · rw [lay_cons_of_lt hlt]
      exact ih (nonempty_laid hout s) ((covers_laid hout).mpr (Or.inl h))

/-- A point in no span is covered under `gap`, whichever way round the spans' ends are. -/
theorem covers_lay_of_gap (hout : ∀ t ∈ out, t.lo < t.hi) {ss : List (Tile α κ)} {a : α}
    (hpos : pos ≤ a) (hlimit : a < limit) (hno : ∀ s ∈ ss, ¬ s.Mem a) :
    Covers (lay limit gap skip out pos ss) a gap := by
  induction ss generalizing out pos with
  | nil => exact (covers_push hout).mpr (Or.inr ⟨⟨hpos, hlimit⟩, rfl⟩)
  | cons s ss ih =>
    obtain ⟨hs, hno⟩ := List.forall_mem_cons.mp hno
    rcases le_or_gt limit s.lo with hle | hlt
    · rw [lay_cons_of_le hle]
      exact (covers_push hout).mpr (Or.inr ⟨⟨hpos, hlimit⟩, rfl⟩)
    · rw [lay_cons_of_lt hlt]
      rcases lt_or_ge a s.lo with halo | halo
      · exact covers_lay_of_covers (nonempty_laid hout s) ss
          ((covers_laid hout).mpr (Or.inr (Or.inl ⟨⟨hpos, halo⟩, rfl⟩)))
      · have hhi : s.hi ≤ a := not_lt.mp fun h => hs ⟨halo, h⟩
        exact ih (nonempty_laid hout s) (max_le hpos hhi) hno

/-- A point of a span is covered under the span's tag when no earlier span reaches past it. -/
theorem covers_lay_of_mem (hout : ∀ t ∈ out, t.lo < t.hi) {ss : List (Tile α κ)}
    (hsorted : SortedByLo ss) (hasc : ss.Pairwise fun s t => s.hi ≤ t.lo)
    (hlo : ∀ s ∈ ss, pos ≤ s.lo) {s : Tile α κ} (hs : s ∈ ss) (hskip : ¬ skip s.tag) {a : α}
    (hlimit : a < limit) (hmem : s.Mem a) : Covers (lay limit gap skip out pos ss) a s.tag := by
  induction ss generalizing out pos with
  | nil => exact absurd hs List.not_mem_nil
  | cons t ss ih =>
    have hts : t.lo ≤ s.lo := by
      rcases List.mem_cons.mp hs with rfl | hs
      · exact le_rfl
      · exact (List.pairwise_cons.mp hsorted).1 s hs
    rw [lay_cons_of_lt ((hts.trans hmem.1).trans_lt hlimit)]
    rcases List.mem_cons.mp hs with rfl | hs
    · have hmax : max s.lo pos = s.lo := max_eq_left (hlo s List.mem_cons_self)
      refine covers_lay_of_covers (nonempty_laid hout s) ss ((covers_laid hout).mpr ?_)
      rw [hmax]
      exact Or.inr (Or.inr ⟨hskip, ⟨hmem.1, lt_min hmem.2 hlimit⟩, rfl⟩)
    · exact ih (nonempty_laid hout t) hsorted.tail (List.pairwise_cons.mp hasc).2
        (fun u hu => max_le (hlo u (List.mem_cons_of_mem _ hu))
          ((List.pairwise_cons.mp hasc).1 u hu)) hs

/-- With no span reversed nothing else is covered. -/
private theorem of_covers_lay {ss : List (Tile α κ)} (hss : ∀ s ∈ ss, s.lo ≤ s.hi)
    (hasc : ss.Pairwise fun s t => s.hi ≤ t.lo) (hlo : ∀ s ∈ ss, pos ≤ s.lo)
    (hout : ∀ t ∈ out, t.lo < t.hi) {a : α} {k : κ}
    (h : Covers (lay limit gap skip out pos ss) a k) :
    Covers out a k ∨ (pos ≤ a ∧ a < limit ∧
      ((∃ s ∈ ss, s.Mem a ∧ s.tag = k ∧ ¬ skip k) ∨ (k = gap ∧ ∀ s ∈ ss, ¬ s.Mem a))) := by
  induction ss generalizing out pos with
  | nil =>
    rcases (covers_push hout).mp h with h | ⟨⟨h₁, h₂⟩, h₃⟩
    · exact Or.inl h
    · exact Or.inr ⟨h₁, h₂, Or.inr ⟨h₃.symm, fun s hs => absurd hs List.not_mem_nil⟩⟩
  | cons s ss ih =>
    have hs : s.lo ≤ s.hi := hss s List.mem_cons_self
    have hafter : ∀ t ∈ ss, s.hi ≤ t.lo := (List.pairwise_cons.mp hasc).1
    have hspos : pos ≤ s.lo := hlo s List.mem_cons_self
    -- up to where `s` ends no later span starts
    have hlater : ∀ {b}, b ≤ s.hi → a < b → ∀ t ∈ ss, ¬ t.Mem a := fun hb hab t ht hmem =>
      absurd ((hab.trans_le hb).trans_le (hafter t ht)) (not_lt.mpr hmem.1)
    rcases le_or_gt limit s.lo with hle | hlt
    · rw [lay_cons_of_le hle] at h
      rcases (covers_push hout).mp h with h | ⟨⟨h₁, h₂⟩, h₃⟩
      · exact Or.inl h
      · have h₂' : a < limit := h₂
        refine Or.inr ⟨h₁, h₂, Or.inr ⟨h₃.symm, List.forall_mem_cons.mpr ⟨?_, ?_⟩⟩⟩
        · exact fun hmem => absurd (h₂'.trans_le hle) (not_lt.mpr hmem.1)
        · exact hlater (hle.trans hs) h₂'
    · rw [lay_cons_of_lt hlt] at h
      have hmax : max pos s.hi = s.hi := max_eq_right (hspos.trans hs)
      rcases ih (fun t ht => hss t (List.mem_cons_of_mem _ ht)) (List.pairwise_cons.mp hasc).2
        (fun t ht => max_le (hlo t (List.mem_cons_of_mem _ ht)) (hafter t ht))
        (nonempty_laid hout s) h with hlaid | ⟨h₁, h₂, h₃⟩
      · rcases (covers_laid hout).mp hlaid with h | ⟨⟨h₁, h₂⟩, h₃⟩ | ⟨hskip, ⟨h₁, h₂⟩, h₃⟩
        · exact Or.inl h
        · refine Or.inr ⟨h₁, h₂.trans hlt, Or.inr ⟨h₃.symm, List.forall_mem_cons.mpr ⟨?_, ?_⟩⟩⟩
          · exact fun hmem => absurd h₂ (not_lt.mpr hmem.1)
          · exact hlater hs h₂
        · obtain ⟨h₂, h₄⟩ := lt_min_iff.mp h₂
          exact Or.inr ⟨(le_max_right _ _).trans h₁, h₄,
            Or.inl ⟨s, List.mem_cons_self, ⟨(le_max_left _ _).trans h₁, h₂⟩, h₃, h₃ ▸ hskip⟩⟩
      · rw [hmax] at h₁
        refine Or.inr ⟨(hspos.trans hs).trans h₁, h₂, ?_⟩
        rcases h₃ with ⟨t, ht, hmem, htag, hskip⟩ | ⟨hgap, hno⟩
        · exact Or.inl ⟨t, List.mem_cons_of_mem _ ht, hmem, htag, hskip⟩
        · exact Or.inr ⟨hgap, List.forall_mem_cons.mpr
            ⟨fun hmem => absurd hmem.2 (not_lt.mpr h₁), hno⟩⟩

/-- What `lay` covers: below the limit, each span under its tag and the rest under `gap`. -/
theorem covers_lay {ss : List (Tile α κ)} (hsorted : SortedByLo ss) (hss : ∀ s ∈ ss, s.lo ≤ s.hi)
    (hasc : ss.Pairwise fun s t => s.hi ≤ t.lo) (hlo : ∀ s ∈ ss, pos ≤ s.lo)
    (hout : ∀ t ∈ out, t.lo < t.hi) {a : α} {k : κ} :
    Covers (lay limit gap skip out pos ss) a k ↔
      Covers out a k ∨ (pos ≤ a ∧ a < limit ∧
        ((∃ s ∈ ss, s.Mem a ∧ s.tag = k ∧ ¬ skip k) ∨ (k = gap ∧ ∀ s ∈ ss, ¬ s.Mem a))) := by
  constructor
  · exact of_covers_lay hss hasc hlo hout
  · rintro (h | ⟨hpos, hlimit, ⟨s, hs, hmem, rfl, hskip⟩ | ⟨rfl, hno⟩⟩)
    · exact covers_lay_of_covers hout ss h
    · exact covers_lay_of_mem hout hsorted hasc hlo hs hskip hlimit hmem
    · exact covers_lay_of_gap hout hpos hlimit hno

end Sweep
