-- SUMMARY: What determines a list: the concatenation of blocks of one length, and the digest of a hash chain.
import Mathlib.Data.List.Basic
import Mathlib.Tactic

/-!
# Commitments

Two ways to bring a list to one value, and when the value settles the list. Blocks of
one length can be told apart in their concatenation without any separator. A hash chain
feeds each digest into the next record: where the hash does not collide on the records
of two chains and never returns to the start, equal digests come from equal lists.
-/

namespace Commitment

/-! ## Blocks -/

section Blocks

variable {α β : Type*} {f : α → List β} {n : Nat} {xs ys : List α}

theorem length_flatMap_blocks (hlen : ∀ x ∈ xs, (f x).length = n) :
    (xs.flatMap f).length = xs.length * n := by
  induction xs with
  | nil => simp
  | cons x xs ih =>
    rw [List.forall_mem_cons] at hlen
    rw [List.flatMap_cons, List.length_append, hlen.1, ih hlen.2, List.length_cons]
    ring

/-- Blocks that determine their items determine them in any longer row of blocks too. -/
theorem isPrefix_of_flatMap (hn : 0 < n) (hxs : ∀ x ∈ xs, (f x).length = n)
    (hys : ∀ y ∈ ys, (f y).length = n) (hinj : ∀ x ∈ xs, ∀ y ∈ ys, f x = f y → x = y)
    (h : xs.flatMap f <+: ys.flatMap f) : xs <+: ys := by
  induction xs generalizing ys with
  | nil => exact List.nil_prefix
  | cons x xs ih =>
    rw [List.forall_mem_cons] at hxs hinj
    cases ys with
    | nil =>
      have hnil : (x :: xs).flatMap f = [] := List.prefix_nil.mp h
      rw [List.flatMap_cons, List.append_eq_nil_iff] at hnil
      have hlen := hxs.1
      rw [hnil.1, List.length_nil] at hlen
      omega
    | cons y ys =>
      rw [List.forall_mem_cons] at hys
      obtain ⟨t, ht⟩ := h
      rw [List.flatMap_cons, List.flatMap_cons, List.append_assoc] at ht
      obtain ⟨hhead, htail⟩ := List.append_inj ht (hxs.1.trans hys.1.symm)
      obtain rfl : x = y := hinj.1 y List.mem_cons_self hhead
      have hinj' : ∀ x ∈ xs, ∀ y ∈ ys, f x = f y → x = y := fun x hx y hy =>
        hinj.2 x hx y (List.mem_cons_of_mem _ hy)
      have hrest : xs <+: ys := ih hxs.2 hys.2 hinj' ⟨t, htail⟩
      exact (List.prefix_cons_inj x).mpr hrest

theorem flatMap_prefix_iff (hn : 0 < n) (hxs : ∀ x ∈ xs, (f x).length = n)
    (hys : ∀ y ∈ ys, (f y).length = n) (hinj : ∀ x ∈ xs, ∀ y ∈ ys, f x = f y → x = y) :
    xs.flatMap f <+: ys.flatMap f ↔ xs <+: ys := by
  refine ⟨isPrefix_of_flatMap hn hxs hys hinj, ?_⟩
  rintro ⟨t, rfl⟩
  rw [List.flatMap_append]
  exact List.prefix_append _ _

theorem flatMap_eq_iff (hn : 0 < n) (hxs : ∀ x ∈ xs, (f x).length = n)
    (hys : ∀ y ∈ ys, (f y).length = n) (hinj : ∀ x ∈ xs, ∀ y ∈ ys, f x = f y → x = y) :
    xs.flatMap f = ys.flatMap f ↔ xs = ys := by
  refine ⟨fun h => ?_, fun h => h ▸ rfl⟩
  have hpre : xs <+: ys := isPrefix_of_flatMap hn hxs hys hinj (h ▸ List.prefix_rfl)
  have hlen := congrArg List.length h
  rw [length_flatMap_blocks hxs, length_flatMap_blocks hys] at hlen
  exact hpre.eq_of_length (Nat.eq_of_mul_eq_mul_right hn hlen)

/-- Two rows of blocks over the same items, of pairwise equal lengths, agree block by block. -/
theorem forall_eq_of_flatMap_eq {g : α → List β} (hlen : ∀ x ∈ xs, (f x).length = (g x).length)
    (h : xs.flatMap f = xs.flatMap g) : ∀ x ∈ xs, f x = g x := by
  induction xs with
  | nil => simp
  | cons x xs ih =>
    rw [List.forall_mem_cons] at hlen
    rw [List.flatMap_cons, List.flatMap_cons] at h
    obtain ⟨hhead, htail⟩ := List.append_inj h hlen.1
    exact List.forall_mem_cons.mpr ⟨hhead, ih hlen.2 htail⟩

end Blocks

/-- Equal images item by item, where the image settles a relation of the items. -/
theorem forall₂_of_map_eq {α β γ : Type*} {f : α → γ} {g : β → γ} {R : α → β → Prop} {xs : List α}
    {ys : List β} (h : xs.map f = ys.map g) (hR : ∀ x ∈ xs, ∀ y ∈ ys, f x = g y → R x y) :
    List.Forall₂ R xs ys := by
  induction xs generalizing ys with
  | nil =>
    cases ys with
    | nil => exact .nil
    | cons y ys => cases h
  | cons x xs ih =>
    cases ys with
    | nil => cases h
    | cons y ys =>
      rw [List.map_cons, List.map_cons, List.cons.injEq] at h
      refine .cons (hR x List.mem_cons_self y List.mem_cons_self h.1) (ih h.2 fun u hu w hw => ?_)
      exact hR u (List.mem_cons_of_mem _ hu) w (List.mem_cons_of_mem _ hw)

/-- Lists in two parts that a predicate tells apart are equal part by part. -/
theorem append_inj_of_forall {α : Type*} {P : α → Prop} [DecidablePred P] {xs ys xs' ys' : List α}
    (h : xs ++ ys = xs' ++ ys') (hxs : ∀ x ∈ xs, P x) (hxs' : ∀ x ∈ xs', P x)
    (hys : ∀ y ∈ ys, ¬ P y) (hys' : ∀ y ∈ ys', ¬ P y) : xs = xs' ∧ ys = ys' := by
  have hfilter : ∀ {us ws : List α}, (∀ u ∈ us, P u) → (∀ w ∈ ws, ¬ P w) →
      (us ++ ws).filter P = us := by
    intro us ws hus hws
    rw [List.filter_append, List.filter_eq_self.mpr (by simpa using hus),
      List.filter_eq_nil_iff.mpr (by simpa using hws), List.append_nil]
  have hleft : xs = xs' := by
    rw [← hfilter hxs hys, h, hfilter hxs' hys']
  subst hleft
  exact ⟨rfl, List.append_cancel_left h⟩

/-! ## Hash chains -/

section Chain

variable {δ σ μ : Type*} (hash : μ → δ) (record : δ → σ → μ)

/-- The digest after a list of items, each hashed in a record with the digest before it. -/
def digest (start : δ) (xs : List σ) : δ := xs.foldl (fun d x => hash (record d x)) start

/-- The records that are hashed on the way. -/
def records (start : δ) : List σ → List μ
  | [] => []
  | x :: xs => record start x :: records (hash (record start x)) xs

theorem digest_concat (start : δ) (xs : List σ) (x : σ) :
    digest hash record start (xs ++ [x]) = hash (record (digest hash record start xs) x) := by
  rw [digest, List.foldl_append]
  rfl

theorem records_concat (start : δ) (xs : List σ) (x : σ) :
    records hash record start (xs ++ [x]) =
      records hash record start xs ++ [record (digest hash record start xs) x] := by
  induction xs generalizing start with
  | nil => rfl
  | cons y ys ih => rw [List.cons_append, records, ih, records, List.cons_append, digest, digest,
      List.foldl_cons]

variable {hash record} {start : δ} {xs ys : List σ}

/-- A digest is the start or a hash. -/
theorem digest_induction {P : δ → Prop} (hstart : P start) (hhash : ∀ m, P (hash m)) :
    P (digest hash record start xs) := by
  induction xs using List.reverseRecOn with
  | nil => exact hstart
  | append_singleton xs x _ =>
    rw [digest_concat]
    exact hhash _

/-- Equal digests come from equal lists. The last records of two chains agree, so the
    digests before them do, and a chain that is out of items is back at the start. -/
theorem eq_of_digest_eq {P : δ → Prop} (hstart : P start) (hhash : ∀ m, P (hash m))
    (hrecord : ∀ d d', P d → P d' → ∀ x ∈ xs, ∀ y ∈ ys, record d x = record d' y → d = d' ∧ x = y)
    (hinj : ∀ m ∈ records hash record start xs, ∀ m' ∈ records hash record start ys,
      hash m = hash m' → m = m')
    (hne : ∀ m ∈ records hash record start xs, hash m ≠ start)
    (hne' : ∀ m ∈ records hash record start ys, hash m ≠ start)
    (h : digest hash record start xs = digest hash record start ys) : xs = ys := by
  induction xs using List.reverseRecOn generalizing ys with
  | nil =>
    cases ys using List.reverseRecOn with
    | nil => rfl
    | append_singleton ys y =>
      rw [digest_concat] at h
      rw [records_concat] at hne'
      exact absurd h.symm (hne' _ (List.mem_append_right _ (List.mem_singleton_self _)))
  | append_singleton xs x ih =>
    rw [records_concat] at hne hinj
    cases ys using List.reverseRecOn with
    | nil =>
      rw [digest_concat] at h
      exact absurd h (hne _ (List.mem_append_right _ (List.mem_singleton_self _)))
    | append_singleton ys y =>
      rw [records_concat] at hne' hinj
      rw [digest_concat, digest_concat] at h
      have hlast := hinj _ (List.mem_append_right _ (List.mem_singleton_self _)) _
        (List.mem_append_right _ (List.mem_singleton_self _)) h
      obtain ⟨hdigest, rfl⟩ := hrecord _ _ (digest_induction hstart hhash)
        (digest_induction hstart hhash) x (List.mem_append_right _ (List.mem_singleton_self _)) y
        (List.mem_append_right _ (List.mem_singleton_self _)) hlast
      have hrest : xs = ys := by
        refine ih (fun d d' hd hd' u hu w hw => ?_) (fun m hm m' hm' => ?_) (fun m hm => ?_)
          (fun m hm => ?_) hdigest
        · exact hrecord d d' hd hd' u (List.mem_append_left _ hu) w (List.mem_append_left _ hw)
        · exact hinj m (List.mem_append_left _ hm) m' (List.mem_append_left _ hm')
        · exact hne m (List.mem_append_left _ hm)
        · exact hne' m (List.mem_append_left _ hm)
      rw [hrest]

end Chain

end Commitment
