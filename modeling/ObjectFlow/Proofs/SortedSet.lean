import Mathlib.Data.List.Nodup
import Mathlib.Data.List.Perm.Subperm
import Mathlib.Order.Defs.Unbundled
import ObjectFlow.Handle
import ObjectFlow.SortedSet

/-!
# Ascending lists as sets

The operations on ascending lists are the operations on the sets of their members, and
they keep lists ascending.  Insertion and union are right on every list; a difference
needs both lists to be ascending.
-/

namespace ObjectFlow

instance {kind : Kind} : IsStrictTotalOrder (Handle kind) (· < ·) where
  irrefl a := Nat.lt_irrefl a.index
  trans _ _ _ := Nat.lt_trans
  trichotomous a b hab hba := by
    cases a
    cases b
    exact congrArg Handle.mk (Nat.le_antisymm (Nat.le_of_not_lt hba) (Nat.le_of_not_lt hab))

instance : IsStrictTotalOrder Site (· < ·) where
  irrefl a h := by
    rcases h with h | ⟨-, h⟩
    · exact irrefl_of (· < ·) a.method h
    · exact Nat.lt_irrefl a.index h
  trans a b c hab hbc := by
    rcases hab with hab | ⟨hab, hindex⟩ <;> rcases hbc with hbc | ⟨hbc, hindex'⟩
    · exact .inl (trans_of (· < ·) hab hbc)
    · exact .inl (hbc ▸ hab)
    · exact .inl (hab ▸ hbc)
    · exact .inr ⟨hab.trans hbc, Nat.lt_trans hindex hindex'⟩
  trichotomous a b hab hba := by
    obtain ⟨method, index⟩ := a
    obtain ⟨method', index'⟩ := b
    rcases trichotomous_of ((· < ·) : MethodId → MethodId → Prop) method method' with
      hlt | rfl | hgt
    · exact absurd (.inl hlt) hab
    · rcases Nat.lt_trichotomy index index' with hlt | rfl | hgt
      · exact absurd (.inr ⟨rfl, hlt⟩) hab
      · rfl
      · exact absurd (.inr ⟨rfl, hgt⟩) hba
    · exact absurd (.inl hgt) hba

namespace SortedSet

variable {α : Type} [LT α] [DecidableLT α] [DecidableEq α]

/-- The members stand in ascending order, each once. -/
def Ascending (set : SortedSet α) : Prop := set.toList.Pairwise (· < ·)

omit [DecidableLT α] [DecidableEq α] in
theorem ascending_empty : (SortedSet.empty : SortedSet α).Ascending := List.Pairwise.nil

omit [DecidableLT α] [DecidableEq α] in
theorem ascending_singleton (a : α) : (SortedSet.singleton a).Ascending :=
  List.pairwise_singleton _ a

omit [LT α] [DecidableLT α] [DecidableEq α] in
@[simp]
theorem toList_singleton (a : α) : (SortedSet.singleton a).toList = [a] := rfl

theorem mem_insertInto {a b : α} {members : List α} :
    b ∈ insertInto a members ↔ b = a ∨ b ∈ members := by
  induction members with
  | nil => simp [insertInto]
  | cons c rest ih =>
    unfold insertInto
    split
    · simp
    split
    next heq => simp [heq]
    · simp [ih, or_left_comm]

theorem mem_mergeHead {a b : α} {members : List α} {rest : List α → List α}
    (hrest : ∀ others, b ∈ rest others ↔ b ∈ members ∨ b ∈ others) (others : List α) :
    b ∈ mergeHead a rest others ↔ b ∈ a :: members ∨ b ∈ others := by
  induction others with
  | nil => simp [mergeHead, hrest]
  | cons c others ih =>
    unfold mergeHead
    split
    · simp [hrest, or_assoc]
    split
    next heq =>
      subst heq
      simp only [List.mem_cons, hrest]
      tauto
    · simp only [List.mem_cons, ih]
      tauto

theorem mem_merge {b : α} {members others : List α} :
    b ∈ merge members others ↔ b ∈ members ∨ b ∈ others := by
  induction members generalizing others with
  | nil => simp [merge]
  | cons a members ih => exact mem_mergeHead (fun _ => ih) others

@[simp]
theorem mem_union {b : α} {set other : SortedSet α} :
    b ∈ (set.union other).toList ↔ b ∈ set.toList ∨ b ∈ other.toList :=
  mem_merge

theorem mem_foldl_insert {b : α} {members : List α} {set : SortedSet α} :
    b ∈ (members.foldl insert set).toList ↔ b ∈ set.toList ∨ b ∈ members := by
  induction members generalizing set with
  | nil => simp
  | cons a members ih =>
    rw [List.foldl_cons, ih]
    simp only [insert, toList, mem_insertInto, List.mem_cons]
    tauto

theorem mem_ofList {b : α} {members : List α} :
    b ∈ (ofList members).toList ↔ b ∈ members := by
  rw [ofList, mem_foldl_insert]
  simp [empty, toList]

omit [LT α] [DecidableLT α] in
@[simp]
theorem mem_erase {a b : α} {set : SortedSet α} :
    b ∈ (set.erase a).toList ↔ b ∈ set.toList ∧ b ≠ a := by
  simp [erase, toList]

omit [LT α] [DecidableLT α] in
theorem contains_iff_mem {a : α} {set : SortedSet α} :
    set.contains a = true ↔ a ∈ set.toList := by
  simp [contains, toList]

theorem mem_add {a b : α} {set : SortedSet α} :
    b ∈ (set.add a).1.toList ↔ b = a ∨ b ∈ set.toList := by
  unfold add
  split
  next hknown =>
    have hmem : a ∈ set.toList := contains_iff_mem.mp hknown
    constructor
    · exact Or.inr
    · rintro (rfl | hb)
      · exact hmem
      · exact hb
  · exact mem_insertInto

/-- A member is told to be new exactly when it was not there. -/
theorem add_new_iff {a : α} {set : SortedSet α} : (set.add a).2 = true ↔ a ∉ set.toList := by
  rw [← contains_iff_mem, add]
  split
  next hknown => simp [hknown]
  next hknown => simp [hknown]

omit [DecidableLT α] in
theorem Ascending.erase {set : SortedSet α} (h : set.Ascending) (a : α) :
    (set.erase a).Ascending :=
  List.Pairwise.filter _ h

section Ordered

variable [IsStrictTotalOrder α (· < ·)]

omit [DecidableLT α] [DecidableEq α] in
theorem lt_of_not_lt_of_ne {a b : α} (hlt : ¬ a < b) (hne : a ≠ b) : b < a := by
  rcases trichotomous_of (· < ·) a b with h | h | h
  · exact absurd h hlt
  · exact absurd h hne
  · exact h

theorem pairwise_insertInto {a : α} {members : List α} (hmembers : members.Pairwise (· < ·)) :
    (insertInto a members).Pairwise (· < ·) := by
  induction members with
  | nil => exact List.pairwise_singleton _ a
  | cons b rest ih =>
    obtain ⟨hfirst, hrest⟩ := List.pairwise_cons.mp hmembers
    unfold insertInto
    split
    next hlt =>
      refine List.pairwise_cons.mpr ⟨fun c hc => ?_, hmembers⟩
      rcases List.mem_cons.mp hc with rfl | hc
      · exact hlt
      · exact trans_of (· < ·) hlt (hfirst c hc)
    split
    · exact hmembers
    next hlt hne =>
      refine List.pairwise_cons.mpr ⟨fun c hc => ?_, ih hrest⟩
      rcases mem_insertInto.mp hc with rfl | hc
      · exact lt_of_not_lt_of_ne hlt hne
      · exact hfirst c hc

theorem Ascending.add {set : SortedSet α} (h : set.Ascending) (a : α) :
    (set.add a).1.Ascending := by
  unfold SortedSet.add
  split
  · exact h
  · exact pairwise_insertInto h

theorem Ascending.foldl_insert {set : SortedSet α} (h : set.Ascending) (members : List α) :
    (members.foldl insert set).Ascending := by
  induction members generalizing set with
  | nil => exact h
  | cons a members ih => exact ih (pairwise_insertInto h)

theorem ascending_ofList (members : List α) : (ofList members).Ascending :=
  ascending_empty.foldl_insert members

theorem pairwise_merge {members others : List α} (hmembers : members.Pairwise (· < ·))
    (hothers : others.Pairwise (· < ·)) : (merge members others).Pairwise (· < ·) := by
  induction members generalizing others with
  | nil => exact hothers
  | cons a members ih =>
    obtain ⟨hafter, hmembers⟩ := List.pairwise_cons.mp hmembers
    -- Below the head, everything that is merged is larger than the head.
    have hhead : ∀ {rest : List α}, rest.Pairwise (· < ·) → (∀ c ∈ rest, a < c) →
        (a :: merge members rest).Pairwise (· < ·) := by
      intro rest hrest hlarger
      refine List.pairwise_cons.mpr ⟨fun c hc => ?_, ih hmembers hrest⟩
      rcases mem_merge.mp hc with hc | hc
      · exact hafter c hc
      · exact hlarger c hc
    change (mergeHead a (merge members) others).Pairwise (· < ·)
    induction others with
    | nil => exact hhead List.Pairwise.nil (by simp)
    | cons b others ihOthers =>
      obtain ⟨hfirst, hrest⟩ := List.pairwise_cons.mp hothers
      unfold mergeHead
      split
      next hlt =>
        refine hhead hothers fun c hc => ?_
        rcases List.mem_cons.mp hc with rfl | hc
        · exact hlt
        · exact trans_of (· < ·) hlt (hfirst c hc)
      split
      next heq =>
        subst heq
        exact hhead hrest hfirst
      next hlt hne =>
        have hba : b < a := lt_of_not_lt_of_ne hlt hne
        refine List.pairwise_cons.mpr ⟨fun c hc => ?_, ihOthers hrest⟩
        rcases (mem_mergeHead (fun _ => mem_merge) others).mp hc with hc | hc
        · rcases List.mem_cons.mp hc with rfl | hc
          · exact hba
          · exact trans_of (· < ·) hba (hafter c hc)
        · exact hfirst c hc

theorem Ascending.union {set other : SortedSet α} (hset : set.Ascending)
    (hother : other.Ascending) : (set.union other).Ascending :=
  pairwise_merge hset hother

omit [DecidableEq α] in
/-- Dropping the members below `a` keeps exactly those that are not below it. -/
theorem mem_dropWhile_lt {a b : α} {members : List α} (hmembers : members.Pairwise (· < ·)) :
    b ∈ members.dropWhile (fun c => decide (c < a)) ↔ b ∈ members ∧ ¬ b < a := by
  induction members with
  | nil => simp
  | cons c rest ih =>
    obtain ⟨hfirst, hrest⟩ := List.pairwise_cons.mp hmembers
    by_cases hlt : c < a
    · rw [List.dropWhile_cons_of_pos (by simpa using hlt), ih hrest]
      constructor
      · exact fun ⟨hb, hba⟩ => ⟨List.mem_cons_of_mem _ hb, hba⟩
      · rintro ⟨hb, hba⟩
        rcases List.mem_cons.mp hb with rfl | hb
        · exact absurd hlt hba
        · exact ⟨hb, hba⟩
    · rw [List.dropWhile_cons_of_neg (by simpa using hlt)]
      constructor
      · intro hb
        refine ⟨hb, fun hba => hlt ?_⟩
        rcases List.mem_cons.mp hb with rfl | hb
        · exact hba
        · exact trans_of (· < ·) (hfirst b hb) hba
      · exact And.left

omit [DecidableEq α] in
/-- A member of an ascending list that starts with `a` is never below `a`, so that dropping the
members below `a` from another list does not matter to it. -/
theorem mem_iff_mem_dropWhile_lt {a b : α} {members others : List α}
    (hmembers : (a :: members).Pairwise (· < ·)) (hothers : others.Pairwise (· < ·))
    (hb : b ∈ a :: members) : b ∈ others ↔ b ∈ others.dropWhile (fun c => decide (c < a)) := by
  have hba : ¬ b < a := by
    rcases List.mem_cons.mp hb with rfl | hb
    · exact irrefl_of (· < ·) b
    · have hab : a < b := List.rel_of_pairwise_cons hmembers hb
      exact fun h => irrefl_of (· < ·) b (trans_of (· < ·) h hab)
  rw [mem_dropWhile_lt hothers]
  exact ⟨fun h => ⟨h, hba⟩, And.left⟩

theorem mem_subtract {b : α} {members others : List α} (hmembers : members.Pairwise (· < ·))
    (hothers : others.Pairwise (· < ·)) :
    b ∈ subtract members others ↔ b ∈ members ∧ b ∉ others := by
  induction members generalizing others with
  | nil => simp [subtract]
  | cons a members ih =>
    have hkept := fun c => mem_iff_mem_dropWhile_lt (b := c) hmembers hothers
    obtain ⟨hafter, hmembers⟩ := List.pairwise_cons.mp hmembers
    have hdrop := fun c => mem_dropWhile_lt (a := a) (b := c) hothers
    have hsorted := hothers.sublist (List.dropWhile_sublist (fun d => decide (d < a)))
    unfold subtract
    cases hrest : others.dropWhile (fun d => decide (d < a)) with
    | nil =>
      constructor
      · intro hb
        exact ⟨hb, fun hmem => by simpa [hrest] using (hkept b hb).mp hmem⟩
      · exact And.left
    | cons c rest =>
      rw [hrest] at hkept hsorted
      obtain ⟨hfirst, hsorted'⟩ := List.pairwise_cons.mp hsorted
      dsimp only
      split
      next heq =>
        subst heq
        rw [ih hmembers hsorted']
        constructor
        · rintro ⟨hb, hnot⟩
          refine ⟨List.mem_cons_of_mem _ hb, fun hmem => ?_⟩
          rcases List.mem_cons.mp ((hkept b (List.mem_cons_of_mem _ hb)).mp hmem) with rfl | hmem
          · exact irrefl_of (· < ·) b (hafter b hb)
          · exact hnot hmem
        · rintro ⟨hb, hnot⟩
          rcases List.mem_cons.mp hb with rfl | hb'
          · exact absurd ((hkept b hb).mpr List.mem_cons_self) hnot
          · exact ⟨hb', fun hmem => hnot ((hkept b hb).mpr (List.mem_cons_of_mem _ hmem))⟩
      next hne =>
        have hca : ¬ c < a := ((hdrop c).mp (by rw [hrest]; exact List.mem_cons_self)).2
        have hac : a < c := lt_of_not_lt_of_ne hca (Ne.symm hne)
        rw [List.mem_cons, ih hmembers hsorted]
        constructor
        · rintro (rfl | ⟨hb, hnot⟩)
          · refine ⟨List.mem_cons_self, fun hmem => ?_⟩
            rcases List.mem_cons.mp ((hkept b List.mem_cons_self).mp hmem) with heq | hmem
            · exact hne heq
            · exact irrefl_of (· < ·) b (trans_of (· < ·) hac (hfirst b hmem))
          · exact ⟨List.mem_cons_of_mem _ hb,
              fun hmem => hnot ((hkept b (List.mem_cons_of_mem _ hb)).mp hmem)⟩
        · rintro ⟨hb, hnot⟩
          rcases List.mem_cons.mp hb with rfl | hb'
          · exact .inl rfl
          · exact .inr ⟨hb', fun hmem => hnot ((hkept b hb).mpr hmem)⟩

theorem mem_difference {b : α} {set other : SortedSet α} (hset : set.Ascending)
    (hother : other.Ascending) :
    b ∈ (set.difference other).toList ↔ b ∈ set.toList ∧ b ∉ other.toList :=
  mem_subtract hset hother

theorem overlap_iff {members others : List α} (hmembers : members.Pairwise (· < ·))
    (hothers : others.Pairwise (· < ·)) :
    overlap members others = true ↔ ∃ b ∈ members, b ∈ others := by
  induction members generalizing others with
  | nil => simp [overlap]
  | cons a members ih =>
    have hkept := fun c => mem_iff_mem_dropWhile_lt (b := c) hmembers hothers
    obtain ⟨hafter, hmembers⟩ := List.pairwise_cons.mp hmembers
    have hsorted := hothers.sublist (List.dropWhile_sublist (fun d => decide (d < a)))
    -- Only what is kept of the other list matters to the members.
    have hwhole : (∃ b ∈ a :: members, b ∈ others) ↔
        ∃ b ∈ a :: members, b ∈ others.dropWhile (fun d => decide (d < a)) :=
      exists_congr fun b => and_congr_right fun hb => hkept b hb
    rw [hwhole]
    unfold overlap
    cases hrest : others.dropWhile (fun d => decide (d < a)) with
    | nil => simp
    | cons c rest =>
      rw [hrest] at hsorted
      have hca : ¬ c < a :=
        ((mem_dropWhile_lt hothers).mp (by rw [hrest]; exact List.mem_cons_self)).2
      simp only [Bool.or_eq_true, decide_eq_true_eq, ih hmembers hsorted, List.mem_cons]
      constructor
      · rintro (rfl | ⟨b, hb, hmem⟩)
        · exact ⟨a, .inl rfl, .inl rfl⟩
        · exact ⟨b, .inr hb, hmem⟩
      · rintro ⟨b, rfl | hb, hmem⟩
        · rcases hmem with rfl | hmem
          · exact .inl rfl
          · have hcb : c < b := List.rel_of_pairwise_cons hsorted hmem
            exact absurd hcb hca
        · exact .inr ⟨b, hb, hmem⟩

theorem intersects_iff {set other : SortedSet α} (hset : set.Ascending)
    (hother : other.Ascending) :
    set.intersects other = true ↔ ∃ b ∈ set.toList, b ∈ other.toList :=
  overlap_iff hset hother

omit [DecidableLT α] [DecidableEq α] in
theorem Ascending.nodup {set : SortedSet α} (hset : set.Ascending) : set.toList.Nodup := by
  refine List.Pairwise.imp ?_ hset
  rintro a b hlt rfl
  exact irrefl_of (· < ·) a hlt

theorem isSubset_iff {set other : SortedSet α} (hset : set.Ascending) (hother : other.Ascending) :
    set.isSubset other = true ↔ ∀ b ∈ set.toList, b ∈ other.toList := by
  have hempty : (set.difference other).isEmpty = true ↔
      ∀ b, b ∉ (set.difference other).toList := by
    rw [isEmpty, List.isEmpty_iff, List.eq_nil_iff_forall_not_mem]
    rfl
  -- A subset has no more members, so that comparing the sizes first refuses none.
  have hsize : (∀ b ∈ set.toList, b ∈ other.toList) → set.size ≤ other.size :=
    fun hsubset => (hset.nodup.subperm hsubset).length_le
  simp only [isSubset, Bool.and_eq_true, decide_eq_true_eq, hempty, mem_difference hset hother,
    not_and, not_not]
  exact ⟨And.right, fun hsubset => ⟨hsize hsubset, hsubset⟩⟩

omit [IsStrictTotalOrder α (· < ·)] in
theorem subtract_sublist (members others : List α) : (subtract members others).Sublist members := by
  induction members generalizing others with
  | nil => exact List.Sublist.refl _
  | cons a members ih =>
    unfold subtract
    split
    · exact List.Sublist.refl _
    split
    · exact (ih _).cons a
    · exact (ih _).cons_cons a

omit [IsStrictTotalOrder α (· < ·)] in
theorem Ascending.difference {set : SortedSet α} (hset : set.Ascending) (other : SortedSet α) :
    (set.difference other).Ascending :=
  hset.sublist (subtract_sublist _ _)

/-- Adding the new members is adding all of them. -/
theorem mem_addAll {b : α} {set other : SortedSet α} (hset : set.Ascending)
    (hother : other.Ascending) :
    b ∈ (set.addAll other).1.toList ↔ b ∈ set.toList ∨ b ∈ other.toList := by
  have hnew : b ∈ (other.difference set).toList ↔ b ∈ other.toList ∧ b ∉ set.toList :=
    mem_difference hother hset
  unfold addAll
  dsimp only
  split
  next hnone =>
    have hnil : (other.difference set).toList = [] := List.isEmpty_iff.mp hnone
    rw [hnil] at hnew
    simpa using hnew
  · rw [mem_union, hnew]
    tauto

/-- What `addAll` gives are the members that were not there. -/
theorem mem_addAll_new {b : α} {set other : SortedSet α} (hset : set.Ascending)
    (hother : other.Ascending) :
    b ∈ (set.addAll other).2.toList ↔ b ∈ other.toList ∧ b ∉ set.toList := by
  have hadded : (set.addAll other).2 = other.difference set := by
    unfold addAll
    dsimp only
    split <;> rfl
  rw [hadded, mem_difference hother hset]

theorem Ascending.addAll {set other : SortedSet α} (hset : set.Ascending)
    (hother : other.Ascending) :
    (set.addAll other).1.Ascending ∧ (set.addAll other).2.Ascending := by
  have hnew := hother.difference set
  unfold SortedSet.addAll
  dsimp only
  split
  · exact ⟨hset, hnew⟩
  · exact ⟨hset.union hnew, hnew⟩

end Ordered

end SortedSet

end ObjectFlow
