import Mathlib.Data.List.Perm.Subperm
import Mathlib.Logic.Relation
import ObjectFlow.Program.Defect
import ObjectFlow.Proofs.Iteration

/-!
# Chains of superclasses

A chain leads from each class to its superclass, and on from there.  It comes to a class
without a superclass, or it gets into a cycle, which need not contain the class where the
chain starts.  The check of a class walks up its chain.  It gives up when the chain comes back
to the class, and when the chain is longer than the table of classes, since a chain without a
cycle meets no class twice.
-/

namespace ObjectFlow.Listing

open Iteration (Ends Turn)
open Relation (ReflTransGen TransGen)

variable {listing : Listing} {c d : Class} {origin : ClassId} {steps : Nat}

/-- A class has another one as its superclass. -/
def Extends (listing : Listing) (c d : Class) : Prop :=
  ∃ parent, c.superClass = some parent ∧ listing.classes[parent.index]? = some d

/-- The chain of a class comes to a class without a superclass. -/
def Rooted (listing : Listing) (c : Class) : Prop :=
  ∃ root, ReflTransGen listing.Extends c root ∧ root.superClass = none

/-- The chain of a class gets into a cycle. -/
def Circular (listing : Listing) (c : Class) : Prop :=
  ∃ d, ReflTransGen listing.Extends c d ∧ TransGen listing.Extends d d

theorem Extends.unique {d' : Class} (h : listing.Extends c d) (h' : listing.Extends c d') :
    d = d' := by
  obtain ⟨parent, hparent, hd⟩ := h
  obtain ⟨parent', hparent', hd'⟩ := h'
  cases hparent.symm.trans hparent'
  exact Option.some.inj (hd.symm.trans hd')

theorem Extends.mem (h : listing.Extends c d) : d ∈ listing.classes.toList := by
  obtain ⟨parent, -, hd⟩ := h
  exact Array.mem_toList_iff.mpr (Array.mem_of_getElem? hd)

/-- A chain that gets into a cycle never ends. -/
theorem Circular.exists_extends (h : listing.Circular c) :
    ∃ d, listing.Extends c d ∧ listing.Circular d := by
  obtain ⟨knot, hreach, hcycle⟩ := h
  cases hreach using ReflTransGen.head_induction_on with
  | refl =>
    obtain ⟨d, hfirst, hrest⟩ := TransGen.head'_iff.mp hcycle
    exact ⟨d, hfirst, c, hrest, hcycle⟩
  | head hfirst hrest => exact ⟨_, hfirst, knot, hrest, hcycle⟩

theorem Circular.not_rooted (h : listing.Circular c) : ¬ listing.Rooted c := by
  rintro ⟨root, hreach, hroot⟩
  induction hreach using ReflTransGen.head_induction_on with
  | refl =>
    obtain ⟨d, ⟨parent, hparent, -⟩, -⟩ := h.exists_extends
    rw [hroot] at hparent
    cases hparent
  | head hfirst _ ih =>
    obtain ⟨d, hextends, hcircular⟩ := h.exists_extends
    exact ih (hextends.unique hfirst ▸ hcircular)

/-- A chain of classes that is longer than the table meets some class twice. -/
theorem circular_of_length_lt {path : List Class} (hchain : (c :: path).IsChain listing.Extends)
    (hlength : listing.classes.size < path.length) : listing.Circular c := by
  by_contra hacyclic
  have hpairwise : (c :: path).Pairwise (TransGen listing.Extends) :=
    (hchain.imp fun _ _ => TransGen.single).pairwise
  obtain ⟨hreach, hpath⟩ := List.pairwise_cons.mp hpairwise
  have hnodup : path.Nodup := by
    refine hpath.imp_of_mem fun {a b} ha _ hab heq => hacyclic ?_
    exact ⟨a, (hreach a ha).to_reflTransGen, heq ▸ hab⟩
  have hmem : path ⊆ listing.classes.toList := by
    intro d hd
    obtain ⟨e, -, hextends⟩ := TransGen.tail'_iff.mp (hreach d hd)
    exact hextends.mem
  have hle : path.length ≤ listing.classes.size := (List.subperm_of_subset hnodup hmem).length_le
  omega

section Check

theorem chainEnds_of_circular (h : listing.Circular c) :
    listing.chainEnds origin steps c.superClass = false := by
  induction steps generalizing c with
  | zero =>
    obtain ⟨d, ⟨parent, hparent, -⟩, -⟩ := h.exists_extends
    rw [hparent, chainEnds]
  | succ steps ih =>
    obtain ⟨d, ⟨parent, hparent, hd⟩, hcircular⟩ := h.exists_extends
    rw [hparent, chainEnds, hd, Option.bind_some, ih hcircular, Bool.and_false]

/-- A walk that ends has come to a class without a superclass, when superclasses are classes
of the table. -/
theorem rooted_of_chainEnds
    (hknown : ∀ c ∈ listing.classes, ∀ parent ∈ c.superClass, parent.index < listing.classes.size)
    (hc : c ∈ listing.classes) (h : listing.chainEnds origin steps c.superClass = true) :
    listing.Rooted c := by
  induction steps generalizing c with
  | zero =>
    cases hparent : c.superClass with
    | none => exact ⟨c, .refl, hparent⟩
    | some parent => simp [hparent, chainEnds] at h
  | succ steps ih =>
    cases hparent : c.superClass with
    | none => exact ⟨c, .refl, hparent⟩
    | some parent =>
      have hd := Array.getElem?_eq_getElem (hknown c hc parent hparent)
      rw [hparent, chainEnds, hd, Option.bind_some, Bool.and_eq_true] at h
      obtain ⟨root, hreach, hroot⟩ := ih (Array.getElem_mem _) h.2
      exact ⟨root, .head ⟨parent, hparent, hd⟩ hreach, hroot⟩

/-- A walk that gives up has come back to its start or made all its steps. -/
theorem exists_of_not_chainEnds (h : listing.chainEnds origin steps c.superClass = false) :
    (∃ d, ReflTransGen listing.Extends c d ∧ d.superClass = some origin) ∨
      ∃ path : List Class, path.length = steps ∧ (c :: path).IsChain listing.Extends := by
  induction steps generalizing c with
  | zero => exact .inr ⟨[], rfl, .singleton c⟩
  | succ steps ih =>
    cases hparent : c.superClass with
    | none => simp [hparent, chainEnds] at h
    | some parent =>
      rw [hparent, chainEnds, Bool.and_eq_false_iff] at h
      rcases h with hback | hrest
      · exact .inl ⟨c, .refl, by simpa [hparent] using hback⟩
      · cases hd : listing.classes[parent.index]? with
        | none => simp [hd, chainEnds] at hrest
        | some d =>
          have hextends : listing.Extends c d := ⟨parent, hparent, hd⟩
          rw [hd, Option.bind_some] at hrest
          rcases ih hrest with ⟨e, hreach, he⟩ | ⟨path, hlength, hchain⟩
          · exact .inl ⟨e, .head hextends hreach, he⟩
          · exact .inr ⟨d :: path, by simp [hlength], hchain.cons_cons hextends⟩

/-- The check refuses a class whose chain gets into a cycle, wherever the cycle is. -/
theorem cycleDefect?_of_circular (h : listing.Circular c) :
    listing.cycleDefect? c = some (.cyclicParents c.name) := by
  rw [cycleDefect?, chainEnds_of_circular h]
  rfl

/-- The check refuses no class with a chain that is free of cycles, however long it is. -/
theorem cycleDefect?_of_not_circular (hplace : listing.classes[c.id.index]? = some c)
    (h : ¬ listing.Circular c) : listing.cycleDefect? c = none := by
  suffices hends : listing.chainEnds c.id (listing.classes.size + 1) c.superClass = true by
    rw [cycleDefect?, if_pos hends]
  by_contra hgives
  rcases exists_of_not_chainEnds (Bool.eq_false_iff.mpr hgives) with
    ⟨d, hreach, hback⟩ | ⟨path, hlength, hchain⟩
  · have hextends : listing.Extends d c := ⟨c.id, hback, hplace⟩
    exact h ⟨c, .refl, .tail' hreach hextends⟩
  · exact h (circular_of_length_lt hchain (by omega))

theorem cycleDefect?_eq_none_iff
    (hknown : ∀ c ∈ listing.classes, ∀ parent ∈ c.superClass, parent.index < listing.classes.size)
    (hplace : listing.classes[c.id.index]? = some c) :
    listing.cycleDefect? c = none ↔ listing.Rooted c := by
  constructor
  · intro hnone
    apply rooted_of_chainEnds hknown (Array.mem_of_getElem? hplace)
    by_contra hgives
    rw [cycleDefect?, if_neg hgives] at hnone
    cases hnone
  · exact fun hrooted => cycleDefect?_of_not_circular hplace fun h => h.not_rooted hrooted

end Check

section Termination

/-- One turn of the walk up a chain that has made `depth` steps so far.  The walk has no bound
other than the one that it checks itself. -/
def climb (listing : Listing) (origin : ClassId) :
    Option ClassId × Nat → Turn (Option ClassId × Nat)
  | (none, depth) => .done (none, depth)
  | (some current, depth) =>
    if current = origin ∨ listing.classes.size < depth then .done (some current, depth)
    else .more (listing.classes[current.index]?.bind Class.superClass, depth + 1)

/-- The walk ends for every class of every listing, and finds the end of the chain exactly when
the check accepts the class. -/
theorem exists_ends_climb (listing : Listing) (c : Class) :
    ∃ count final, Ends (listing.climb c.id) (c.superClass, 0) count final ∧
      (listing.cycleDefect? c = none ↔ final.1 = none) ∧ count ≤ listing.classes.size + 1 := by
  let left (state : Option ClassId × Nat) : Nat := listing.classes.size + 1 - state.2
  -- Whatever the walk has seen so far, the rest of the chain still decides.
  let Inv (state : Option ClassId × Nat) : Prop := state.2 ≤ listing.classes.size + 1 ∧
    (listing.cycleDefect? c = none ↔ listing.chainEnds c.id (left state) state.1 = true)
  let Final (state : Option ClassId × Nat) : Prop :=
    listing.cycleDefect? c = none ↔ state.1 = none
  have hmore : ∀ state next, Inv state → listing.climb c.id state = .more next →
      Inv next ∧ left next < left state := by
    rintro ⟨current, depth⟩ next ⟨hdepth, hrest⟩ hnext
    cases current with
    | none => cases hnext
    | some current =>
      rw [climb] at hnext
      split at hnext
      · cases hnext
      · next hgoes =>
        cases hnext
        obtain ⟨hother, hshort⟩ := not_or.mp hgoes
        have hleft : left (some current, depth) = listing.classes.size - depth + 1 := by
          simp only [left]
          omega
        rw [hleft, chainEnds, bne_iff_ne.mpr hother, Bool.true_and] at hrest
        refine ⟨⟨by simp only; omega, ?_⟩, by simp only [left]; omega⟩
        simpa only [left, Nat.add_sub_add_right] using hrest
  have hdone : ∀ state final, Inv state → listing.climb c.id state = .done final →
      Final final := by
    rintro ⟨current, depth⟩ final ⟨hdepth, hrest⟩ hdone
    cases current with
    | none =>
      cases hdone
      simpa [Final, chainEnds] using hrest
    | some current =>
      rw [climb] at hdone
      split at hdone
      · next hstops =>
        cases hdone
        have hfails :
            listing.chainEnds c.id (left (some current, depth)) (some current) = false := by
          rcases hstops with rfl | hlong
          · cases left (some c.id, depth) <;> simp [chainEnds]
          · have hleft : left (some current, depth) = 0 := by
              simp only [left]
              omega
            rw [hleft, chainEnds]
        simpa [Final, hfails] using hrest
      · cases hdone
  have hstart : Inv (c.superClass, 0) := by
    refine ⟨Nat.zero_le _, ?_⟩
    simp [left, cycleDefect?]
  have hrounds : left (c.superClass, 0) + 1 < 2 ^ (listing.classes.size + 2) :=
    Nat.lt_two_pow_self
  obtain ⟨count, hends, hfinal, hcount⟩ := Iteration.exists_ends hmore hdone hstart hrounds
  exact ⟨count, _, hends, hfinal, hcount⟩

end Termination

end ObjectFlow.Listing
