import Mathlib.Data.Finset.SDiff
import Mathlib.Data.List.Sort
import Mathlib.Logic.Function.Basic
import ObjectFlow.Proofs.SortedSet

/-!
# Sessions with sets

Ascending lists stand for finite sets.  A session names sets, builds them one from another in any
order and asks about them.  The same session is run on ascending lists and on finite sets: all
answers are the same, and in the end every name has an ascending list with the members of its
finite set.  So no sequence of operations tells an ascending list from a set.
-/

namespace ObjectFlow

namespace SortedSet

variable {α : Type} [LT α] [DecidableLT α] [DecidableEq α]

/-- An ascending list with the members of a finite set. -/
structure Holds (set : SortedSet α) (members : Finset α) : Prop where
  ascending : set.Ascending
  mem_iff : ∀ a, a ∈ set.toList ↔ a ∈ members

variable {set other : SortedSet α} {s t : Finset α} {a : α}

omit [DecidableLT α] [DecidableEq α] in
theorem holds_empty : Holds (SortedSet.empty : SortedSet α) ∅ :=
  ⟨ascending_empty, by simp [empty, toList]⟩

omit [DecidableLT α] [DecidableEq α] in
theorem holds_singleton (a : α) : Holds (.singleton a) {a} :=
  ⟨ascending_singleton a, by simp⟩

omit [DecidableLT α] in
theorem Holds.contains_eq (h : Holds set s) (a : α) : set.contains a = decide (a ∈ s) := by
  rw [Bool.eq_iff_iff, contains_iff_mem, decide_eq_true_eq, h.mem_iff]

section Ordered

variable [IsStrictTotalOrder α (· < ·)]

omit [DecidableLT α] [DecidableEq α] in
/-- Ascending lists with the same members are equal. -/
theorem Ascending.ext (hset : set.Ascending) (hother : other.Ascending)
    (h : ∀ a, a ∈ set.toList ↔ a ∈ other.toList) : set = other := by
  have hlists : set.toList = other.toList := List.Pairwise.eq_of_mem_iff hset hother h
  cases set
  cases other
  exact congrArg SortedSet.mk hlists

theorem holds_ofList (members : List α) : Holds (.ofList members) members.toFinset :=
  ⟨ascending_ofList members, by simp [mem_ofList]⟩

theorem Holds.difference (h : Holds set s) (h' : Holds other t) :
    Holds (set.difference other) (s \ t) where
  ascending := h.ascending.difference other
  mem_iff a := by
    rw [mem_difference h.ascending h'.ascending, h.mem_iff, h'.mem_iff, Finset.mem_sdiff]

/-- A member is told to be new exactly when it was not there. -/
theorem Holds.add (h : Holds set s) (a : α) :
    Holds (set.add a).1 (Insert.insert a s) ∧ (set.add a).2 = decide (a ∉ s) := by
  constructor
  · refine ⟨h.ascending.add a, fun b => ?_⟩
    rw [mem_add, h.mem_iff, Finset.mem_insert]
  · rw [Bool.eq_iff_iff, add_new_iff, h.mem_iff, decide_eq_true_eq]

/-- The new members are those of the other set that were not there. -/
theorem Holds.addAll (h : Holds set s) (h' : Holds other t) :
    Holds (set.addAll other).1 (s ∪ t) ∧ Holds (set.addAll other).2 (t \ s) := by
  obtain ⟨hall, hnew⟩ := h.ascending.addAll h'.ascending
  constructor
  · refine ⟨hall, fun a => ?_⟩
    rw [mem_addAll h.ascending h'.ascending, h.mem_iff, h'.mem_iff, Finset.mem_union]
  · refine ⟨hnew, fun a => ?_⟩
    rw [mem_addAll_new h.ascending h'.ascending, h.mem_iff, h'.mem_iff, Finset.mem_sdiff]

theorem Holds.intersects_eq (h : Holds set s) (h' : Holds other t) :
    set.intersects other = decide (s ∩ t).Nonempty := by
  rw [Bool.eq_iff_iff, intersects_iff h.ascending h'.ascending, decide_eq_true_eq]
  simp only [h.mem_iff, h'.mem_iff, Finset.Nonempty, Finset.mem_inter]

theorem Holds.isSubset_eq (h : Holds set s) (h' : Holds other t) :
    set.isSubset other = decide (s ⊆ t) := by
  rw [Bool.eq_iff_iff, isSubset_iff h.ascending h'.ascending, decide_eq_true_eq,
    Finset.subset_iff]
  simp only [h.mem_iff, h'.mem_iff]

omit [DecidableLT α] [DecidableEq α] in
theorem Holds.eq_iff (h : Holds set s) (h' : Holds other t) : set = other ↔ s = t := by
  constructor
  · rintro rfl
    ext a
    rw [← h.mem_iff, h'.mem_iff]
  · rintro rfl
    apply h.ascending.ext h'.ascending
    intro a
    rw [h.mem_iff, h'.mem_iff]

end Ordered

end SortedSet

namespace SetSession

/-- What can be done with sets of type `σ` over `α`. -/
structure Operations (σ α : Type) where
  empty : σ
  singleton : α → σ
  ofList : List α → σ
  /-- Inserts a member, and tells whether it is new. -/
  add : σ → α → σ × Bool
  /-- Adds the members of another set, and gives those that are new. -/
  addAll : σ → σ → σ × σ
  difference : σ → σ → σ
  contains : σ → α → Bool
  intersects : σ → σ → Bool
  isSubset : σ → σ → Bool
  equal : σ → σ → Bool

variable {σ ν α : Type} [DecidableEq ν] [DecidableEq α]

/-- The operations on ascending lists. -/
def ascendingLists [LT α] [DecidableLT α] : Operations (SortedSet α) α where
  empty := SortedSet.empty
  singleton := SortedSet.singleton
  ofList := SortedSet.ofList
  add := SortedSet.add
  addAll := SortedSet.addAll
  difference := SortedSet.difference
  contains := SortedSet.contains
  intersects := SortedSet.intersects
  isSubset := SortedSet.isSubset
  equal set other := decide (set = other)

/-- The operations on finite sets. -/
def finiteSets : Operations (Finset α) α where
  empty := ∅
  singleton a := {a}
  ofList := List.toFinset
  add s a := (insert a s, decide (a ∉ s))
  addAll s t := (s ∪ t, t \ s)
  difference s t := s \ t
  contains s a := decide (a ∈ s)
  intersects s t := decide (s ∩ t).Nonempty
  isSubset s t := decide (s ⊆ t)
  equal s t := decide (s = t)

/-- What can be asked of sets with names in `ν`. -/
inductive Command (ν α : Type) where
  | empty (target : ν)
  | singleton (target : ν) (a : α)
  | ofList (target : ν) (members : List α)
  | add (target : ν) (a : α)
  /-- Adds the set `other` to `target`, and gives the name `added` to the new members. -/
  | addAll (target other added : ν)
  /-- Gives the name `target` to a difference. -/
  | difference (target left right : ν)
  | contains (set : ν) (a : α)
  | intersects (left right : ν)
  | isSubset (left right : ν)
  | equal (left right : ν)

/-- Follows a command, and gives its answer when it is a question or inserts a member. -/
def perform (ops : Operations σ α) (sets : ν → σ) : Command ν α → (ν → σ) × Option Bool
  | .empty target => (Function.update sets target ops.empty, none)
  | .singleton target a => (Function.update sets target (ops.singleton a), none)
  | .ofList target members => (Function.update sets target (ops.ofList members), none)
  | .add target a =>
    let (set, new) := ops.add (sets target) a
    (Function.update sets target set, some new)
  | .addAll target other added =>
    let (set, new) := ops.addAll (sets target) (sets other)
    (Function.update (Function.update sets target set) added new, none)
  | .difference target left right =>
    (Function.update sets target (ops.difference (sets left) (sets right)), none)
  | .contains set a => (sets, some (ops.contains (sets set) a))
  | .intersects left right => (sets, some (ops.intersects (sets left) (sets right)))
  | .isSubset left right => (sets, some (ops.isSubset (sets left) (sets right)))
  | .equal left right => (sets, some (ops.equal (sets left) (sets right)))

/-- Follows commands one after another, and gives the sets in the end and all answers. -/
def run (ops : Operations σ α) (sets : ν → σ) : List (Command ν α) → (ν → σ) × List (Option Bool)
  | [] => (sets, [])
  | command :: commands =>
    let (next, answer) := perform ops sets command
    let (final, answers) := run ops next commands
    (final, answer :: answers)

variable [LT α] [DecidableLT α]

/-- Under every name stands an ascending list with the members of the finite set. -/
def Matches (lists : ν → SortedSet α) (sets : ν → Finset α) : Prop :=
  ∀ name, (lists name).Holds (sets name)

variable {lists : ν → SortedSet α} {sets : ν → Finset α}

omit [DecidableEq α] [DecidableLT α] in
theorem Matches.update (h : Matches lists sets) {set : SortedSet α} {s : Finset α}
    (hset : set.Holds s) (target : ν) :
    Matches (Function.update lists target set) (Function.update sets target s) := by
  intro name
  by_cases hname : name = target
  · subst hname
    simpa using hset
  · simpa [Function.update_of_ne hname] using h name

variable [IsStrictTotalOrder α (· < ·)]

/-- A command has the same answer on lists and on sets, and they match again afterwards. -/
theorem Matches.perform (h : Matches lists sets) (command : Command ν α) :
    Matches (perform ascendingLists lists command).1 (perform finiteSets sets command).1 ∧
      (perform ascendingLists lists command).2 = (perform finiteSets sets command).2 := by
  cases command with
  | empty target => exact ⟨h.update SortedSet.holds_empty target, rfl⟩
  | singleton target a => exact ⟨h.update (SortedSet.holds_singleton a) target, rfl⟩
  | ofList target members => exact ⟨h.update (SortedSet.holds_ofList members) target, rfl⟩
  | add target a =>
    obtain ⟨hset, hnew⟩ := (h target).add a
    exact ⟨h.update hset target, congrArg some hnew⟩
  | addAll target other added =>
    obtain ⟨hset, hnew⟩ := (h target).addAll (h other)
    exact ⟨(h.update hset target).update hnew added, rfl⟩
  | difference target left right =>
    exact ⟨h.update ((h left).difference (h right)) target, rfl⟩
  | contains set a => exact ⟨h, congrArg some ((h set).contains_eq a)⟩
  | intersects left right => exact ⟨h, congrArg some ((h left).intersects_eq (h right))⟩
  | isSubset left right => exact ⟨h, congrArg some ((h left).isSubset_eq (h right))⟩
  | equal left right =>
    exact ⟨h, congrArg some (decide_eq_decide.mpr ((h left).eq_iff (h right)))⟩

theorem Matches.run (h : Matches lists sets) (commands : List (Command ν α)) :
    Matches (run ascendingLists lists commands).1 (run finiteSets sets commands).1 ∧
      (run ascendingLists lists commands).2 = (run finiteSets sets commands).2 := by
  induction commands generalizing lists sets with
  | nil => exact ⟨h, rfl⟩
  | cons command commands ih =>
    obtain ⟨hnext, hanswer⟩ := h.perform command
    obtain ⟨hfinal, hanswers⟩ := ih hnext
    exact ⟨hfinal, congrArg₂ List.cons hanswer hanswers⟩

/-- Whatever is built and asked, the answers about ascending lists are those about finite sets,
and every list is ascending and has the members of its set. -/
theorem sessions_agree (commands : List (Command ν α)) :
    (run ascendingLists (fun _ => .empty) commands).2 =
        (run finiteSets (fun _ => ∅) commands).2 ∧
      ∀ name,
        ((run ascendingLists (fun _ => .empty) commands).1 name).Ascending ∧
        ∀ a, a ∈ ((run ascendingLists (fun _ => .empty) commands).1 name).toList ↔
          a ∈ (run finiteSets (fun _ => ∅) commands).1 name := by
  have hstart : Matches (fun _ : ν => (.empty : SortedSet α)) fun _ => ∅ :=
    fun _ => SortedSet.holds_empty
  obtain ⟨hfinal, hanswers⟩ := hstart.run commands
  exact ⟨hanswers, fun name => ⟨(hfinal name).ascending, (hfinal name).mem_iff⟩⟩

/-- A session whose lists interleave: two sets are joined, the new members are kept, and a third
set with these members is built in the other order. -/
def deltaSession : List (Command Nat Nat) :=
  [.ofList 0 [5, 1, 3, 1], .ofList 1 [6, 2, 3], .addAll 0 1 2, .add 0 2, .add 0 4, .isSubset 1 0,
    .isSubset 0 1, .difference 3 0 1, .intersects 3 0, .intersects 3 2, .singleton 4 6, .add 4 2,
    .equal 4 2]

theorem sessions_agree_delta :
    (run ascendingLists (fun _ => .empty) deltaSession).2 =
        [none, none, none, some false, some true, some true, some false, none, some true,
          some false, none, some true, some true] ∧
      (run finiteSets (fun _ => ∅) deltaSession).2 =
        [none, none, none, some false, some true, some true, some false, none, some true,
          some false, none, some true, some true] ∧
      ((run ascendingLists (fun _ => .empty) deltaSession).1 0).toList = [1, 2, 3, 4, 5, 6] ∧
      ∀ a, a ∈ [2, 6] ↔ a ∈ (run finiteSets (fun _ => ∅) deltaSession).1 2 := by
  have hanswers : (run ascendingLists (fun _ => .empty) deltaSession).2 =
      [none, none, none, some false, some true, some true, some false, none, some true,
        some false, none, some true, some true] := by decide
  have hadded : ((run ascendingLists (fun _ => .empty) deltaSession).1 2).toList = [2, 6] := by
    decide
  obtain ⟨hsame, hsets⟩ := sessions_agree deltaSession
  exact ⟨hanswers, hsame ▸ hanswers, by decide, hadded ▸ (hsets 2).2⟩

end SetSession

end ObjectFlow
