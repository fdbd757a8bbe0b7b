import Mathlib.Order.RelClasses
import ObjectFlow.PointsTo.Codec
import ObjectFlow.Proofs.Json.Decoder
import ObjectFlow.Proofs.SortedSet

/-!
# Sets in JSON

A set is written as the list of its members, and read by taking such a list as it stands.
Reading undoes writing, but looks neither at the order of the list nor for repetitions.  The
operations rely on ascending lists, so that what was read is a set exactly when the list that
was read is ascending.
-/

namespace ObjectFlow

namespace Json

/-- A record gives a value to one field: an object under the name of the field and only once,
an array as its only item. -/
inductive HoldsField (name : String) (value : Json) : Json → Prop where
  | object {members : List (Option String × Json)} (hkeys : ∀ member ∈ members, member.1.isSome)
    (hvalue : Decoder.valuesOf name members = [value]) : HoldsField name value (.object members)
  | array : HoldsField name value (.array [value])

theorem holdsField_obj (name : String) (value : Json) :
    HoldsField name value (.obj [(name, value)]) :=
  .object (by simp) (by simp [Decoder.valuesOf])

namespace Decoder

variable {α β : Type} {levels : Nat} {json value : Json} {name : String}

theorem atMostOnce_eq_some_some_iff {values : List Json} :
    atMostOnce values = some (some value) ↔ values = [value] := by
  match values with
  | [] => simp [atMostOnce]
  | [_] => simp [atMostOnce]
  | _ :: _ :: _ => simp [atMostOnce]

theorem fields?_object (members : List (Option String × Json)) :
    fields? .usual [name] (.object members) = some [some value] ↔
      (∀ member ∈ members, member.1.isSome) ∧ valuesOf name members = [value] := by
  have hkeys : (members.all fun member => keyAllowed .usual [name] member.1) = true ↔
      ∀ member ∈ members, member.1.isSome := by
    rw [List.all_eq_true]
    refine forall₂_congr fun member _ => ?_
    rcases member with ⟨_ | key, held⟩ <;> simp [keyAllowed, Freedom.usual]
  have hfields : fields? .usual [name] (.object members) =
      if members.all fun member => keyAllowed .usual [name] member.1 then
        [name].mapM fun name => atMostOnce (valuesOf name members)
      else none := rfl
  simp [hfields, hkeys, atMostOnce_eq_some_some_iff, Option.bind_eq_some_iff]

theorem fields?_eq_some_iff :
    fields? .usual [name] json = some [some value] ↔ HoldsField name value json := by
  constructor
  · intro h
    cases json with
    | object members =>
      obtain ⟨hkeys, hvalue⟩ := (fields?_object members).mp h
      exact .object hkeys hvalue
    | array items =>
      match items with
      | [_] =>
        cases h
        exact .array
      | [] => simp [fields?, Freedom.usual] at h
      | _ :: _ :: _ => simp [fields?, Freedom.usual] at h
    | _ => cases h
  · intro h
    cases h with
    | object hkeys hvalue => exact (fields?_object _).mpr ⟨hkeys, hvalue⟩
    | array => rfl

/-- A record with one field is read from the value of that field. -/
theorem record_eq_some_iff {decoder : Decoder α} {make : α → β} {result : β} :
    record [name] (fun levels fields =>
      match fields with
      | [held] => do return make (← field decoder levels held)
      | _ => none) levels json = some result ↔
    ∃ inner value a, levels = inner + 1 ∧ HoldsField name value json ∧
      decoder inner value = some a ∧ make a = result := by
  constructor
  · intro h
    cases levels with
    | zero => cases h
    | succ inner =>
      obtain ⟨fields, hfields, hread⟩ := Option.bind_eq_some_iff.mp h
      dsimp only at hread
      split at hread
      · obtain ⟨a, ha, hresult⟩ := Option.bind_eq_some_iff.mp hread
        obtain ⟨value, rfl, hvalue⟩ := Option.bind_eq_some_iff.mp ha
        exact ⟨inner, value, a, rfl, fields?_eq_some_iff.mp hfields, hvalue,
          Option.some.inj hresult⟩
      · cases hread
  · rintro ⟨inner, value, a, rfl, hholds, hvalue, rfl⟩
    simp [record, recordWith, fields?_eq_some_iff.mpr hholds, field, hvalue]

theorem natBelow_eq_some_iff {bound n : Nat} :
    natBelow bound levels json = some n ↔ json = .nat n ∧ n < bound := by
  constructor
  · intro h
    unfold natBelow at h
    split at h
    · split at h
      next hlt =>
        cases h
        exact ⟨rfl, hlt⟩
      · cases h
    · cases h
  · rintro ⟨rfl, hlt⟩
    exact if_pos hlt

theorem mapM_natBelow_eq_some_iff {bound : Nat} {items : List Json} {numbers : List Nat} :
    items.mapM (natBelow bound levels) = some numbers ↔
      items = numbers.map .nat ∧ ∀ n ∈ numbers, n < bound := by
  induction items generalizing numbers with
  | nil => cases numbers <;> simp
  | cons item items ih =>
    cases numbers with
    | nil => simp [List.mapM_cons, Option.bind_eq_some_iff]
    | cons n numbers =>
      simp [List.mapM_cons, Option.bind_eq_some_iff, natBelow_eq_some_iff, ih, and_assoc,
        and_left_comm]

theorem list_natBelow_eq_some_iff {bound : Nat} {numbers : List Nat} :
    list (natBelow bound) levels json = some numbers ↔
      1 ≤ levels ∧ json = .ofList .nat numbers ∧ ∀ n ∈ numbers, n < bound := by
  constructor
  · intro h
    unfold list at h
    split at h
    · obtain ⟨rfl, hbound⟩ := mapM_natBelow_eq_some_iff.mp h
      exact ⟨Nat.le_add_left 1 _, rfl, hbound⟩
    · cases h
  · rintro ⟨hlevels, rfl, hbound⟩
    obtain ⟨inner, rfl⟩ := Nat.exists_eq_add_of_le' hlevels
    exact mapM_natBelow_eq_some_iff.mpr ⟨rfl, hbound⟩

end Decoder

end Json

namespace SortedSet

variable {α : Type} [LT α] [DecidableLT α] [DecidableEq α]

/-- A list is ascending, and the operations on it are those on the set of its members. -/
structure ActsAsSet (set : SortedSet α) : Prop where
  ascending : set.Ascending
  contains : ∀ a, set.contains a = true ↔ a ∈ set.toList
  /-- A member is inserted, and told to be new when it was not there. -/
  add : ∀ a, (set.add a).1.Ascending ∧
    (∀ b, b ∈ (set.add a).1.toList ↔ b = a ∨ b ∈ set.toList) ∧
      ((set.add a).2 = true ↔ a ∉ set.toList)
  /-- Another set is added, and its members that were not there are given. -/
  addAll : ∀ other : SortedSet α, other.Ascending →
    (set.addAll other).1.Ascending ∧ (set.addAll other).2.Ascending ∧
      (∀ b, b ∈ (set.addAll other).1.toList ↔ b ∈ set.toList ∨ b ∈ other.toList) ∧
        ∀ b, b ∈ (set.addAll other).2.toList ↔ b ∈ other.toList ∧ b ∉ set.toList
  difference : ∀ other : SortedSet α, other.Ascending → (set.difference other).Ascending ∧
    ∀ b, b ∈ (set.difference other).toList ↔ b ∈ set.toList ∧ b ∉ other.toList
  intersects : ∀ other : SortedSet α, other.Ascending →
    (set.intersects other = true ↔ ∃ b ∈ set.toList, b ∈ other.toList)
  isSubset : ∀ other : SortedSet α, other.Ascending →
    (set.isSubset other = true ↔ ∀ b ∈ set.toList, b ∈ other.toList)

theorem Ascending.actsAsSet [IsStrictTotalOrder α (· < ·)] {set : SortedSet α}
    (h : set.Ascending) : set.ActsAsSet where
  ascending := h
  contains _ := contains_iff_mem
  add a := ⟨h.add a, fun _ => mem_add, add_new_iff⟩
  addAll _ hother := ⟨(h.addAll hother).1, (h.addAll hother).2,
    fun _ => mem_addAll h hother, fun _ => mem_addAll_new h hother⟩
  difference other hother := ⟨h.difference other, fun _ => mem_difference h hother⟩
  intersects _ hother := intersects_iff h hother
  isSubset _ hother := isSubset_iff h hother

end SortedSet

namespace PointsTo

open Json (Decoder HoldsField)
open Json.Decoder (list_natBelow_eq_some_iff record_eq_some_iff)

variable {levels : Nat} {json : Json}

/-- A value gives numbers of 32 bits, in any order and any of them repeatedly. -/
def ListsNumbers (json : Json) (numbers : List Nat) : Prop :=
  HoldsField "elements" (.ofList .nat numbers) json ∧ ∀ n ∈ numbers, n < UInt32.size

/-- A value gives the numbers of objects. -/
def ListsObjects (json : Json) (objects : List CsObjId) : Prop :=
  ∃ bits, HoldsField "bits" bits json ∧ ListsNumbers bits (objects.map Handle.index)

theorem decodeNumbers_eq_some_iff {set : SortedSet Nat} :
    decodeNumbers levels json = some set ↔ 2 ≤ levels ∧ ListsNumbers json set.toList := by
  refine Iff.trans record_eq_some_iff ?_
  constructor
  · rintro ⟨inner, value, numbers, rfl, hholds, hnumbers, rfl⟩
    obtain ⟨hinner, rfl, hbound⟩ := list_natBelow_eq_some_iff.mp hnumbers
    exact ⟨Nat.succ_le_succ hinner, hholds, hbound⟩
  · rintro ⟨hlevels, hholds, hbound⟩
    obtain ⟨inner, rfl⟩ := Nat.exists_eq_add_of_le' hlevels
    have hread := list_natBelow_eq_some_iff.mpr ⟨Nat.le_add_left 1 inner, rfl, hbound⟩
    exact ⟨inner + 1, _, set.toList, rfl, hholds, hread, rfl⟩

theorem decodeSet_eq_some_iff {set : PointsToSet} :
    decodeSet levels json = some set ↔ 3 ≤ levels ∧ ListsObjects json set.toList := by
  refine Iff.trans record_eq_some_iff ?_
  constructor
  · rintro ⟨inner, bits, numbers, rfl, hholds, hnumbers, rfl⟩
    obtain ⟨hinner, hlists⟩ := decodeNumbers_eq_some_iff.mp hnumbers
    refine ⟨Nat.succ_le_succ hinner, bits, hholds, ?_⟩
    simpa [SortedSet.toList, Function.comp_def] using hlists
  · rintro ⟨hlevels, bits, hholds, hlists⟩
    obtain ⟨inner, rfl⟩ := Nat.exists_eq_add_of_le' hlevels
    have hread : decodeNumbers (inner + 2) bits = some ⟨set.toList.map Handle.index⟩ :=
      decodeNumbers_eq_some_iff.mpr ⟨Nat.le_add_left 2 inner, hlists⟩
    refine ⟨inner + 2, bits, _, rfl, hholds, hread, ?_⟩
    simp [SortedSet.toList, Function.comp_def]

/-- How sets are read from a value and written. -/
structure TakesLists {α : Type} [LT α] [DecidableLT α] [DecidableEq α]
    (decode : Decoder (SortedSet α)) (encode : SortedSet α → Json)
    (lists : Json → List α → Prop) (index : α → Nat) (depth levels : Nat) (json : Json) : Prop where
  /-- A list is taken as it stands, and refused neither for its order nor for repetitions. -/
  reads : ∀ set, decode levels json = some set ↔ depth ≤ levels ∧ lists json set.toList
  /-- What was read is a set exactly when the list is ascending. -/
  acts_iff : ∀ set members, decode levels json = some set → lists json members →
    (set.ActsAsSet ↔ members.Pairwise (· < ·))
  /-- Members that are found are those in an ascending list. -/
  contains : ∀ set members, decode levels json = some set → lists json members →
    members.Pairwise (· < ·) → ∀ a, set.contains a = true ↔ a ∈ members
  /-- What is written is read again. -/
  rereads : ∀ set, depth ≤ levels → (∀ a ∈ set.toList, index a < UInt32.size) →
    decode levels (encode set) = some set

section

variable {α : Type} [LT α] [DecidableLT α] [DecidableEq α] [IsStrictTotalOrder α (· < ·)]
  {decode : Decoder (SortedSet α)} {encode : SortedSet α → Json}
  {lists : Json → List α → Prop} {index : α → Nat} {depth : Nat}

/-- It is enough to know what is read, and that writing gives the list of the members. -/
theorem takesLists_of_reads
    (hreads : ∀ levels json set, decode levels json = some set ↔
      depth ≤ levels ∧ lists json set.toList)
    (hencode : ∀ set, (∀ a ∈ set.toList, index a < UInt32.size) →
      lists (encode set) set.toList)
    (levels : Nat) (json : Json) : TakesLists decode encode lists index depth levels json := by
  -- The list in a value is that of the set that was read.
  have hset : ∀ set members, decode levels json = some set → lists json members →
      set = ⟨members⟩ := by
    intro set members hread hlists
    have hlevels := ((hreads levels json set).mp hread).1
    have hmembers : decode levels json = some ⟨members⟩ :=
      (hreads levels json ⟨members⟩).mpr ⟨hlevels, hlists⟩
    exact Option.some.inj (hread.symm.trans hmembers)
  refine ⟨hreads levels json, ?_, ?_, ?_⟩
  · intro set members hread hlists
    rw [hset set members hread hlists]
    exact ⟨SortedSet.ActsAsSet.ascending, SortedSet.Ascending.actsAsSet⟩
  · intro set members hread hlists _ a
    rw [hset set members hread hlists]
    exact SortedSet.contains_iff_mem
  · intro set hlevels hfits
    exact (hreads _ _ _).mpr ⟨hlevels, hencode set hfits⟩

end

/-- Sets of numbers and points-to sets are read as the lists that are there, so that they are
sets exactly when these lists are ascending. -/
theorem sets_take_lists (levels : Nat) (json : Json) :
    TakesLists decodeNumbers numbersToJson ListsNumbers id 2 levels json ∧
      TakesLists decodeSet setToJson ListsObjects Handle.index 3 levels json := by
  constructor
  · apply takesLists_of_reads
    · intro levels json set
      exact decodeNumbers_eq_some_iff
    · intro set hfits
      exact ⟨Json.holdsField_obj _ _, hfits⟩
  · apply takesLists_of_reads
    · intro levels json set
      exact decodeSet_eq_some_iff
    · intro set hfits
      exact ⟨_, Json.holdsField_obj _ _, Json.holdsField_obj _ _, by simpa using hfits⟩

/-- A list that is not ascending is read all the same, and the operations then miss members. -/
theorem decodeNumbers_unordered : ∃ set,
    Json.decodeText? decodeNumbers "\x7b\"elements\":[3,1,1]\x7d" = some set ∧
      set.toList = [3, 1, 1] ∧ ¬ set.Ascending ∧ set.intersects (.singleton 1) = false ∧
      (set.difference (.singleton 1)).toList = [3, 1, 1] := by
  refine ⟨⟨[3, 1, 1]⟩, ?_, rfl, ?_, rfl, rfl⟩
  · decide +kernel
  · unfold SortedSet.Ascending SortedSet.toList
    decide

end PointsTo

end ObjectFlow
