import Mathlib.Data.List.Nodup
import ObjectFlow.Proofs.Outcome
import ObjectFlow.Table

/-!
# Look-ups in tables

What a key finds in a list of rows, and in a table after a change.  Where the rows of many owners
stand in one list, the row of each owner is found by a filter, and where a row notes only what is
new, it is the list of what was noted without the repetitions.
-/

namespace ObjectFlow

variable {κ α ε : Type} [DecidableEq κ]

theorem lookup_cons_ite (key k : κ) (value : α) (rows : List (κ × α)) :
    ((k, value) :: rows).lookup key = if key = k then some value else rows.lookup key := by
  by_cases h : key = k
  · simp [h]
  · simp [List.lookup_cons, h, beq_false_of_ne h]

/-- A table that is computed key by key holds what was computed for each of its keys. -/
theorem lookup_of_mapM {f : κ → Except ε α} {keys : List κ} {rows : List (κ × α)}
    (h : keys.mapM (fun key => do return (key, ← f key)) = .ok rows) {key : κ} (hkey : key ∈ keys) :
    ∃ value, f key = .ok value ∧ rows.lookup key = some value := by
  induction keys generalizing rows with
  | nil => cases hkey
  | cons first keys ih =>
    rw [List.mapM_cons] at h
    obtain ⟨row, hrow, hnext⟩ := bind_eq_ok_iff.mp h
    obtain ⟨value, hvalue, hpure⟩ := bind_eq_ok_iff.mp hrow
    obtain ⟨rest, hrest, hpure'⟩ := bind_eq_ok_iff.mp hnext
    cases hpure
    cases hpure'
    rw [lookup_cons_ite]
    by_cases hfirst : key = first
    · subst hfirst
      exact ⟨value, hvalue, by simp⟩
    · rw [if_neg hfirst]
      exact ih hrest ((List.mem_cons.mp hkey).resolve_left hfirst)

theorem lookup_eq_none_of_mapM {f : κ → Except ε α} {keys : List κ} {rows : List (κ × α)}
    (h : keys.mapM (fun key => do return (key, ← f key)) = .ok rows) {key : κ} (hkey : key ∉ keys) :
    rows.lookup key = none := by
  rw [List.lookup_eq_none_iff]
  intro row hrow
  obtain ⟨first, hfirst, hpure⟩ := (mem_mapM_iff h).mp hrow
  obtain ⟨value, -, hpure⟩ := bind_eq_ok_iff.mp hpure
  cases hpure
  simp only [bne_iff_ne, ne_eq]
  rintro rfl
  exact hkey hfirst

theorem mem_of_lookup {key : κ} {value : α} {rows : List (κ × α)}
    (h : rows.lookup key = some value) : (key, value) ∈ rows := by
  obtain ⟨left, right, rfl, -⟩ := List.lookup_eq_some_iff.mp h
  simp

/-- Where no key stands twice, the order of the rows does not matter. -/
theorem lookup_perm {rows order : List (κ × α)} (horder : order.Perm rows)
    (hkeys : (order.map Prod.fst).Nodup) (key : κ) : order.lookup key = rows.lookup key := by
  induction horder with
  | nil => rfl
  | cons row _ ih =>
    obtain ⟨k, value⟩ := row
    rw [lookup_cons_ite, lookup_cons_ite, ih (List.nodup_cons.mp hkeys).2]
  | swap row row' rows =>
    obtain ⟨k, value⟩ := row
    obtain ⟨k', value'⟩ := row'
    have hne : k' ≠ k := by
      rintro rfl
      simp at hkeys
    simp only [lookup_cons_ite]
    by_cases hk : key = k
    · simp [hk, hne.symm]
    · simp [hk]
  | trans hfirst _ ih ih' =>
    rw [ih hkeys, ih' ((hfirst.map Prod.fst).nodup_iff.mp hkeys)]

namespace Table

theorem lookup_setRow (key k : κ) (value : α) (rows : List (κ × α)) :
    (setRow k value rows).lookup key = if key = k then some value else rows.lookup key := by
  induction rows with
  | nil => simp [setRow, lookup_cons_ite]
  | cons row rows ih =>
    obtain ⟨first, other⟩ := row
    unfold setRow
    split
    · next hfirst =>
      subst hfirst
      by_cases hkey : key = first <;> simp [lookup_cons_ite, hkey]
    · next hfirst =>
      rw [lookup_cons_ite, lookup_cons_ite, ih]
      by_cases hkey : key = k
      · simp [hkey, Ne.symm hfirst]
      · simp [hkey]

@[simp]
theorem get?_set (table : Table κ α) (key k : κ) (value : α) :
    (table.set k value).get? key = if key = k then some value else table.get? key :=
  lookup_setRow key k value table.rows

/-- Setting a key to the value that it has changes nothing. -/
theorem set_eq_self {table : Table κ α} {key : κ} {value : α} (h : table.get? key = some value) :
    table.set key value = table := by
  obtain ⟨rows⟩ := table
  simp only [set, get?, mk.injEq] at *
  induction rows with
  | nil => cases h
  | cons row rows ih =>
    obtain ⟨first, other⟩ := row
    rw [lookup_cons_ite] at h
    by_cases hfirst : key = first
    · subst hfirst
      rw [if_pos rfl] at h
      cases h
      simp [setRow]
    · rw [if_neg hfirst] at h
      simp [setRow, Ne.symm hfirst, ih h]

@[simp]
theorem get?_constant (keys : List κ) (value : α) (key : κ) :
    (constant keys value).get? key = if key ∈ keys then some value else none := by
  suffices hfold : ∀ table : Table κ α,
      (keys.foldl (fun table key => table.set key value) table).get? key =
        if key ∈ keys then some value else table.get? key by
    exact hfold {}
  induction keys with
  | nil => simp
  | cons first keys ih =>
    intro table
    rw [List.foldl_cons, ih, get?_set]
    by_cases hkeys : key ∈ keys
    · simp [hkeys]
    · by_cases hfirst : key = first <;> simp [hkeys, hfirst]

end Table

/-! ### Rows of many owners -/

theorem filterMap_ite_some {β : Type} (p : α → Prop) [DecidablePred p] (f : α → β)
    (items : List α) : items.filterMap (fun a => if p a then some (f a) else none) =
      (items.filter fun a => p a).map f := by
  rw [← List.filterMap_eq_map, ← List.filterMap_eq_filter, List.filterMap_filterMap]
  congr
  funext a
  by_cases h : p a <;> simp [Option.guard, h]

/-- Of rows that are told apart by their owners, the row of one owner is picked out. -/
theorem filter_flatMap_owner {β : Type} {items : List α} {row : α → List β}
    {name : α → κ} {owner : β → κ} (hitems : items.Pairwise fun a b => name a ≠ name b)
    (howner : ∀ a, ∀ b ∈ row a, owner b = name a) {a : α} (ha : a ∈ items) :
    (items.flatMap row).filter (fun b => owner b = name a) = row a := by
  have hown : (row a).filter (fun b => owner b = name a) = row a :=
    List.filter_eq_self.mpr fun b hb => by simp [howner a b hb]
  have hother : ∀ c, name c ≠ name a → (row c).filter (fun b => owner b = name a) = [] :=
    fun c hne => List.filter_eq_nil_iff.mpr fun b hb => by simp [howner c b hb, hne]
  induction items with
  | nil => cases ha
  | cons first rest ih =>
    obtain ⟨hfirst, hrest⟩ := List.pairwise_cons.mp hitems
    rw [List.flatMap_cons, List.filter_append]
    rcases List.mem_cons.mp ha with rfl | ha
    · have hnone : (rest.flatMap row).filter (fun b => owner b = name a) = [] := by
        rw [List.filter_flatMap, List.flatMap_eq_nil_iff]
        exact fun c hc => hother c (hfirst c hc).symm
      rw [hown, hnone, List.append_nil]
    · rw [hother first (hfirst a ha), ih hrest ha, List.nil_append]

theorem nodup_eraseDups {β : Type} [BEq β] [LawfulBEq β] (items : List β) :
    items.eraseDups.Nodup := by
  induction hlength : items.length using Nat.strongRecOn generalizing items with
  | ind length ih =>
    cases items with
    | nil => simp
    | cons a rest =>
      rw [List.eraseDups_cons, List.nodup_cons]
      constructor
      · simp
      · apply ih _ _ _ rfl
        rw [← hlength]
        exact Nat.lt_succ_of_le (List.length_filter_le _ _)

/-- A list that notes every new item is the list of the items without repetitions. -/
theorem foldl_noteNew {β : Type} [BEq β] [LawfulBEq β] (items known : List β) :
    items.foldl (fun known item => if known.contains item then known else known ++ [item]) known =
      known ++ (items.filter fun item => !known.contains item).eraseDups := by
  induction items generalizing known with
  | nil => simp
  | cons item items ih =>
    rw [List.foldl_cons, ih]
    cases hknown : known.contains item with
    | true =>
      simp only [hknown, List.filter_cons, if_true, Bool.not_true, Bool.false_eq_true, if_false]
    | false =>
      have hfilter : (items.filter fun other => !(known ++ [item]).contains other) =
          (items.filter fun other => !known.contains other).filter fun other => !other == item := by
        rw [List.filter_filter]
        congr 1
        funext other
        rw [Bool.eq_iff_iff]
        simp [and_comm]
      simp only [hknown, List.filter_cons, Bool.not_false, if_true, Bool.false_eq_true, if_false,
        List.eraseDups_cons, hfilter, List.append_assoc, List.singleton_append]

end ObjectFlow
