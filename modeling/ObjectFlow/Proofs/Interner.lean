import Mathlib.Data.List.Nodup
import ObjectFlow.Interner
import ObjectFlow.Proofs.Outcome

/-!
# Numbers and values of an interner

An interner is a bijection between the numbers below its size and the values that came:
a value is found under the number where it stands, a number never changes its value, and
no two numbers have values of one code.
-/

namespace ObjectFlow

@[simp]
theorem LawfulKey.code_inj {α : Type} [Key α] [LawfulKey α] {a b : α} : code a = code b ↔ a = b :=
  ⟨LawfulKey.code_injective, fun h => h ▸ rfl⟩

namespace Interner

variable {α : Type} [Key α] {interner : Interner α}

/-- Every number of `old` has the same value in `new`. -/
def Extends (old new : Interner α) : Prop :=
  ∀ (number : Nat) (a : α), old.items[number]? = some a → new.items[number]? = some a

theorem Extends.refl (interner : Interner α) : interner.Extends interner := fun _ _ h => h

theorem Extends.trans {first second third : Interner α} (h : first.Extends second)
    (h' : second.Extends third) : first.Extends third :=
  fun number a hitem => h' number a (h number a hitem)

theorem extends_insert (interner : Interner α) (a : α) : interner.Extends (interner.insert a) :=
  fun _ _ hitem => getElem?_items_insert hitem a

theorem Extends.size_le {old new : Interner α} (h : old.Extends new) : old.size ≤ new.size := by
  by_contra hlt
  have hlast : new.size < old.items.size := by
    simpa [size] using hlt
  have hitem := h _ _ (Array.getElem?_eq_getElem hlast)
  have hbound := (Array.getElem?_eq_some_iff.mp hitem).1
  simp [size] at hbound

theorem lt_size_of_getElem? {number : Nat} {a : α} (hitem : interner.items[number]? = some a) :
    number < interner.size :=
  (Array.getElem?_eq_some_iff.mp hitem).1

theorem exists_getElem?_of_lt {number : Nat} (hlt : number < interner.size) :
    ∃ a, interner.items[number]? = some a :=
  ⟨_, Array.getElem?_eq_getElem hlt⟩

theorem findCode?_eq_some_iff {key : List Nat} {number : Nat} :
    interner.findCode? key = some number ↔ interner.items[number]?.map code = some key :=
  interner.numbers_iff key number

/-- Values of one code have one number. -/
theorem number_unique {number number' : Nat} {a b : α}
    (ha : interner.items[number]? = some a) (hb : interner.items[number']? = some b)
    (hcode : code a = code b) : number = number' := by
  have hfirst : interner.findCode? (code a) = some number :=
    findCode?_eq_some_iff.mpr (by simp [ha])
  have hsecond : interner.findCode? (code a) = some number' :=
    findCode?_eq_some_iff.mpr (by simp [hb, hcode])
  exact Option.some.inj (hfirst.symm.trans hsecond)

/-- What an insertion leaves at a number: what was there, or the new value at the end. -/
theorem getElem?_items_insert_cases {number : Nat} {a b : α}
    (hitem : (interner.insert a).items[number]? = some b) :
    interner.items[number]? = some b ∨
      (b = a ∧ number = interner.size ∧ interner.contains a = false) := by
  rw [items_insert] at hitem
  split at hitem
  · exact .inl hitem
  next hnew =>
    rw [Array.getElem?_push] at hitem
    split at hitem
    next hlast => exact .inr ⟨(Option.some.inj hitem).symm, hlast, by simpa using hnew⟩
    · exact .inl hitem

theorem mem_insert_cases {a b : α} (hmem : b ∈ (interner.insert a).items) :
    b ∈ interner.items ∨ b = a := by
  obtain ⟨number, hitem⟩ := Array.mem_iff_getElem?.mp hmem
  rcases getElem?_items_insert_cases hitem with hold | ⟨hnew, -⟩
  · exact .inl (Array.mem_iff_getElem?.mpr ⟨number, hold⟩)
  · exact .inr hnew

theorem insert_of_contains {a : α} (h : interner.contains a = true) :
    interner.insert a = interner := by
  unfold insert
  rw [dif_pos h]

/-- A new value is the last one. -/
theorem toList_insert_of_new {a : α} (h : interner.contains a = false) :
    (interner.insert a).toList = interner.toList ++ [a] := by
  simp [toList, items_insert, h]

theorem isSome_findCode?_iff {key : List Nat} :
    (interner.findCode? key).isSome = true ↔ ∃ b ∈ interner.items, code b = key := by
  simp only [Option.isSome_iff_exists, findCode?_eq_some_iff, Option.map_eq_some_iff,
    Array.mem_iff_getElem?]
  constructor
  · rintro ⟨number, b, hitem, hcode⟩
    exact ⟨b, ⟨number, hitem⟩, hcode⟩
  · rintro ⟨b, ⟨number, hitem⟩, hcode⟩
    exact ⟨number, b, hitem, hcode⟩

theorem contains_iff_exists_code {a : α} :
    interner.contains a = true ↔ ∃ b ∈ interner.items, code b = code a :=
  isSome_findCode?_iff

/-- An insertion adds the code of its value and no other. -/
theorem exists_code_insert_iff {a : α} {key : List Nat} :
    (∃ b ∈ (interner.insert a).items, code b = key) ↔
      (∃ b ∈ interner.items, code b = key) ∨ code a = key := by
  rw [items_insert]
  split
  · next hcontains =>
    obtain ⟨b, hb, hcode⟩ := contains_iff_exists_code.mp hcontains
    constructor
    · exact .inl
    · rintro (hold | rfl)
      · exact hold
      · exact ⟨b, hb, hcode⟩
  · simp [Array.mem_push, or_and_right, exists_or]

/-- Insertions one after another add the codes of their values and no others. -/
theorem exists_code_foldl_insert_iff {β : Type} (f : β → α) (values : List β) {key : List Nat} :
    (∃ b ∈ (values.foldl (fun table value => table.insert (f value)) interner).items,
      code b = key) ↔
      (∃ b ∈ interner.items, code b = key) ∨ ∃ value ∈ values, code (f value) = key := by
  induction values generalizing interner with
  | nil => simp
  | cons value values ih =>
    rw [List.foldl_cons, ih, exists_code_insert_iff]
    simp [or_assoc]

theorem contains_empty (a : α) : (empty : Interner α).contains a = false := by
  simp [contains, find?, findCode?, empty]

theorem contains_insert (interner : Interner α) (a b : α) :
    (interner.insert a).contains b = (interner.contains b || code b == code a) := by
  rw [Bool.eq_iff_iff, Bool.or_eq_true, contains_iff_exists_code, contains_iff_exists_code,
    exists_code_insert_iff, beq_iff_eq, eq_comm (a := code a)]

/-- Insertions one after another add the values with new codes at the end, of several with one
code the first one. -/
theorem toList_foldl_insert (values : List α) (interner : Interner α) :
    (values.foldl insert interner).toList =
      interner.toList ++ (values.filter fun a => !interner.contains a).eraseDupsBy
        fun later first => code later == code first := by
  induction values generalizing interner with
  | nil => simp
  | cons a values ih =>
    rw [List.foldl_cons, ih]
    cases hcontains : interner.contains a with
    | true => simp [insert_of_contains, hcontains]
    | false =>
      have hfilter : (values.filter fun b => !(interner.insert a).contains b) =
          (values.filter fun b => !interner.contains b).filter
            fun b => decide ((code b == code a) = false) := by
        rw [List.filter_filter]
        congr 1
        funext b
        rw [contains_insert]
        cases interner.contains b <;> cases code b == code a <;> rfl
      rw [toList_insert_of_new hcontains, hfilter, List.filter_cons_of_pos (by simp [hcontains]),
        List.eraseDupsBy_cons, List.append_assoc, List.singleton_append]

/-- The interner of a list has the first value of each code, in the order of the list. -/
theorem toList_ofList (values : List α) :
    (ofList values).toList = values.eraseDupsBy fun later first => code later == code first := by
  rw [ofList, toList_foldl_insert]
  simp [contains_empty, toList]

theorem exists_code_ofList_iff {values : List α} {key : List Nat} :
    (∃ b ∈ (ofList values).items, code b = key) ↔ ∃ value ∈ values, code value = key := by
  refine (exists_code_foldl_insert_iff (id : α → α) values).trans ?_
  simp

theorem mem_foldl_insert_cases {β : Type} {f : β → α} {values : List β} {b : α}
    (hmem : b ∈ (values.foldl (fun table value => table.insert (f value)) interner).items) :
    b ∈ interner.items ∨ ∃ value ∈ values, b = f value := by
  induction values generalizing interner with
  | nil => exact .inl hmem
  | cons value values ih =>
    rcases ih hmem with hfirst | ⟨other, hother, rfl⟩
    · rcases mem_insert_cases hfirst with hold | rfl
      · exact .inl hold
      · exact .inr ⟨value, List.mem_cons_self, rfl⟩
    · exact .inr ⟨other, List.mem_cons_of_mem value hother, rfl⟩

theorem extends_foldl_insert {β : Type} (f : β → α) (values : List β) :
    interner.Extends (values.foldl (fun table value => table.insert (f value)) interner) := by
  induction values generalizing interner with
  | nil => exact .refl interner
  | cons value values ih => exact (interner.extends_insert (f value)).trans ih

theorem Extends.mem {old new : Interner α} (h : old.Extends new) {a : α} (hmem : a ∈ old.items) :
    a ∈ new.items := by
  obtain ⟨number, hitem⟩ := Array.mem_iff_getElem?.mp hmem
  exact Array.mem_iff_getElem?.mpr ⟨number, h _ _ hitem⟩

/-- An insertion adds at most one value. -/
theorem size_insert (interner : Interner α) (a : α) :
    (interner.insert a).size =
      if interner.contains a then interner.size else interner.size + 1 := by
  simp only [size, items_insert]
  split <;> simp

/-- After an insertion some value with the code stands at the number of that code. -/
theorem exists_getElem?_numberOf (interner : Interner α) (a : α) :
    ∃ b, (interner.insert a).items[interner.numberOf a]? = some b ∧ code b = code a ∧
      (b = a ∨ b ∈ interner.items) := by
  cases hfind : interner.find? a with
  | some number =>
    obtain ⟨b, hitem, hcode⟩ := Option.map_eq_some_iff.mp (findCode?_eq_some_iff.mp hfind)
    refine ⟨b, ?_, hcode, .inr (Array.mem_iff_getElem?.mpr ⟨number, hitem⟩)⟩
    rw [numberOf, hfind]
    exact getElem?_items_insert hitem a
  | none =>
    have hnew : interner.contains a = false := by simp [contains, hfind]
    refine ⟨a, ?_, rfl, .inl rfl⟩
    simp [numberOf, hfind, items_insert, hnew, size]

theorem getElem?_injective {number number' : Nat} {a : α}
    (h : interner.items[number]? = some a) (h' : interner.items[number']? = some a) :
    number = number' :=
  number_unique h h' rfl

/-- No two values have one code. -/
theorem pairwise_code_ne (interner : Interner α) :
    interner.toList.Pairwise fun a b => code a ≠ code b := by
  rw [List.pairwise_iff_getElem]
  intro first second hfirst hsecond hlt hcode
  have hitem : ∀ {number : Nat} (h : number < interner.toList.length),
      interner.items[number]? = some interner.toList[number] := by
    intro number h
    simp only [toList] at h ⊢
    simp [Array.length_toList ▸ h]
  exact Nat.ne_of_lt hlt (number_unique (hitem hfirst) (hitem hsecond) hcode)

/-- No value has two numbers. -/
theorem nodup_toList (interner : Interner α) : interner.toList.Nodup :=
  interner.pairwise_code_ne.imp fun hcode heq => hcode (congrArg code heq)

section Lawful

variable [LawfulKey α]

theorem find?_eq_some_iff {a : α} {number : Nat} :
    interner.find? a = some number ↔ interner.items[number]? = some a := by
  rw [find?, findCode?_eq_some_iff, Option.map_eq_some_iff]
  constructor
  · rintro ⟨b, hitem, hcode⟩
    rw [hitem, LawfulKey.code_injective hcode]
  · intro hitem
    exact ⟨a, hitem, rfl⟩

theorem contains_iff {a : α} : interner.contains a = true ↔ a ∈ interner.items := by
  rw [contains, Option.isSome_iff_exists, Array.mem_iff_getElem?]
  simp only [find?_eq_some_iff]

/-- After an insertion the value stands at its number. -/
theorem getElem?_numberOf (interner : Interner α) (a : α) :
    (interner.insert a).items[interner.numberOf a]? = some a := by
  obtain ⟨b, hitem, hcode, -⟩ := interner.exists_getElem?_numberOf a
  rw [hitem, LawfulKey.code_injective hcode]

theorem numberOf_eq_of_getElem? {number : Nat} {a : α}
    (hitem : interner.items[number]? = some a) : interner.numberOf a = number := by
  rw [numberOf, find?_eq_some_iff.mpr hitem, Option.getD_some]

theorem mem_insert_self (interner : Interner α) (a : α) : a ∈ (interner.insert a).items :=
  Array.mem_iff_getElem?.mpr ⟨_, interner.getElem?_numberOf a⟩

theorem mem_insert_iff {a b : α} :
    b ∈ (interner.insert a).items ↔ b ∈ interner.items ∨ b = a := by
  constructor
  · exact mem_insert_cases
  · rintro (hold | rfl)
    · exact (interner.extends_insert a).mem hold
    · exact interner.mem_insert_self b

theorem mem_iff_exists_code {a : α} :
    a ∈ interner.items ↔ ∃ b ∈ interner.items, code b = code a := by
  rw [← contains_iff, contains_iff_exists_code]

theorem insert_of_mem {a : α} (hmem : a ∈ interner.items) : interner.insert a = interner :=
  insert_of_contains (contains_iff.mpr hmem)

theorem toList_ofList_of_lawful [BEq α] [LawfulBEq α] (values : List α) :
    (ofList values).toList = values.eraseDups := by
  rw [toList_ofList, List.eraseDups]
  congr
  funext a b
  rw [Bool.eq_iff_iff]
  simp

end Lawful

end Interner

end ObjectFlow
