import ObjectFlow.Handle

/-!
# Outcomes

What reads a table may fault.  These lemmas open such computations one look-up at a time.
-/

namespace ObjectFlow

section

variable {ε α β : Type}

@[simp]
theorem ok_bind (a : α) (next : α → Except ε β) : (Except.ok a >>= next) = next a := rfl

@[simp]
theorem pure_eq_ok (a : α) : (pure a : Except ε α) = .ok a := rfl

/-- A computation in two parts succeeds when both parts do. -/
theorem bind_eq_ok_iff {first : Except ε α} {next : α → Except ε β} {b : β} :
    (first >>= next) = .ok b ↔ ∃ a, first = .ok a ∧ next a = .ok b := by
  cases first with
  | error e => simp [bind, Except.bind]
  | ok a => simp

theorem eq_ok_of_toOption {outcome : Except ε α} {a : α} (h : outcome.toOption = some a) :
    outcome = .ok a := by
  cases outcome with
  | error e => cases h
  | ok b =>
    cases h
    rfl

/-- A list is mapped without failure when every member is. -/
theorem exists_mapM_ok {f : α → Except ε β} {items : List α}
    (h : ∀ a ∈ items, ∃ b, f a = .ok b) : ∃ results, items.mapM f = .ok results := by
  induction items with
  | nil => exact ⟨[], rfl⟩
  | cons a items ih =>
    obtain ⟨b, hb⟩ := h a List.mem_cons_self
    obtain ⟨results, hresults⟩ := ih fun c hc => h c (List.mem_cons_of_mem a hc)
    exact ⟨b :: results, by simp [List.mapM_cons, hb, hresults]⟩

/-- The members of a mapped list are what its members are mapped to. -/
theorem mem_mapM_iff {f : α → Except ε β} {items : List α} {results : List β}
    (h : items.mapM f = .ok results) {b : β} : b ∈ results ↔ ∃ a ∈ items, f a = .ok b := by
  induction items generalizing results with
  | nil =>
    cases h
    simp
  | cons a items ih =>
    rw [List.mapM_cons] at h
    obtain ⟨first, hfirst, hnext⟩ := bind_eq_ok_iff.mp h
    obtain ⟨rest, hrest, hpure⟩ := bind_eq_ok_iff.mp hnext
    cases hpure
    simp [ih hrest, hfirst, eq_comm]

/-- A list of lists is no longer than its lists together may be. -/
theorem length_flatten_mapM_le {f : α → Except ε (List β)} {items : List α}
    {results : List (List β)} (h : items.mapM f = .ok results) {bound : Nat}
    (hbound : ∀ a ∈ items, ∀ result, f a = .ok result → result.length ≤ bound) :
    results.flatten.length ≤ items.length * bound := by
  induction items generalizing results with
  | nil =>
    cases h
    simp
  | cons a items ih =>
    rw [List.mapM_cons] at h
    obtain ⟨first, hfirst, hnext⟩ := bind_eq_ok_iff.mp h
    obtain ⟨rest, hrest, hpure⟩ := bind_eq_ok_iff.mp hnext
    cases hpure
    have hhead := hbound a List.mem_cons_self first hfirst
    have htail := ih hrest fun c hc => hbound c (List.mem_cons_of_mem a hc)
    rw [List.flatten_cons, List.length_append, List.length_cons, Nat.succ_mul]
    omega

end

/-- A look-up succeeds with the entry at the position of the handle. -/
theorem Handle.lookup_eq_ok_iff {kind : Kind} {α : Type} {handle : Handle kind} {table : Array α}
    {entry : α} : handle.lookup table = .ok entry ↔ table[handle.index]? = some entry := by
  unfold Handle.lookup
  split <;> simp_all

theorem Handle.exists_lookup {kind : Kind} {α : Type} {handle : Handle kind} {table : Array α}
    (hlt : handle.index < table.size) :
    ∃ entry, handle.lookup table = .ok entry ∧ table[handle.index]? = some entry := by
  have hentry : table[handle.index]? = some table[handle.index] :=
    Array.getElem?_eq_getElem hlt
  exact ⟨table[handle.index], Handle.lookup_eq_ok_iff.mpr hentry, hentry⟩

@[ext]
theorem Handle.ext {kind : Kind} {a b : Handle kind} (h : a.index = b.index) : a = b := by
  cases a
  cases b
  exact congrArg Handle.mk h

end ObjectFlow
