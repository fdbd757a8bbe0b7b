import Mathlib.Algebra.BigOperators.Group.List.Basic
import Mathlib.Algebra.GroupWithZero.Nat
import Mathlib.Algebra.Order.BigOperators.Group.List
import Mathlib.Algebra.Order.Group.Nat
import Mathlib.Data.List.Nodup
import Mathlib.Order.Basic
import ObjectFlow.Dataflow.Value
import ObjectFlow.Proofs.Table

/-!
# The order of values and facts

A value is below another one when it says more: no value at all is below every constant,
and every constant is below the value that is no constant.  The meet of two values is the
least value above both.  Facts are ordered variable by variable.  A fact in normal form
lists its variables in ascending order and leaves out those without a value, so that it is
determined by the values that it gives.
-/

namespace ObjectFlow.Dataflow

namespace Value

/-- How high a value stands in the order. -/
def height : Value → Nat
  | undefined => 0
  | constant _ => 1
  | nac => 2

/-- A value is below another one when it is that one or has no value, or the other one is
not a constant. -/
instance : LE Value := ⟨fun a b => a = b ∨ a = undefined ∨ b = nac⟩

theorem le_iff {a b : Value} : a ≤ b ↔ a = b ∨ a = undefined ∨ b = nac := Iff.rfl

instance : DecidableLE Value := fun a b =>
  inferInstanceAs (Decidable (a = b ∨ a = undefined ∨ b = nac))

instance : PartialOrder Value where
  le_refl a := .inl rfl
  le_trans a b c hab hbc := by
    rw [le_iff] at *
    rcases hab with rfl | rfl | rfl
    · exact hbc
    · exact .inr (.inl rfl)
    · rcases hbc with rfl | hbc | rfl
      · exact .inr (.inr rfl)
      · cases hbc
      · exact .inr (.inr rfl)
  le_antisymm a b hab hba := by
    rw [le_iff] at *
    rcases hab with rfl | rfl | rfl
    · rfl
    · rcases hba with h | h | h
      · exact h.symm
      · exact h.symm
      · cases h
    · rcases hba with h | h | h
      · exact h.symm
      · cases h
      · exact h

@[simp]
theorem undefined_le (a : Value) : undefined ≤ a := .inr (.inl rfl)

@[simp]
theorem le_nac (a : Value) : a ≤ nac := .inr (.inr rfl)

theorem constant_le_iff {c : Int32} {a : Value} : constant c ≤ a ↔ a = constant c ∨ a = nac := by
  simp [le_iff, eq_comm]

theorem height_le_two (a : Value) : a.height ≤ 2 := by cases a <;> simp [height]

theorem height_mono {a b : Value} (h : a ≤ b) : a.height ≤ b.height := by
  rcases h with rfl | rfl | rfl
  · exact Nat.le_refl _
  · exact Nat.zero_le _
  · exact height_le_two a

theorem eq_of_le_of_height {a b : Value} (h : a ≤ b) (hheight : b.height ≤ a.height) : a = b := by
  rcases h with rfl | rfl | rfl
  · rfl
  · cases b <;> simp_all [height]
  · cases a <;> simp_all [height]

theorem meet_comm (a b : Value) : a.meet b = b.meet a := by
  cases a with
  | undefined => cases b <;> rfl
  | nac => cases b <;> rfl
  | constant c =>
    cases b with
    | undefined => rfl
    | nac => rfl
    | constant d =>
      by_cases h : c = d
      · subst h
        rfl
      · simp [meet, h, Ne.symm h]

theorem left_le_meet (a b : Value) : a ≤ a.meet b := by
  cases a with
  | undefined => exact undefined_le _
  | nac => exact le_nac _
  | constant c =>
    cases b with
    | undefined => exact le_refl _
    | nac => exact le_nac _
    | constant d =>
      rw [constant_le_iff]
      by_cases h : c = d <;> simp [meet, h]

theorem right_le_meet (a b : Value) : b ≤ a.meet b := by
  rw [meet_comm]
  exact left_le_meet b a

theorem meet_le {a b c : Value} (ha : a ≤ c) (hb : b ≤ c) : a.meet b ≤ c := by
  cases a with
  | undefined => cases b <;> exact hb
  | nac => exact ha
  | constant x =>
    cases b with
    | undefined => exact ha
    | nac => exact hb
    | constant y =>
      rw [constant_le_iff] at ha hb
      by_cases h : x = y
      · simp only [meet, h, if_true]
        exact constant_le_iff.mpr hb
      · rcases ha with rfl | rfl
        · simp_all
        · exact le_nac _

@[simp]
theorem meet_undefined (a : Value) : a.meet undefined = a := by cases a <;> rfl

@[simp]
theorem undefined_meet (a : Value) : undefined.meet a = a := by cases a <;> rfl

theorem start_le_foldl_meet {α : Type} (f : α → Value) (items : List α) (start : Value) :
    start ≤ items.foldl (fun value item => value.meet (f item)) start := by
  induction items generalizing start with
  | nil => exact le_refl _
  | cons item items ih => exact (left_le_meet _ _).trans (ih _)

/-- The meet of many values is above each of them. -/
theorem le_foldl_meet {α : Type} (f : α → Value) {items : List α} {item : α} (h : item ∈ items)
    (start : Value) : f item ≤ items.foldl (fun value item => value.meet (f item)) start := by
  induction items generalizing start with
  | nil => cases h
  | cons first items ih =>
    rcases List.mem_cons.mp h with rfl | h
    · exact (right_le_meet _ _).trans (start_le_foldl_meet f items _)
    · exact ih h _

theorem mayEqual_comm (a b : Value) : a.mayEqual b = b.mayEqual a := by
  cases a <;> cases b <;> simp [mayEqual, Bool.beq_comm]

/-- Positions that may be the same stay so when less is known of them. -/
theorem mayEqual_mono {a a' b b' : Value} (ha : a ≤ a') (hb : b ≤ b') (h : a.mayEqual b = true) :
    a'.mayEqual b' = true := by
  rcases ha with rfl | rfl | rfl
  · rcases hb with rfl | rfl | rfl
    · exact h
    · cases a <;> simp [mayEqual] at h
    · cases a <;> simp_all [mayEqual]
  · simp [mayEqual] at h
  · rcases hb with rfl | rfl | rfl
    · cases b <;> cases a <;> simp_all [mayEqual]
    · cases a <;> simp [mayEqual] at h
    · rfl

theorem mayEqual_of_constant_le {c : Int32} {a b : Value} (ha : constant c ≤ a)
    (hb : constant c ≤ b) : a.mayEqual b = true :=
  mayEqual_mono ha hb (by simp [mayEqual])

end Value

namespace Fact

/-- Facts are ordered variable by variable. -/
instance : Preorder Fact where
  le a b := ∀ v, a.get v ≤ b.get v
  le_refl _ _ := le_refl _
  le_trans _ _ _ hab hbc v := (hab v).trans (hbc v)

@[simp]
theorem get_empty (v : VarId) : ({} : Fact).get v = .undefined := rfl

@[simp]
theorem empty_le (fact : Fact) : ({} : Fact) ≤ fact := fun _ => Value.undefined_le _

theorem lookup_insertEntry (v w : VarId) (value : Value) (entries : List (VarId × Value)) :
    (insertEntry v value entries).lookup w = if w = v then some value else entries.lookup w := by
  induction entries with
  | nil => simp [insertEntry, lookup_cons_ite]
  | cons entry rest ih =>
    obtain ⟨u, x⟩ := entry
    unfold insertEntry
    split
    · rw [lookup_cons_ite]
    · split
      · next hv =>
        subst hv
        by_cases hw : w = v <;> simp [lookup_cons_ite, hw]
      · next hv =>
        rw [lookup_cons_ite, lookup_cons_ite, ih]
        by_cases hw : w = v
        · simp [hw, hv]
        · simp [hw]

theorem lookup_filter_ne (v w : VarId) (entries : List (VarId × Value)) :
    (entries.filter (·.1 ≠ v)).lookup w = if w = v then none else entries.lookup w := by
  induction entries with
  | nil => simp
  | cons entry rest ih =>
    obtain ⟨u, x⟩ := entry
    by_cases hu : u = v
    · subst hu
      rw [List.filter_cons_of_neg (by simp), ih, lookup_cons_ite]
      by_cases hw : w = u <;> simp [hw]
    · rw [List.filter_cons_of_pos (by simp [hu]), lookup_cons_ite, lookup_cons_ite, ih]
      by_cases hw : w = u
      · simp [hw, hu]
      · simp [hw]

@[simp]
theorem get_remove (fact : Fact) (v w : VarId) :
    (fact.remove v).get w = if w = v then .undefined else fact.get w := by
  simp only [get, remove, lookup_filter_ne]
  by_cases hw : w = v <;> simp [hw]

@[simp]
theorem get_update (fact : Fact) (v w : VarId) (value : Value) :
    (fact.update v value).get w = if w = v then value else fact.get w := by
  unfold update
  split
  · next hundefined =>
    cases value <;> simp [Value.isUndef] at hundefined
    simp
  · simp only [get, lookup_insertEntry]
    by_cases hw : w = v <;> simp [hw]

/-- A fact in normal form: its variables ascend, and each of them has a value. -/
structure Canonical (fact : Fact) : Prop where
  ascending : fact.entries.Pairwise (·.1 < ·.1)
  defined : ∀ entry ∈ fact.entries, entry.2 ≠ .undefined

theorem canonical_empty : Canonical {} := ⟨.nil, by simp⟩

theorem mem_insertEntry {v : VarId} {value : Value} {entries : List (VarId × Value)}
    {entry : VarId × Value} (h : entry ∈ insertEntry v value entries) :
    entry = (v, value) ∨ entry ∈ entries := by
  induction entries with
  | nil => simpa [insertEntry] using h
  | cons first rest ih =>
    unfold insertEntry at h
    split at h
    · simpa using h
    · split at h
      · rcases List.mem_cons.mp h with h | h
        · exact .inl h
        · exact .inr (List.mem_cons_of_mem _ h)
      · rcases List.mem_cons.mp h with h | h
        · exact .inr (h ▸ List.mem_cons_self)
        · exact (ih h).imp_right (List.mem_cons_of_mem _)

theorem pairwise_insertEntry {v : VarId} {value : Value} {entries : List (VarId × Value)}
    (h : entries.Pairwise (·.1 < ·.1)) : (insertEntry v value entries).Pairwise (·.1 < ·.1) := by
  induction entries with
  | nil => exact List.pairwise_singleton _ _
  | cons first rest ih =>
    obtain ⟨u, x⟩ := first
    obtain ⟨hfirst, hrest⟩ := List.pairwise_cons.mp h
    unfold insertEntry
    split
    · next hlt =>
      refine List.pairwise_cons.mpr ⟨fun entry hentry => ?_, h⟩
      rcases List.mem_cons.mp hentry with rfl | hentry
      · exact hlt
      · exact Nat.lt_trans hlt (hfirst entry hentry)
    · next hnot =>
      split
      · next heq =>
        subst heq
        exact List.pairwise_cons.mpr ⟨hfirst, hrest⟩
      · next hne =>
        refine List.pairwise_cons.mpr ⟨fun entry hentry => ?_, ih hrest⟩
        rcases mem_insertEntry hentry with rfl | hentry
        · have hindex : v.index ≠ u.index := fun heq => hne (Handle.ext heq)
          exact Nat.lt_of_le_of_ne (Nat.le_of_not_lt hnot) hindex.symm
        · exact hfirst entry hentry

theorem Canonical.remove {fact : Fact} (h : fact.Canonical) (v : VarId) :
    (fact.remove v).Canonical where
  ascending := h.ascending.filter _
  defined entry hentry := h.defined entry (List.mem_of_mem_filter hentry)

theorem Canonical.update {fact : Fact} (h : fact.Canonical) (v : VarId) (value : Value) :
    (fact.update v value).Canonical := by
  unfold Fact.update
  split
  · exact h.remove v
  · next hdefined =>
    refine ⟨pairwise_insertEntry h.ascending, fun entry hentry => ?_⟩
    rcases mem_insertEntry hentry with rfl | hentry
    · rintro rfl
      simp [Value.isUndef] at hdefined
    · exact h.defined entry hentry

/-- A variable below all others has no entry among them. -/
theorem lookup_eq_none_of_lt {v : VarId} {entries : List (VarId × Value)}
    (h : ∀ entry ∈ entries, v < entry.1) : entries.lookup v = none := by
  rw [List.lookup_eq_none_iff]
  intro entry hentry
  have hlt : v.index < entry.1.index := h entry hentry
  simp only [bne_iff_ne, ne_eq]
  rintro rfl
  exact Nat.lt_irrefl _ hlt

/-- In a fact in normal form the entries are what the fact says. -/
theorem Canonical.mem_iff {fact : Fact} (h : fact.Canonical) {v : VarId} {value : Value} :
    (v, value) ∈ fact.entries ↔ fact.get v = value ∧ value ≠ .undefined := by
  obtain ⟨hascending, hdefined⟩ := h
  obtain ⟨entries⟩ := fact
  simp only [get] at *
  induction entries with
  | nil =>
    simp only [List.not_mem_nil, List.lookup_nil, Option.getD_none, false_iff]
    rintro ⟨rfl, hne⟩
    exact hne rfl
  | cons first rest ih =>
    obtain ⟨u, x⟩ := first
    obtain ⟨hfirst, hrest⟩ := List.pairwise_cons.mp hascending
    rw [List.mem_cons, ih hrest fun entry hentry => hdefined entry (List.mem_cons_of_mem _ hentry)]
    have hx : x ≠ .undefined := hdefined (u, x) List.mem_cons_self
    by_cases hv : v = u
    · subst hv
      simp only [Prod.mk.injEq, true_and, lookup_eq_none_of_lt hfirst, Option.getD_none,
        List.lookup_cons_self, Option.getD_some]
      constructor
      · rintro (rfl | ⟨rfl, hne⟩)
        · exact ⟨rfl, hx⟩
        · exact absurd rfl hne
      · rintro ⟨rfl, -⟩
        exact .inl rfl
    · simp [hv, lookup_cons_ite]

theorem Canonical.nodup_keys {fact : Fact} (h : fact.Canonical) :
    (fact.entries.map Prod.fst).Nodup := by
  rw [List.Nodup, List.pairwise_map]
  refine h.ascending.imp fun {x y} hlt heq => ?_
  rw [heq] at hlt
  exact Nat.lt_irrefl _ hlt

/-- A fact in normal form is determined by the values that it gives. -/
theorem Canonical.ext {a b : Fact} (ha : a.Canonical) (hb : b.Canonical)
    (h : ∀ v, a.get v = b.get v) : a = b := by
  have hperm : a.entries.Perm b.entries := by
    rw [List.perm_ext_iff_of_nodup (List.Nodup.of_map _ ha.nodup_keys)
      (List.Nodup.of_map _ hb.nodup_keys)]
    rintro ⟨v, value⟩
    rw [ha.mem_iff, hb.mem_iff, h v]
  have hentries : a.entries = b.entries := by
    refine hperm.eq_of_pairwise ?_ ha.ascending hb.ascending
    intro x y _ _ hlt hlt'
    exact absurd hlt' (Nat.lt_asymm hlt)
  cases a
  cases b
  exact congrArg Fact.mk hentries

/-- Takes entries into a fact, one after another. -/
def meetInOrder (order : List (VarId × Value)) (target : Fact) : Fact :=
  order.foldl (fun target (var, value) => target.update var (value.meet (target.get var))) target

theorem Canonical.meetInOrder (order : List (VarId × Value)) {target : Fact}
    (h : target.Canonical) : (meetInOrder order target).Canonical := by
  induction order generalizing target with
  | nil => exact h
  | cons entry order ih => exact ih (h.update _ _)

theorem get_meetInOrder {order : List (VarId × Value)} (hkeys : (order.map Prod.fst).Nodup)
    (target : Fact) (v : VarId) :
    (meetInOrder order target).get v =
      ((order.lookup v).getD .undefined).meet (target.get v) := by
  induction order generalizing target with
  | nil => simp [meetInOrder]
  | cons entry rest ih =>
    obtain ⟨u, x⟩ := entry
    obtain ⟨hfirst, hrest⟩ := List.nodup_cons.mp hkeys
    have hstep : meetInOrder ((u, x) :: rest) target =
        meetInOrder rest (target.update u (x.meet (target.get u))) := rfl
    rw [hstep, ih hrest, get_update, lookup_cons_ite]
    by_cases hv : v = u
    · subst hv
      have hnone : rest.lookup v = none := by
        rw [List.lookup_eq_none_iff]
        rintro ⟨w, y⟩ hentry
        have hne : v ≠ w := by
          rintro rfl
          exact hfirst (List.mem_map.mpr ⟨_, hentry, rfl⟩)
        simpa using hne
      simp [hnone]
    · simp [hv]

theorem Canonical.meetInto (fact : Fact) {target : Fact} (h : target.Canonical) :
    (fact.meetInto target).Canonical :=
  h.meetInOrder fact.entries

/-- Taking a fact into another one takes the meet of the values of every variable. -/
theorem Canonical.get_meetInto {fact : Fact} (h : fact.Canonical) (target : Fact) (v : VarId) :
    (fact.meetInto target).get v = (fact.get v).meet (target.get v) :=
  get_meetInOrder h.nodup_keys target v

theorem Canonical.le_meetInto {fact : Fact} (h : fact.Canonical) (target : Fact) :
    fact ≤ fact.meetInto target := by
  intro v
  rw [h.get_meetInto]
  exact Value.left_le_meet _ _

theorem Canonical.target_le_meetInto {fact : Fact} (h : fact.Canonical) (target : Fact) :
    target ≤ fact.meetInto target := by
  intro v
  rw [h.get_meetInto]
  exact Value.right_le_meet _ _

/-- Only variables of a set have a value. -/
def Only (set : VarId → Prop) (fact : Fact) : Prop := ∀ v, fact.get v ≠ .undefined → set v

section Only

variable {set : VarId → Prop} {fact target : Fact}

theorem only_empty : Only set {} := by simp [Only]

theorem Only.remove (h : fact.Only set) (v : VarId) : (fact.remove v).Only set := by
  intro w hw
  refine h w fun hundefined => hw ?_
  simp [hundefined]

theorem Only.update (h : fact.Only set) {v : VarId} {value : Value}
    (hv : value ≠ .undefined → set v) : (fact.update v value).Only set := by
  intro w hw
  rw [get_update] at hw
  split at hw
  · next hwv => exact hwv ▸ hv hw
  · exact h w hw

theorem Only.meetInto (h : fact.Only set) (hcanonical : fact.Canonical)
    (htarget : target.Only set) : (fact.meetInto target).Only set := by
  intro v hv
  rw [hcanonical.get_meetInto] at hv
  by_cases hfact : fact.get v = .undefined
  · apply htarget v
    simpa [hfact] using hv
  · exact h v hfact

end Only

/-- A fact in normal form about the first `vars` variables. -/
structure Tidy (vars : Nat) (fact : Fact) : Prop extends Canonical fact where
  within : ∀ v, fact.get v ≠ .undefined → v.index < vars

variable {vars : Nat}

theorem tidy_empty : Tidy vars {} := ⟨canonical_empty, only_empty⟩

theorem Tidy.remove {fact : Fact} (h : fact.Tidy vars) (v : VarId) : (fact.remove v).Tidy vars :=
  ⟨h.toCanonical.remove v, Only.remove h.within v⟩

theorem Tidy.update {fact : Fact} (h : fact.Tidy vars) {v : VarId} (hv : v.index < vars)
    (value : Value) : (fact.update v value).Tidy vars :=
  ⟨h.toCanonical.update v value, Only.update h.within fun _ => hv⟩

theorem Tidy.meetInto {fact target : Fact} (h : fact.Tidy vars) (htarget : target.Tidy vars) :
    (fact.meetInto target).Tidy vars :=
  ⟨htarget.toCanonical.meetInto fact, Only.meetInto h.within h.toCanonical htarget.within⟩

/-- How high a fact stands in the order, as far as the first `vars` variables go. -/
def height (vars : Nat) (fact : Fact) : Nat :=
  ((List.range vars).map fun i => (fact.get ⟨i⟩).height).sum

theorem height_le (vars : Nat) (fact : Fact) : fact.height vars ≤ 2 * vars := by
  have hsum := List.sum_le_card_nsmul ((List.range vars).map fun i => (fact.get ⟨i⟩).height) 2
    (by simp [Value.height_le_two])
  simpa [height, Nat.mul_comm] using hsum

theorem height_mono {a b : Fact} (h : a ≤ b) : a.height vars ≤ b.height vars :=
  List.sum_le_sum fun _ _ => Value.height_mono (h _)

/-- A fact that grows without getting higher stays the same. -/
theorem Tidy.eq_of_height {a b : Fact} (ha : a.Tidy vars) (hb : b.Tidy vars) (h : a ≤ b)
    (hheight : b.height vars ≤ a.height vars) : a = b := by
  refine ha.toCanonical.ext hb.toCanonical fun v => ?_
  by_cases hv : v.index < vars
  · by_contra hne
    refine Nat.not_lt_of_le hheight (List.sum_lt_sum _ _ ?_ ⟨v.index, by simpa using hv, ?_⟩)
    · exact fun i _ => Value.height_mono (h _)
    · refine Nat.lt_of_not_le fun hle => hne (Value.eq_of_le_of_height (h v) hle)
  · rw [not_ne_iff.mp fun hne => hv (ha.within v hne),
      not_ne_iff.mp fun hne => hv (hb.within v hne)]

end Fact

end ObjectFlow.Dataflow
