import Mathlib.Order.Lattice
import ObjectFlow.Proofs.Dataflow.Value

/-!
# Facts as maps into a semilattice

The meet makes the values a semilattice with the missing value as its least element and `nac` as
its greatest.  Facts inherit this variable by variable, because every fact that the operations
build is in normal form: no variable is stored without a value, so that facts are equal exactly
when they give the same values, and an operation changes a fact exactly when it changes a value.
The entries of a fact may be taken into another one in any order.
-/

namespace ObjectFlow.Dataflow

namespace Value

instance : SemilatticeSup Value where
  sup := meet
  le_sup_left := left_le_meet
  le_sup_right := right_le_meet
  sup_le _ _ _ := meet_le

theorem meet_assoc (a b c : Value) : (a.meet b).meet c = a.meet (b.meet c) := sup_assoc a b c

@[simp]
theorem meet_self (a : Value) : a.meet a = a := sup_idem a

@[simp]
theorem nac_meet (a : Value) : nac.meet a = nac := by cases a <;> rfl

@[simp]
theorem meet_nac (a : Value) : a.meet nac = nac := by rw [meet_comm, nac_meet]

/-- The laws of the meet of values. -/
structure MeetLaws : Prop where
  assoc : ∀ x y z : Value, (x.meet y).meet z = x.meet (y.meet z)
  comm : ∀ x y : Value, x.meet y = y.meet x
  idem : ∀ x : Value, x.meet x = x
  neutral : ∀ x : Value, undefined.meet x = x ∧ x.meet undefined = x
  absorbing : ∀ x : Value, nac.meet x = nac ∧ x.meet nac = nac

theorem meetLaws : MeetLaws where
  assoc := meet_assoc
  comm := meet_comm
  idem := meet_self
  neutral x := ⟨undefined_meet x, meet_undefined x⟩
  absorbing x := ⟨nac_meet x, meet_nac x⟩

end Value

namespace Fact

variable {fact other target a b c : Fact} {v : VarId} {value : Value}

/-- The facts that are built from the empty one.  A meet may visit the entries that it takes in
in any order. -/
inductive Built : Fact → Prop where
  | empty : Built {}
  | update {fact : Fact} (h : Built fact) (v : VarId) (value : Value) :
    Built (fact.updateChanged v value).1
  | remove {fact : Fact} (h : Built fact) (v : VarId) : Built (fact.removeChanged v).1
  | copyFrom {fact other : Fact} (h : Built fact) (hother : Built other) :
    Built (fact.copyFrom other).1
  | meet {fact target : Fact} {order : List (VarId × Value)} (h : Built fact)
    (htarget : Built target) (horder : order.Perm fact.entries) :
    Built (meetInOrder order target)

theorem copyFrom_fst (fact other : Fact) : (fact.copyFrom other).1 = other := by
  unfold copyFrom
  split
  next hsame => exact hsame
  · rfl

theorem Built.canonical (h : Built fact) : fact.Canonical := by
  induction h with
  | empty => exact canonical_empty
  | update _ v value ih => exact ih.update v value
  | remove _ v ih => exact ih.remove v
  | copyFrom _ _ _ ihOther =>
    rw [copyFrom_fst]
    exact ihOther
  | meet _ _ _ _ ihTarget => exact ihTarget.meetInOrder _

/-! ### Reports of changes -/

/-- An entry that is looked up has the value that the fact gives. -/
theorem Canonical.lookup_eq_some_iff (h : fact.Canonical) :
    fact.entries.lookup v = some value ↔ fact.get v = value ∧ value ≠ .undefined := by
  constructor
  · exact fun hlookup => h.mem_iff.mp (mem_of_lookup hlookup)
  · rintro ⟨rfl, hdefined⟩
    cases hlookup : fact.entries.lookup v with
    | none => simp [get, hlookup] at hdefined
    | some found => simp [get, hlookup]

theorem Canonical.isSome_lookup_iff (h : fact.Canonical) :
    (fact.entries.lookup v).isSome = true ↔ fact.get v ≠ .undefined := by
  simp [Option.isSome_iff_exists, h.lookup_eq_some_iff]

/-- An update changes a value exactly when it changes that of its variable. -/
theorem exists_get_update_ne_iff :
    (∃ w, (fact.update v value).get w ≠ fact.get w) ↔ fact.get v ≠ value := by
  constructor
  · rintro ⟨w, hw⟩
    rw [get_update] at hw
    split at hw
    next hwv => exact fun heq => hw (hwv ▸ heq.symm)
    · exact absurd rfl hw
  · intro hne
    refine ⟨v, ?_⟩
    rw [get_update, if_pos rfl]
    exact hne.symm

theorem Canonical.updateChanged_iff (h : fact.Canonical) (v : VarId) (value : Value) :
    (fact.updateChanged v value).2 = true ↔
      ∃ w, (fact.updateChanged v value).1.get w ≠ fact.get w := by
  refine Iff.trans ?_ exists_get_update_ne_iff.symm
  unfold updateChanged
  by_cases hvalue : value = .undefined
  · subst hvalue
    exact h.isSome_lookup_iff
  · have hundef : value.isUndef = false := by
      cases value with
      | undefined => exact absurd rfl hvalue
      | _ => rfl
    simp [hundef, h.lookup_eq_some_iff, hvalue]

theorem Canonical.removeChanged_iff (h : fact.Canonical) (v : VarId) :
    (fact.removeChanged v).2 = true ↔ ∃ w, (fact.removeChanged v).1.get w ≠ fact.get w :=
  h.updateChanged_iff v .undefined

theorem Canonical.eq_iff (ha : a.Canonical) (hb : b.Canonical) :
    a = b ↔ ∀ v, a.get v = b.get v := by
  constructor
  · rintro rfl v
    rfl
  · exact ha.ext hb

theorem Canonical.copyFrom_iff (h : fact.Canonical) (hother : other.Canonical) :
    (fact.copyFrom other).2 = true ↔ ∃ w, (fact.copyFrom other).1.get w ≠ fact.get w := by
  have hflag : (fact.copyFrom other).2 = true ↔ fact ≠ other := by
    unfold copyFrom
    split <;> simp_all
  rw [hflag, copyFrom_fst, ne_eq, h.eq_iff hother, not_forall]
  exact exists_congr fun w => not_congr eq_comm

/-! ### Meets of facts -/

/-- The entries of a fact in normal form may be visited in any order. -/
theorem Canonical.get_meetInOrder_perm (h : fact.Canonical) {order : List (VarId × Value)}
    (horder : order.Perm fact.entries) (target : Fact) (v : VarId) :
    (Fact.meetInOrder order target).get v = (fact.get v).meet (target.get v) := by
  have hkeys : (order.map Prod.fst).Nodup := (horder.map Prod.fst).nodup_iff.mpr h.nodup_keys
  rw [get_meetInOrder hkeys, lookup_perm horder hkeys]
  rfl

theorem Canonical.meetInOrder_eq (h : fact.Canonical) (htarget : target.Canonical)
    {order : List (VarId × Value)} (horder : order.Perm fact.entries) :
    Fact.meetInOrder order target = fact.meetInto target := by
  apply (htarget.meetInOrder order).ext (htarget.meetInto fact)
  intro v
  rw [h.get_meetInOrder_perm horder, h.get_meetInto]

theorem Canonical.meetInto_assoc (ha : a.Canonical) (hb : b.Canonical) (hc : c.Canonical) :
    (a.meetInto b).meetInto c = a.meetInto (b.meetInto c) := by
  apply (hc.meetInto _).ext ((hc.meetInto b).meetInto a)
  intro v
  rw [(hb.meetInto a).get_meetInto, ha.get_meetInto, ha.get_meetInto, hb.get_meetInto,
    Value.meet_assoc]

theorem Canonical.meetInto_comm (ha : a.Canonical) (hb : b.Canonical) :
    a.meetInto b = b.meetInto a := by
  apply (hb.meetInto a).ext (ha.meetInto b)
  intro v
  rw [ha.get_meetInto, hb.get_meetInto, Value.meet_comm]

theorem Canonical.meetInto_self (ha : a.Canonical) : a.meetInto a = a := by
  apply (ha.meetInto a).ext ha
  intro v
  rw [ha.get_meetInto, Value.meet_self]

theorem Canonical.meetInto_empty (ha : a.Canonical) : a.meetInto {} = a := by
  rw [ha.meetInto_comm canonical_empty]
  rfl

/-- The facts `a`, `b` and `c` are maps from variables to values that say nothing twice, tell
their changes and meet pointwise. -/
structure SemilatticeMaps (a b c : Fact) : Prop where
  /-- No variable is stored without a value. -/
  stored : ∀ entry ∈ a.entries, entry.2 ≠ .undefined
  eq_iff : a = b ↔ ∀ v, a.get v = b.get v
  get_update : ∀ v value w,
    (a.updateChanged v value).1.get w = if w = v then value else a.get w
  update_changed : ∀ v value,
    (a.updateChanged v value).2 = true ↔ ∃ w, (a.updateChanged v value).1.get w ≠ a.get w
  get_remove : ∀ v w, (a.removeChanged v).1.get w = if w = v then .undefined else a.get w
  remove_changed : ∀ v,
    (a.removeChanged v).2 = true ↔ ∃ w, (a.removeChanged v).1.get w ≠ a.get w
  get_copyFrom : ∀ w, (a.copyFrom b).1.get w = b.get w
  copyFrom_changed : (a.copyFrom b).2 = true ↔ ∃ w, (a.copyFrom b).1.get w ≠ a.get w
  /-- In whatever order its entries are visited, a fact is taken into another one value by
  value. -/
  get_meet : ∀ order : List (VarId × Value), order.Perm a.entries →
    ∀ v, (meetInOrder order b).get v = (b.get v).meet (a.get v)
  meet_order : ∀ order : List (VarId × Value), order.Perm a.entries →
    meetInOrder order b = a.meetInto b
  assoc : (a.meetInto b).meetInto c = a.meetInto (b.meetInto c)
  comm : a.meetInto b = b.meetInto a
  idem : a.meetInto a = a
  neutral : Fact.meetInto {} a = a ∧ a.meetInto {} = a
  absorbing : ∀ v, a.get v = .nac ∨ b.get v = .nac → (a.meetInto b).get v = .nac

theorem Canonical.semilatticeMaps (ha : a.Canonical) (hb : b.Canonical) (hc : c.Canonical) :
    SemilatticeMaps a b c where
  stored := ha.defined
  eq_iff := ha.eq_iff hb
  get_update v value w := Fact.get_update a v w value
  update_changed := ha.updateChanged_iff
  get_remove v w := Fact.get_remove a v w
  remove_changed := ha.removeChanged_iff
  get_copyFrom w := by rw [copyFrom_fst]
  copyFrom_changed := ha.copyFrom_iff hb
  get_meet order horder v := by rw [ha.get_meetInOrder_perm horder, Value.meet_comm]
  meet_order order horder := ha.meetInOrder_eq hb horder
  assoc := ha.meetInto_assoc hb hc
  comm := ha.meetInto_comm hb
  idem := ha.meetInto_self
  neutral := ⟨rfl, ha.meetInto_empty⟩
  absorbing v hnac := by
    rw [ha.get_meetInto]
    rcases hnac with hnac | hnac <;> simp [hnac]

/-- The values are a semilattice, and whatever updates, removals, copies and meets build are maps
into it. -/
theorem built_semilattice :
    Value.MeetLaws ∧ ∀ a b c, Built a → Built b → Built c → SemilatticeMaps a b c :=
  ⟨Value.meetLaws, fun _ _ _ ha hb hc => ha.canonical.semilatticeMaps hb.canonical hc.canonical⟩

/-- Two facts that disagree about a variable, where the first one is taken into the second one
from its last entry on. -/
theorem built_semilattice_clash : ∃ a b : Fact,
    Built a ∧ Built b ∧ a.entries = [(⟨0⟩, .constant 1), (⟨1⟩, .constant 2)] ∧
      b.entries = [(⟨0⟩, .constant 5)] ∧
      (meetInOrder a.entries.reverse b).entries = [(⟨0⟩, .nac), (⟨1⟩, .constant 2)] ∧
      SemilatticeMaps a b a := by
  have ha : Built (((({} : Fact).updateChanged ⟨1⟩ (.constant 2)).1).updateChanged ⟨0⟩
      (.constant 1)).1 := (Built.empty.update _ _).update _ _
  have hb : Built (({} : Fact).updateChanged ⟨0⟩ (.constant 5)).1 := Built.empty.update _ _
  exact ⟨_, _, ha, hb, rfl, rfl, by decide, built_semilattice.2 _ _ _ ha hb ha⟩

end Fact

end ObjectFlow.Dataflow
