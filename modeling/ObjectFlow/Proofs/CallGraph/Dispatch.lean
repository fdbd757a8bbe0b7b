import ObjectFlow.CallGraph.Hierarchy
import ObjectFlow.Proofs.Iteration
import ObjectFlow.Proofs.Program.Index

/-!
# Dispatch

The search for the method of a call goes up the chain of superclasses, to the nearest class that
implements what the call names.  A chain has no cycle and is no longer than the table of classes,
so that the search comes to its end by itself.  It walks from class to class and from declaration
to declaration, all of which are entries of the tables, so that it never faults.
-/

namespace ObjectFlow.Program

open Iteration (Ends Steps Turn attempt)
open Listing (Circular circular_of_length_lt defect?_eq_none_iff)

variable {program : Program} {c d parent : ClassId} {entry : Class} {subsignature : String}
  {steps : Nat}

section Chain

/-- `program.Above c steps d`: the chain of superclasses of `c` comes to `d` after so many
steps. -/
inductive Above (program : Program) : ClassId → Nat → ClassId → Prop where
  | self (c : ClassId) : Above program c 0 c
  | parent {c parent d : ClassId} {entry : Class} {steps : Nat}
    (hclass : program.getClass c = .ok entry) (hparent : entry.superClass = some parent)
    (h : Above program parent steps d) : Above program c (steps + 1) d

theorem lt_of_superClass (hclass : program.getClass c = .ok entry)
    (hparent : entry.superClass = some parent) : parent.index < program.listing.classes.size :=
  program.inRange.parent (getClass_eq_ok_iff.mp hclass) parent (by simp [hparent])

/-- The classes that a chain passes. -/
theorem Above.exists_path {entry : Class} (h : program.Above c steps d)
    (hclass : program.getClass c = .ok entry) :
    ∃ path : List Class, path.length = steps ∧
      (entry :: path).IsChain program.listing.Extends := by
  induction h generalizing entry with
  | self => exact ⟨[], rfl, .singleton entry⟩
  | @parent _ _ _ above _ hclass' hparent _ ih =>
    obtain rfl : above = entry := Except.ok.inj (hclass'.symm.trans hclass)
    obtain ⟨next, hnext⟩ := exists_getClass (lt_of_superClass hclass hparent)
    obtain ⟨path, hlength, hchain⟩ := ih hnext
    have hextends : program.listing.Extends above next :=
      ⟨_, hparent, getClass_eq_ok_iff.mp hnext⟩
    exact ⟨next :: path, by simp [hlength], hchain.cons_cons hextends⟩

/-- No chain is longer than the table of classes. -/
theorem Above.steps_le (h : program.Above c steps d) :
    steps ≤ program.listing.classes.size := by
  cases h with
  | self => exact Nat.zero_le _
  | parent hclass hparent h =>
    obtain ⟨path, hlength, hchain⟩ := (Above.parent hclass hparent h).exists_path hclass
    by_contra hlong
    have hcircular := circular_of_length_lt hchain (by omega)
    have hmem := Array.mem_of_getElem? (getClass_eq_ok_iff.mp hclass)
    exact hcircular.not_rooted ((defect?_eq_none_iff.mp program.sound).rooted _ hmem)

end Chain

section Inheritance

/-- `program.Implements c subsignature method`: a class declares a method with a subsignature,
and does not leave it abstract. -/
structure Implements (program : Program) (c : ClassId) (subsignature : String)
    (found : MethodId) : Prop where
  declares : program.Declares c subsignature found
  concrete : ∃ method, program.getMethod found = .ok method ∧ method.isAbstract = false

/-- What a class has of its own or inherits: the method of the nearest class on its chain that
implements one, and nothing when there is no such class. -/
inductive Inherits (program : Program) (c : ClassId) (subsignature : String) :
    Option MethodId → Prop where
  | nearest {steps : Nat} {d : ClassId} {method : MethodId} (habove : program.Above c steps d)
    (himplements : program.Implements d subsignature method)
    (hfirst : ∀ earlier < steps, ∀ e, program.Above c earlier e →
      ∀ other, ¬ program.Implements e subsignature other) :
    Inherits program c subsignature (some method)
  | nothing (hnone : ∀ steps d, program.Above c steps d →
      ∀ method, ¬ program.Implements d subsignature method) :
    Inherits program c subsignature none

theorem Implements.inherits {method : MethodId} (h : program.Implements c subsignature method) :
    program.Inherits c subsignature (some method) :=
  .nearest (.self c) h nofun

/-- A class without a superclass that implements nothing inherits nothing. -/
theorem inherits_none (hclass : program.getClass c = .ok entry)
    (hroot : entry.superClass = none)
    (hnone : ∀ method, ¬ program.Implements c subsignature method) :
    program.Inherits c subsignature none := by
  refine .nothing fun steps d habove => ?_
  cases habove with
  | self => exact hnone
  | parent hclass' hparent =>
    cases hclass.symm.trans hclass'
    rw [hroot] at hparent
    cases hparent

/-- A class that implements nothing inherits what its superclass has. -/
theorem Inherits.below {found : Option MethodId} (h : program.Inherits parent subsignature found)
    (hclass : program.getClass c = .ok entry) (hparent : entry.superClass = some parent)
    (hnone : ∀ method, ¬ program.Implements c subsignature method) :
    program.Inherits c subsignature found := by
  have hchain : ∀ {steps d}, program.Above c (steps + 1) d → program.Above parent steps d := by
    rintro steps d (_ | ⟨hclass', hparent', habove⟩)
    cases hclass.symm.trans hclass'
    cases hparent.symm.trans hparent'
    exact habove
  cases h with
  | nearest habove himplements hfirst =>
    refine .nearest (.parent hclass hparent habove) himplements fun earlier hlt e he => ?_
    cases earlier with
    | zero =>
      cases he
      exact hnone
    | succ earlier => exact hfirst earlier (Nat.lt_of_succ_lt_succ hlt) e (hchain he)
  | nothing hparents =>
    refine .nothing fun steps d habove => ?_
    cases steps with
    | zero =>
      cases habove
      exact hnone
    | succ steps => exact hparents steps d (hchain habove)

theorem Inherits.index_lt {method : MethodId}
    (h : program.Inherits c subsignature (some method)) :
    method.index < program.listing.methods.size := by
  cases h with
  | nearest _ himplements =>
    obtain ⟨_, hmethod, -⟩ := himplements.declares.declared
    exact lt_of_getMethod hmethod

end Inheritance

section Search

/-- The method that a class implements. -/
def implemented? (program : Program) (c : ClassId) (subsignature : String) :
    Except Fault (Option MethodId) :=
  match program.declared? c subsignature with
  | none => pure none
  | some id => do
    let method ← program.getMethod id
    pure (if method.isAbstract then none else some id)

theorem exists_implemented (program : Program) (c : ClassId) (subsignature : String) :
    ∃ found, program.implemented? c subsignature = .ok found ∧
      ∀ method, found = some method ↔ program.Implements c subsignature method := by
  unfold implemented?
  cases hdeclared : program.declared? c subsignature with
  | none =>
    refine ⟨none, rfl, fun method => iff_of_false nofun fun h => ?_⟩
    rw [declared?_eq_some_iff.mpr h.declares] at hdeclared
    cases hdeclared
  | some id =>
    have hdeclares := declared?_eq_some_iff.mp hdeclared
    obtain ⟨body, hbody, -⟩ := hdeclares.declared
    simp only [hbody, ok_bind, pure_eq_ok]
    refine ⟨_, rfl, fun method => ?_⟩
    cases habstract : body.isAbstract with
    | false =>
      simp only [Bool.false_eq_true, if_false, Option.some.injEq]
      constructor
      · rintro rfl
        exact ⟨hdeclares, body, hbody, habstract⟩
      · exact fun h => hdeclares.unique h.declares
    | true =>
      refine iff_of_false nofun fun h => ?_
      obtain ⟨body', hbody', hconcrete⟩ := h.concrete
      cases hdeclares.unique h.declares
      cases hbody.symm.trans hbody'
      rw [habstract] at hconcrete
      cases hconcrete

/-- A search for the method of a call: the class to look at next, and the method found. -/
structure Search where
  current : Option ClassId
  found : Option MethodId := none

/-- One turn of a search up the chain of superclasses, with no bound on its turns. -/
def ascend (program : Program) (subsignature : String) (search : Search) :
    Except Fault (Turn Search) :=
  match search.current with
  | none => .ok (.done search)
  | some id => do
    match ← program.implemented? id subsignature with
    | some method => .ok (.done { search with found := some method })
    | none => do
      let c ← program.getClass id
      .ok (.more { search with current := c.superClass })

theorem dispatchFrom_succ (program : Program) (subsignature : String) (steps : Nat)
    (c : ClassId) :
    program.dispatchFrom subsignature (steps + 1) c = (do
      match ← program.implemented? c subsignature with
      | some method => .ok (some method)
      | none => do
        let entry ← program.getClass c
        match entry.superClass with
        | none => .ok none
        | some parent => program.dispatchFrom subsignature steps parent) := by
  rw [dispatchFrom, implemented?]
  cases program.declared? c subsignature with
  | none => rfl
  | some id =>
    dsimp only
    cases program.getMethod id <;> rfl

/-- A search with enough steps for the chain finds what the class inherits, and so does one
without a bound. -/
theorem exists_search (hc : c.index < program.listing.classes.size)
    (hsteps : ∀ count d, program.Above c count d → count < steps) :
    ∃ found, program.dispatchFrom subsignature steps c = .ok found ∧
      program.Inherits c subsignature found ∧
      ∃ count t last, Steps (attempt (program.ascend subsignature)) (.ok ⟨some c, none⟩) count t ∧
        attempt (program.ascend subsignature) t = .done (.ok ⟨last, found⟩) := by
  induction steps generalizing c with
  | zero => exact absurd (hsteps 0 c (.self c)) (Nat.lt_irrefl 0)
  | succ steps ih =>
    obtain ⟨own, hown, himplements⟩ := program.exists_implemented c subsignature
    obtain ⟨entry, hclass⟩ := exists_getClass hc
    cases own with
    | some method =>
      refine ⟨some method, ?_, ((himplements method).mp rfl).inherits, 0, _, some c, .refl, ?_⟩
      · rw [dispatchFrom_succ, hown, ok_bind]
      · simp [attempt, ascend, hown, Turn.map]
    | none =>
      have hnone : ∀ method, ¬ program.Implements c subsignature method := by
        intro method h
        cases (himplements method).mpr h
      have hturn : attempt (program.ascend subsignature) (.ok ⟨some c, none⟩) =
          .more (.ok ⟨entry.superClass, none⟩) := by
        simp [attempt, ascend, hown, hclass, Turn.map]
      rw [dispatchFrom_succ, hown, ok_bind]
      simp only [hclass, ok_bind]
      cases hparent : entry.superClass with
      | none =>
        rw [hparent] at hturn
        exact ⟨none, rfl, inherits_none hclass hparent hnone, 1, _, none, .more .refl hturn, rfl⟩
      | some parent =>
        rw [hparent] at hturn
        obtain ⟨found, hfound, hinherits, count, t, last, hrun, hdone⟩ :=
          ih (lt_of_superClass hclass hparent) fun count d habove =>
            Nat.lt_of_succ_lt_succ (hsteps (count + 1) d (.parent hclass hparent habove))
        exact ⟨found, hfound, hinherits.below hclass hparent hnone, count + 1, t, last,
          hrun.head hturn, hdone⟩

/-- Dispatch finds what a class inherits, and the search for it needs no bound. -/
theorem exists_dispatch (hc : c.index < program.listing.classes.size) (subsignature : String) :
    ∃ found, program.dispatch c subsignature = .ok found ∧
      program.Inherits c subsignature found ∧
      ∃ count last, Ends (attempt (program.ascend subsignature)) (.ok ⟨some c, none⟩) count
        (.ok ⟨last, found⟩) := by
  obtain ⟨found, hfound, hinherits, count, t, last, hrun, hdone⟩ :=
    exists_search hc fun _ _ habove => Nat.lt_succ_of_le habove.steps_le
  exact ⟨found, hfound, hinherits, count, last, ⟨t, hrun, hdone⟩, fun h => h.count_le hrun hdone⟩

/-- A result of the search for a method: nothing, or a method of the program. -/
def Resolves (program : Program) (answer : Except Fault (Option MethodId)) : Prop :=
  ∃ found, answer = .ok found ∧
    ∀ id, found = some id → id.index < program.listing.methods.size

theorem resolves_dispatch (program : Program) {start : ClassId}
    (hstart : start.index < program.listing.classes.size) (subsignature : String) :
    program.Resolves (program.dispatch start subsignature) := by
  obtain ⟨found, hfound, hinherits, -⟩ := exists_dispatch hstart subsignature
  refine ⟨found, hfound, fun id hid => ?_⟩
  subst hid
  exact hinherits.index_lt

end Search

section Callee

/-- The class of a type of the program is a class of the program. -/
theorem lt_of_hasType {type : Ty} {id : ClassId} (htype : program.listing.hasType type = true)
    (hclass : type.class? = some id) : id.index < program.listing.classes.size := by
  cases type <;> simp_all [Ty.class?, Listing.hasType, Ty.namesOnly]

/-- A call that names a class of the program is resolved on every receiver whose type is
one of the program. -/
theorem resolves_callee (program : Program) {receiver : Option Ty} (kind : CallKind)
    {target : MethodRef} (htarget : target.declaringClass.index < program.listing.classes.size)
    (hreceiver : ∀ type, receiver = some type → program.listing.hasType type = true) :
    program.Resolves (program.callee receiver kind target) := by
  have hstart : (dispatchClass receiver target).index < program.listing.classes.size := by
    unfold dispatchClass
    cases hclass : receiver.bind Ty.class? with
    | none => exact htarget
    | some id =>
      obtain ⟨type, htype, hid⟩ := Option.bind_eq_some_iff.mp hclass
      exact lt_of_hasType (hreceiver type htype) hid
  cases kind with
  | static =>
    refine ⟨_, rfl, fun id hid => ?_⟩
    obtain ⟨method, hmethod, -⟩ := getMethod_of_declared? hid
    exact lt_of_getMethod hmethod
  | special => exact resolves_dispatch program htarget _
  | virtual => exact resolves_dispatch program hstart _
  | interface => exact resolves_dispatch program hstart _

end Callee

end ObjectFlow.Program
