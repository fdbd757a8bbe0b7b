import ObjectFlow.Proofs.CallGraph.Hierarchy

/-!
# The targets of calls

A call that is dispatched on its receiver runs what the class of the receiver inherits.  When
only the class is known that the call names, its targets are what the classes below that class
inherit.  Diamonds in the hierarchy give no target twice, and interfaces that extend each other
do not keep the walk from its end.
-/

namespace ObjectFlow.Program

open Iteration (Ends attempt)

variable {program : Program} {kind : CallKind} {target : MethodRef}

/-- A call that is dispatched on its receiver has the targets that the walk down the hierarchy
finds. -/
theorem targets_of_dispatched (hkind : kind = .virtual ∨ kind = .interface) :
    program.targets kind target =
      program.overriders target.declaringClass target.subsignature := by
  rcases hkind with rfl | rfl <;> rfl

theorem callee_of_dispatched (receiver : Option Ty)
    (hkind : kind = .virtual ∨ kind = .interface) :
    program.callee receiver kind target =
      program.dispatch (dispatchClass receiver target) target.subsignature := by
  rcases hkind with rfl | rfl <;> rfl

/-- When the class of a receiver, if it has one, stands below the class that a call names, then
so does the class where the search for the method starts. -/
theorem below_dispatchClass {receiver : Option Ty}
    (h : ∀ id, receiver.bind Ty.class? = some id → program.Below target.declaringClass id) :
    program.Below target.declaringClass (dispatchClass receiver target) := by
  unfold dispatchClass
  cases hclass : receiver.bind Ty.class? with
  | none => exact .refl
  | some id => exact h id hclass

/-- The resolution of calls is exact.  Dispatch comes to its end by itself, on every class and
subsignature, with what the class inherits: the method of the nearest class on its chain that
declares one and does not leave it abstract.  For a call that is dispatched on its receiver, the
walk down the hierarchy comes to its end by itself, and finds what the classes below the class
that the call names inherit, each method once.  One of these is what the call runs on a receiver
whose class stands there, or which has no class; it may also run nothing.  The classes that the
calls of a program name are classes of the program. -/
theorem resolution_exact (program : Program) :
    (∀ (c : ClassId) (subsignature : String), c.index < program.listing.classes.size →
      ∃ found, program.dispatch c subsignature = .ok found ∧
        program.Inherits c subsignature found ∧
        ∃ count last, Ends (attempt (program.ascend subsignature)) (.ok ⟨some c, none⟩) count
          (.ok ⟨last, found⟩)) ∧
    (∀ (kind : CallKind) (target : MethodRef), kind = .virtual ∨ kind = .interface →
      target.declaringClass.index < program.listing.classes.size →
      ∃ count walk,
        Ends (attempt (program.descend target.subsignature))
          (.ok { queue := [target.declaringClass] }) count (.ok walk) ∧
        program.targets kind target = .ok walk.found ∧
        walk.found.Nodup ∧
        (∀ method, method ∈ walk.found ↔ ∃ c, program.Below target.declaringClass c ∧
          program.dispatch c target.subsignature = .ok (some method)) ∧
        ∀ receiver : Option Ty,
          (∀ id, receiver.bind Ty.class? = some id → program.Below target.declaringClass id) →
          ∃ answer, program.callee receiver kind target = .ok answer ∧
            ∀ method, answer = some method → method ∈ walk.found) ∧
    ∀ site call, program.getStmt site = .ok (.invoke call) →
      call.target.declaringClass.index < program.listing.classes.size := by
  refine ⟨fun c subsignature hc => exists_dispatch hc subsignature, ?_,
    fun site call hstmt => (call_of_getStmt hstmt).1⟩
  intro kind target hkind htarget
  obtain ⟨count, walk, hends, hfound, -, hnodup, hmem⟩ :=
    exists_descent htarget target.subsignature
  refine ⟨count, walk, hends, (targets_of_dispatched hkind).trans hfound, hnodup, hmem, ?_⟩
  intro receiver hreceiver
  have hbelow := below_dispatchClass hreceiver
  obtain ⟨answer, hanswer, -⟩ :=
    exists_dispatch (hbelow.index_lt htarget) target.subsignature
  refine ⟨answer, (callee_of_dispatched receiver hkind).trans hanswer, ?_⟩
  rintro method rfl
  exact (hmem method).mpr ⟨_, hbelow, hanswer⟩

/-- Two interfaces that extend each other, and classes that implement them.  `Mid` redeclares a
method of `Root` as abstract, `Leaf` stands below both interfaces and inherits past `Mid`, and
`Root` declares the method twice. -/
def latticeListing : Listing where
  classes := #[
    { id := ⟨0⟩, name := "Root", superClass := none, interfaces := [], isInterface := false,
      isAbstract := false, methods := [⟨0⟩, ⟨1⟩, ⟨4⟩] },
    { id := ⟨1⟩, name := "Mid", superClass := some ⟨0⟩, interfaces := [⟨3⟩], isInterface := false,
      isAbstract := true, methods := [⟨2⟩] },
    { id := ⟨2⟩, name := "Leaf", superClass := some ⟨1⟩, interfaces := [⟨3⟩, ⟨4⟩],
      isInterface := false, isAbstract := false, methods := [] },
    { id := ⟨3⟩, name := "Left", superClass := none, interfaces := [⟨4⟩], isInterface := true,
      isAbstract := true, methods := [] },
    { id := ⟨4⟩, name := "Right", superClass := none, interfaces := [⟨3⟩], isInterface := true,
      isAbstract := true, methods := [] },
    { id := ⟨5⟩, name := "Other", superClass := none, interfaces := [⟨4⟩], isInterface := false,
      isAbstract := false, methods := [⟨3⟩] }]
  methods := #[
    { id := ⟨0⟩, name := "run", declaringClass := ⟨0⟩, subsignature := "run()", isStatic := false,
      isAbstract := false, this := none, params := [], stmts := #[] },
    { id := ⟨1⟩, name := "run", declaringClass := ⟨0⟩, subsignature := "run()", isStatic := false,
      isAbstract := false, this := none, params := [], stmts := #[] },
    { id := ⟨2⟩, name := "run", declaringClass := ⟨1⟩, subsignature := "run()", isStatic := false,
      isAbstract := true, this := none, params := [], stmts := #[] },
    { id := ⟨3⟩, name := "run", declaringClass := ⟨5⟩, subsignature := "run()", isStatic := false,
      isAbstract := false, this := none, params := [], stmts := #[] },
    { id := ⟨4⟩, name := "main", declaringClass := ⟨0⟩, subsignature := "main()", isStatic := true,
      isAbstract := false, this := none, params := [],
      stmts := #[.invoke { kind := .interface, target := ⟨⟨3⟩, "run()"⟩, base := some ⟨0⟩,
                           args := [], result := none }] }]
  vars := #[⟨⟨0⟩, "job", .object ⟨3⟩, ⟨4⟩⟩]
  entries := [⟨4⟩]

/-- The program of `latticeListing`. -/
def latticeProgram : Program where
  listing := latticeListing
  sound := by decide
  index := Index.ofListing latticeListing
  index_eq := rfl

/-- On `latticeProgram` the call through `Left` has the two targets, and on a `Leaf` it runs the
last declaration of `Root`. -/
theorem resolution_exact_lattice : ∃ walk : Descent,
    latticeProgram.targets .interface ⟨⟨3⟩, "run()"⟩ = .ok walk.found ∧ walk.found.Nodup ∧
      ⟨1⟩ ∈ walk.found ∧ ⟨3⟩ ∈ walk.found ∧
      latticeProgram.Inherits ⟨2⟩ "run()" (some ⟨1⟩) ∧
      latticeProgram.callee (some (.object ⟨2⟩)) .interface ⟨⟨3⟩, "run()"⟩ =
        .ok (some ⟨1⟩) := by
  obtain ⟨hdispatch, htargets, hcalls⟩ := resolution_exact latticeProgram
  have hcall : latticeProgram.getStmt ⟨⟨4⟩, 0⟩ =
      .ok (.invoke { kind := .interface, target := ⟨⟨3⟩, "run()"⟩, base := some ⟨0⟩,
                     args := [], result := none }) := rfl
  obtain ⟨count, walk, -, hfound, hnodup, hmem, hcallee⟩ :=
    htargets .interface ⟨⟨3⟩, "run()"⟩ (.inr rfl) (hcalls _ _ hcall)
  have hleaf : latticeProgram.Link ⟨3⟩ ⟨2⟩ :=
    ⟨_, _, rfl, rfl, by decide⟩
  have hright : latticeProgram.Link ⟨3⟩ ⟨4⟩ := ⟨_, _, rfl, rfl, by decide⟩
  have hother : latticeProgram.Link ⟨4⟩ ⟨5⟩ := ⟨_, _, rfl, rfl, by decide⟩
  have hinherited : latticeProgram.dispatch ⟨2⟩ "run()" = .ok (some ⟨1⟩) := by decide
  have hown : latticeProgram.dispatch ⟨5⟩ "run()" = .ok (some ⟨3⟩) := by decide
  obtain ⟨found, hsearch, hinherits, -⟩ := hdispatch ⟨2⟩ "run()" (by decide)
  cases hsearch.symm.trans hinherited
  refine ⟨walk, hfound, hnodup, (hmem _).mpr ⟨_, .single hleaf, hinherited⟩,
    (hmem _).mpr ⟨_, .tail (.single hright) hother, hown⟩, hinherits, ?_⟩
  obtain ⟨answer, hanswer, -⟩ := hcallee (some (.object ⟨2⟩)) fun id hid => by
    cases hid
    exact .single hleaf
  rw [callee_of_dispatched _ (.inr rfl)] at hanswer ⊢
  exact hinherited

end ObjectFlow.Program
