import ObjectFlow.Program.Basic
import ObjectFlow.Proofs.Program.Ancestry

/-!
# Well-formed listings

A listing is well formed when its entries stand at their own positions, every handle in it
names an entry, every branch stays inside its method, every call that needs a receiver has one,
and every class has a chain of superclasses that ends.  These rules are said here of the data
alone, statement form by statement form.  A listing becomes a program exactly when it is well
formed.
-/

namespace ObjectFlow

/-- The classes that a type names, through any depth of arrays. -/
inductive Ty.Names : Ty → ClassId → Prop where
  | object (c : ClassId) : Names (.object c) c
  | array {element : Ty} {c : ClassId} (h : Names element c) : Names (.array element) c

section Rules

variable (listing : Listing)

/-- A type names classes of the listing. -/
def Ty.Fits (type : Ty) : Prop := ∀ c, type.Names c → c.index < listing.classes.size

/-- An expression reads variables of the listing. -/
def Exp.Fits : Exp → Prop
  | .literal _ => True
  | .var v => v.index < listing.vars.size
  | .binary _ lhs rhs => lhs.index < listing.vars.size ∧ rhs.index < listing.vars.size

/-- A call reads and writes variables and names a class of the listing, and has a receiver
unless it is static. -/
structure Call.Fits (call : Call) : Prop where
  base : ∀ v ∈ call.base, v.index < listing.vars.size
  args : ∀ v ∈ call.args, v.index < listing.vars.size
  result : ∀ v ∈ call.result, v.index < listing.vars.size
  target : call.target.declaringClass.index < listing.classes.size
  receiver : call.kind ≠ .static → call.base ≠ none

/-- A statement names what the listing holds, and goes to one of the `length` statements of its
method. -/
def Stmt.Fits (length : Nat) : Stmt → Prop
  | .alloc lhs type => lhs.index < listing.vars.size ∧ type.Fits listing
  | .copy lhs rhs => lhs.index < listing.vars.size ∧ rhs.index < listing.vars.size
  | .assign lhs rhs => lhs.index < listing.vars.size ∧ rhs.Fits listing
  | .loadField lhs base field =>
    lhs.index < listing.vars.size ∧ (∀ v ∈ base, v.index < listing.vars.size) ∧
      field.index < listing.fields.size
  | .storeField base field rhs =>
    (∀ v ∈ base, v.index < listing.vars.size) ∧ field.index < listing.fields.size ∧
      rhs.index < listing.vars.size
  | .loadArray lhs base index =>
    lhs.index < listing.vars.size ∧ base.index < listing.vars.size ∧
      index.index < listing.vars.size
  | .storeArray base index rhs =>
    base.index < listing.vars.size ∧ index.index < listing.vars.size ∧
      rhs.index < listing.vars.size
  | .invoke call => call.Fits listing
  | .branch condition target => condition.Fits listing ∧ target < length
  | .jump target => target < length
  | .switch v cases default =>
    v.index < listing.vars.size ∧ (∀ arm ∈ cases, arm.2 < length) ∧ default < length
  | .ret value => ∀ v ∈ value, v.index < listing.vars.size
  | .nop => True

structure Class.Fits (position : Nat) (c : Class) : Prop where
  place : c.id.index = position
  superClass : ∀ parent ∈ c.superClass, parent.index < listing.classes.size
  interfaces : ∀ parent ∈ c.interfaces, parent.index < listing.classes.size
  methods : ∀ m ∈ c.methods, m.index < listing.methods.size

structure Field.Fits (position : Nat) (field : Field) : Prop where
  place : field.id.index = position
  declaringClass : field.declaringClass.index < listing.classes.size
  type : field.type.Fits listing

structure Var.Fits (position : Nat) (var : Var) : Prop where
  place : var.id.index = position
  method : var.method.index < listing.methods.size
  type : var.type.Fits listing

structure Method.Fits (position : Nat) (method : Method) : Prop where
  place : method.id.index = position
  declaringClass : method.declaringClass.index < listing.classes.size
  this : ∀ v ∈ method.this, v.index < listing.vars.size
  params : ∀ v ∈ method.params, v.index < listing.vars.size
  stmts : ∀ stmt ∈ method.stmts, stmt.Fits listing method.stmts.size

/-- The rules that a listing has to keep. -/
structure Listing.WellFormed : Prop where
  started : listing.entries ≠ []
  entries : ∀ entry ∈ listing.entries, entry.index < listing.methods.size
  classes : ∀ (i : Nat) (c : Class), listing.classes[i]? = some c → c.Fits listing i
  rooted : ∀ c ∈ listing.classes, listing.Rooted c
  fields : ∀ (i : Nat) (field : Field), listing.fields[i]? = some field → field.Fits listing i
  vars : ∀ (i : Nat) (var : Var), listing.vars[i]? = some var → var.Fits listing i
  methods :
    ∀ (i : Nat) (method : Method), listing.methods[i]? = some method → method.Fits listing i

end Rules

namespace Listing

variable {listing : Listing}

section Tables

/-- The entries of a table with their positions. -/
theorem forall_mem_zipIdx_iff {α : Type} {table : Array α} (Passes : Nat → α → Prop) :
    (∀ x ∈ table.toList.zipIdx, Passes x.2 x.1) ↔
      ∀ (i : Nat) (entry : α), table[i]? = some entry → Passes i entry := by
  constructor
  · intro h i entry hentry
    exact h (entry, i) (List.mem_zipIdx_iff_getElem?.mpr (by simpa using hentry))
  · rintro h ⟨entry, i⟩ hmem
    exact h i entry (by simpa using List.mem_zipIdx_iff_getElem?.mp hmem)

theorem find?_not_eq_none_iff {α : Type} {items : List α} {known : α → Bool} :
    (items.find? fun item => !known item) = none ↔ ∀ item ∈ items, known item = true := by
  simp

theorem hasType_iff {type : Ty} : listing.hasType type = true ↔ type.Fits listing := by
  rw [hasType]
  induction type with
  | object c =>
    rw [Ty.namesOnly, decide_eq_true_iff]
    constructor
    · rintro h _ ⟨⟩
      exact h
    · exact fun h => h c (.object c)
  | array element ih =>
    rw [Ty.namesOnly, ih]
    constructor
    · rintro h c ⟨⟩
      exact h c ‹_›
    · exact fun h c hc => h c (.array hc)
  | _ => exact iff_of_true rfl nofun

theorem entryDefect?_eq_none_iff :
    listing.entryDefect? = none ↔
      listing.entries ≠ [] ∧ ∀ entry ∈ listing.entries, entry.index < listing.methods.size := by
  unfold entryDefect?
  split
  · next hempty => simp [List.isEmpty_iff.mp hempty]
  · next hsome =>
    have hstarted : listing.entries ≠ [] := fun h => hsome (List.isEmpty_iff.mpr h)
    simp [hstarted, hasMethod]

theorem classDefect?_eq_none_iff {position : Nat} {c : Class} :
    listing.classDefect? position c = none ↔ c.Fits listing position := by
  have hcheck : listing.classDefect? position c = none ↔ c.id.index = position ∧
      (∀ parent ∈ c.superClass.toList ++ c.interfaces, listing.hasClass parent = true) ∧
      ∀ m ∈ c.methods, listing.hasMethod m = true := by
    rw [← find?_not_eq_none_iff, ← find?_not_eq_none_iff, classDefect?]
    split
    · next hplace => exact iff_of_false (Option.some_ne_none _) fun h => hplace h.1
    · next hplace =>
      rw [and_iff_right (not_not.mp hplace)]
      split
      · next hfind =>
        refine iff_of_false (Option.some_ne_none _) fun h => ?_
        exact Option.some_ne_none _ (hfind.symm.trans h.1)
      · next hfind => simp only [hfind, true_and, Option.map_eq_none_iff]
  simp only [hcheck, hasClass, hasMethod, decide_eq_true_iff, List.forall_mem_append,
    Option.mem_toList]
  exact ⟨fun ⟨hplace, ⟨hsuper, hinterfaces⟩, hmethods⟩ => ⟨hplace, hsuper, hinterfaces, hmethods⟩,
    fun ⟨hplace, hsuper, hinterfaces, hmethods⟩ => ⟨hplace, ⟨hsuper, hinterfaces⟩, hmethods⟩⟩

theorem fieldDefect?_eq_none_iff {position : Nat} {field : Field} :
    listing.fieldDefect? position field = none ↔ field.Fits listing position := by
  rw [fieldDefect?, ite_eq_left_iff]
  simp only [reduceCtorEq, imp_false, not_not, hasClass, decide_eq_true_iff, hasType_iff]
  exact ⟨fun ⟨hplace, hclass, htype⟩ => ⟨hplace, hclass, htype⟩,
    fun ⟨hplace, hclass, htype⟩ => ⟨hplace, hclass, htype⟩⟩

theorem varDefect?_eq_none_iff {position : Nat} {var : Var} :
    listing.varDefect? position var = none ↔ var.Fits listing position := by
  rw [varDefect?, ite_eq_left_iff]
  simp only [reduceCtorEq, imp_false, not_not, hasMethod, decide_eq_true_iff, hasType_iff]
  exact ⟨fun ⟨hplace, hmethod, htype⟩ => ⟨hplace, hmethod, htype⟩,
    fun ⟨hplace, hmethod, htype⟩ => ⟨hplace, hmethod, htype⟩⟩

end Tables

section Statements

theorem exp_fits_iff {e : Exp} :
    e.Fits listing ↔ ∀ v ∈ e.uses, v.index < listing.vars.size := by
  cases e <;> simp [Exp.Fits, Exp.uses]

theorem call_fits_iff {call : Call} :
    call.Fits listing ↔
      (∀ v ∈ call.base.toList ++ call.args ++ call.result.toList, v.index < listing.vars.size) ∧
      call.target.declaringClass.index < listing.classes.size ∧
      (call.kind ≠ .static → call.base ≠ none) := by
  simp only [List.forall_mem_append, Option.mem_toList]
  exact ⟨fun ⟨hbase, hargs, hresult, htarget, hreceiver⟩ =>
      ⟨⟨⟨hbase, hargs⟩, hresult⟩, htarget, hreceiver⟩,
    fun ⟨⟨⟨hbase, hargs⟩, hresult⟩, htarget, hreceiver⟩ =>
      ⟨hbase, hargs, hresult, htarget, hreceiver⟩⟩

/-- A statement passes when its variables are known and its other operands pass. -/
theorem stmtDefect?_eq_none_iff_and {length : Nat} {stmt : Stmt} :
    listing.stmtDefect? length stmt = none ↔
      (∀ v ∈ stmt.uses ++ stmt.writes?.toList, v.index < listing.vars.size) ∧
      listing.operandDefect? length stmt = none := by
  have hvars : ((stmt.uses ++ stmt.writes?.toList).find? fun v => !listing.hasVar v) = none ↔
      ∀ v ∈ stmt.uses ++ stmt.writes?.toList, v.index < listing.vars.size := by
    simp only [find?_not_eq_none_iff, hasVar, decide_eq_true_iff]
  rw [← hvars, stmtDefect?]
  split
  · next hfind =>
    refine iff_of_false (Option.some_ne_none _) fun h => ?_
    exact Option.some_ne_none _ (hfind.symm.trans h.1)
  · next hfind => rw [and_iff_right hfind]

theorem stmtDefect?_eq_none_iff {length : Nat} {stmt : Stmt} :
    listing.stmtDefect? length stmt = none ↔ stmt.Fits listing length := by
  rw [stmtDefect?_eq_none_iff_and]
  cases stmt with
  | alloc lhs type => simp [Stmt.uses, Stmt.writes?, operandDefect?, Stmt.Fits, hasType_iff]
  | copy lhs rhs => simp [Stmt.uses, Stmt.writes?, operandDefect?, Stmt.Fits, and_comm]
  | assign lhs rhs =>
    simp [Stmt.uses, Stmt.writes?, operandDefect?, Stmt.Fits, exp_fits_iff, or_imp, forall_and,
      and_comm]
  | loadField lhs base field =>
    simp [Stmt.uses, Stmt.writes?, operandDefect?, Stmt.Fits, hasField, or_imp, forall_and,
      and_assoc, and_left_comm]
  | storeField base field rhs =>
    simp [Stmt.uses, Stmt.writes?, operandDefect?, Stmt.Fits, hasField, or_imp, forall_and,
      and_assoc, and_comm]
  | loadArray lhs base index =>
    simp [Stmt.uses, Stmt.writes?, operandDefect?, Stmt.Fits, and_left_comm, and_comm]
  | storeArray base index rhs => simp [Stmt.uses, Stmt.writes?, operandDefect?, Stmt.Fits]
  | invoke call =>
    have hoperand : listing.operandDefect? length (.invoke call) = none ↔
        call.target.declaringClass.index < listing.classes.size ∧
        (call.kind ≠ .static → call.base ≠ none) := by
      rw [operandDefect?]
      split <;> simp_all [hasClass, Call.isStatic]
    rw [hoperand]
    exact call_fits_iff.symm
  | branch condition target =>
    simp [Stmt.uses, Stmt.writes?, operandDefect?, Stmt.Fits, exp_fits_iff]
  | jump target => simp [Stmt.uses, Stmt.writes?, operandDefect?, Stmt.Fits]
  | switch var cases default => simp [Stmt.uses, Stmt.writes?, operandDefect?, Stmt.Fits]
  | ret value => simp [Stmt.uses, Stmt.writes?, operandDefect?, Stmt.Fits]
  | nop => simp [Stmt.uses, Stmt.writes?, operandDefect?, Stmt.Fits]

theorem methodDefect?_eq_none_iff {position : Nat} {method : Method} :
    listing.methodDefect? position method = none ↔ method.Fits listing position := by
  have hlocals : ((method.this.toList ++ method.params).find? fun v => !listing.hasVar v) = none ↔
      (∀ v ∈ method.this, v.index < listing.vars.size) ∧
      ∀ v ∈ method.params, v.index < listing.vars.size := by
    simp only [find?_not_eq_none_iff, hasVar, decide_eq_true_iff, List.forall_mem_append,
      Option.mem_toList, Option.mem_def]
  have hstmts : (∀ x ∈ method.stmts.toList.zipIdx, x.1.Fits listing method.stmts.size) ↔
      ∀ stmt ∈ method.stmts, stmt.Fits listing method.stmts.size := by
    refine (forall_mem_zipIdx_iff fun _ => Stmt.Fits listing method.stmts.size).trans ?_
    simp only [Array.mem_iff_getElem?, forall_exists_index]
    exact forall_comm
  rw [methodDefect?]
  split
  · next hmalformed =>
    refine iff_of_false (Option.some_ne_none _) fun h => ?_
    rcases hmalformed with hplace | hclass
    · exact hplace h.place
    · simp [hasClass, h.declaringClass] at hclass
  · next hproper =>
    obtain ⟨hplace, hclass⟩ := not_or.mp hproper
    split
    · next hfind =>
      refine iff_of_false (Option.some_ne_none _) fun h => ?_
      exact Option.some_ne_none _ (hfind.symm.trans (hlocals.mpr ⟨h.this, h.params⟩))
    · next hfind =>
      obtain ⟨hthis, hparams⟩ := hlocals.mp hfind
      rw [List.findSome?_eq_none_iff]
      simp only [Option.map_eq_none_iff, stmtDefect?_eq_none_iff, hstmts]
      refine ⟨fun h => ?_, fun h => h.stmts⟩
      exact ⟨not_not.mp hplace, by simpa [hasClass] using hclass, hthis, hparams, h⟩

end Statements

/-- The checks find nothing exactly in the well-formed listings. -/
theorem defect?_eq_none_iff : listing.defect? = none ↔ listing.WellFormed := by
  simp only [defect?, Option.orElse_eq_orElse, Option.orElse_eq_or, Option.or_eq_none_iff,
    entryDefect?_eq_none_iff, List.findSome?_eq_none_iff, Array.mem_toList_iff,
    classDefect?_eq_none_iff, fieldDefect?_eq_none_iff, varDefect?_eq_none_iff,
    methodDefect?_eq_none_iff, forall_mem_zipIdx_iff]
  -- The walk up the chains relies on the check of the table of classes.
  have hchains (hclasses : ∀ (i : Nat) (c : Class), listing.classes[i]? = some c → c.Fits listing i)
      {c : Class} (hc : c ∈ listing.classes) :
      listing.cycleDefect? c = none ↔ listing.Rooted c := by
    obtain ⟨i, hi⟩ := Array.mem_iff_getElem?.mp hc
    apply cycleDefect?_eq_none_iff
    · intro d hd
      obtain ⟨j, hj⟩ := Array.mem_iff_getElem?.mp hd
      exact (hclasses j d hj).superClass
    · rw [(hclasses i c hi).place, hi]
  constructor
  · rintro ⟨⟨hstarted, hentries⟩, hclasses, hrooted, hfields, hvars, hmethods⟩
    exact ⟨hstarted, hentries, hclasses, fun c hc => (hchains hclasses hc).mp (hrooted c hc),
      hfields, hvars, hmethods⟩
  · rintro ⟨hstarted, hentries, hclasses, hrooted, hfields, hvars, hmethods⟩
    exact ⟨⟨hstarted, hentries⟩, hclasses, fun c hc => (hchains hclasses hc).mpr (hrooted c hc),
      hfields, hvars, hmethods⟩

instance : Decidable listing.WellFormed := decidable_of_iff _ defect?_eq_none_iff

end Listing

open Iteration (Ends)

theorem Program.exists_ofListing_iff {listing : Listing} :
    (∃ program, ofListing listing = .ok program ∧ program.listing = listing) ↔
      listing.defect? = none := by
  unfold ofListing
  split
  · next defect hdefect => exact iff_of_false nofun (by simp [hdefect])
  · next hnone => exact iff_of_true ⟨_, rfl, rfl⟩ hnone

/-- A listing becomes a program exactly when it is well formed.  The walk up a chain of
superclasses ends for every class; it refuses each class whose chain gets into a cycle, and no
class of the table with a chain that is free of cycles. -/
theorem Program.accepts_iff_wellFormed (listing : Listing) :
    ((∃ program, ofListing listing = .ok program ∧ program.listing = listing) ↔
      listing.WellFormed) ∧
    (∀ c : Class, ∃ count final, Ends (listing.climb c.id) (c.superClass, 0) count final ∧
      (listing.cycleDefect? c = none ↔ final.1 = none)) ∧
    (∀ c : Class, listing.Circular c → listing.cycleDefect? c = some (.cyclicParents c.name)) ∧
    (∀ c : Class, listing.classes[c.id.index]? = some c → ¬ listing.Circular c →
      listing.cycleDefect? c = none) := by
  refine ⟨exists_ofListing_iff.trans Listing.defect?_eq_none_iff, fun c => ?_,
    fun c => Listing.cycleDefect?_of_circular, fun c => Listing.cycleDefect?_of_not_circular⟩
  obtain ⟨count, final, hends, hfinal, -⟩ := Listing.exists_ends_climb listing c
  exact ⟨count, final, hends, hfinal⟩

/-- A class `Leaf` below a cycle of two classes. -/
def Listing.spur : Listing where
  classes := #[⟨⟨0⟩, "Leaf", some ⟨1⟩, [], false, false, []⟩,
    ⟨⟨1⟩, "Left", some ⟨2⟩, [], false, false, []⟩, ⟨⟨2⟩, "Right", some ⟨1⟩, [], false, false, []⟩]
  methods := #[⟨⟨0⟩, "main", ⟨0⟩, "main()", true, false, none, [], #[]⟩]
  entries := [⟨0⟩]

/-- The chain of `Leaf` never comes back to `Leaf`, and `Leaf` is refused. -/
theorem Listing.spur_refused :
    let leaf : Class := ⟨⟨0⟩, "Leaf", some ⟨1⟩, [], false, false, []⟩
    spur.Circular leaf ∧ spur.cycleDefect? leaf = some (.cyclicParents "Leaf") := by
  intro leaf
  let left : Class := ⟨⟨1⟩, "Left", some ⟨2⟩, [], false, false, []⟩
  let right : Class := ⟨⟨2⟩, "Right", some ⟨1⟩, [], false, false, []⟩
  have hleaf : spur.Extends leaf left := ⟨⟨1⟩, rfl, rfl⟩
  have hleft : spur.Extends left right := ⟨⟨2⟩, rfl, rfl⟩
  have hright : spur.Extends right left := ⟨⟨1⟩, rfl, rfl⟩
  have hcircular : spur.Circular leaf := ⟨left, .single hleaf, .tail (.single hleft) hright⟩
  exact ⟨hcircular, (Program.accepts_iff_wellFormed spur).2.2.1 leaf hcircular⟩

example : ¬ Listing.spur.WellFormed := by decide

end ObjectFlow
