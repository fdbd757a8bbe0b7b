import ObjectFlow.Program.Edit
import ObjectFlow.Proofs.Outcome

/-!
# Statements under edits

A statement keeps its position while a listing is edited.  It stays as it was written, except
that a jump or a two-way branch goes to the last of the targets that were set for it.
-/

namespace ObjectFlow

namespace Stmt

/-- A jump or a two-way branch with the last of the targets, or with its own when there are none.
Other statements stay as they are. -/
def aimed (targets : List Nat) : Stmt → Stmt
  | branch condition target => branch condition (targets.getLastD target)
  | jump target => jump (targets.getLastD target)
  | stmt => stmt

/-- The statement goes to the target, if it is a jump or a two-way branch. -/
def GoesTo (target : Nat) : Stmt → Prop
  | branch _ own => own = target
  | jump own => own = target
  | _ => True

variable {stmt : Stmt} {target : Nat}

@[simp]
theorem aimed_nil (stmt : Stmt) : stmt.aimed [] = stmt := by
  cases stmt <;> rfl

theorem aimed_append (stmt : Stmt) (first second : List Nat) :
    (stmt.aimed first).aimed second = stmt.aimed (first ++ second) := by
  cases stmt <;> simp [aimed]

theorem retarget_eq_aimed (stmt : Stmt) (target : Nat) :
    stmt.retarget target = stmt.aimed [target] := by
  cases stmt <;> rfl

theorem goesTo_retarget (stmt : Stmt) (target : Nat) : (stmt.retarget target).GoesTo target := by
  cases stmt <;> trivial

/-- The last target counts. -/
theorem GoesTo.aimed (h : stmt.GoesTo target) (targets : List Nat) :
    (stmt.aimed targets).GoesTo (targets.getLastD target) := by
  cases stmt with
  | branch condition own =>
    cases h
    rfl
  | jump own =>
    cases h
    rfl
  | _ => trivial

end Stmt

namespace Listing

variable {listing next : Listing} {site : Site} {stmt : Stmt}

/-- The statement at a site. -/
def stmt? (listing : Listing) (site : Site) : Option Stmt :=
  listing.methods[site.method.index]?.bind fun method => method.stmts[site.index]?

theorem stmt?_pushMethod {method : Method} (hmethods : next.methods = listing.methods.push method)
    (h : listing.stmt? site = some stmt) : next.stmt? site = some stmt := by
  obtain ⟨found, hfound, hstmt⟩ := Option.bind_eq_some_iff.mp h
  have hlt : site.method.index < listing.methods.size :=
    (Array.getElem?_eq_some_iff.mp hfound).1
  rw [stmt?, hmethods, Array.getElem?_push, if_neg (Nat.ne_of_lt hlt), hfound]
  exact hstmt

theorem exists_methods_addMethod {form : MethodForm} {declaringClass : ClassId}
    {name subsignature : String}
    (h : listing.addMethod form declaringClass name subsignature = .ok next) :
    ∃ method, next.methods = listing.methods.push method := by
  obtain ⟨declared, hclass, hnext⟩ := bind_eq_ok_iff.mp h
  obtain ⟨classes, -, hdeclared⟩ := bind_eq_ok_iff.mp hclass
  cases hdeclared
  cases hnext
  split <;> exact ⟨_, rfl⟩

theorem stmt?_modify_self {id : MethodId} {change : Method → Method} {method : Method}
    (hmethod : listing.methods[id.index]? = some method) (index : Nat) :
    stmt? { listing with methods := listing.methods.modify id.index change } ⟨id, index⟩ =
      (change method).stmts[index]? := by
  rw [stmt?, Array.getElem?_modify, if_pos rfl, hmethod]
  rfl

/-- A statement after a change to one method. -/
theorem stmt?_editMethod {id : MethodId} {change : Method → Method} {later : Stmt}
    (hedit : listing.editMethod id change = .ok next) (h : listing.stmt? site = some stmt)
    (hself : ∀ method : Method, id = site.method → method.stmts[site.index]? = some stmt →
      (change method).stmts[site.index]? = some later)
    (hother : id ≠ site.method → later = stmt) : next.stmt? site = some later := by
  obtain ⟨methods, hmethods, hnext⟩ := bind_eq_ok_iff.mp hedit
  obtain ⟨_, -, hmodified⟩ := bind_eq_ok_iff.mp hmethods
  cases hnext
  cases hmodified
  obtain ⟨found, hfound, hstmt⟩ := Option.bind_eq_some_iff.mp h
  by_cases hid : id = site.method
  · subst hid
    rw [stmt?_modify_self hfound site.index]
    exact hself found rfl hstmt
  · have hindex : id.index ≠ site.method.index := fun heq => hid (Handle.ext heq)
    rw [stmt?, Array.getElem?_modify, if_neg hindex, hfound, hother hid]
    exact hstmt

/-- Setting a target changes the statement at one site. -/
theorem stmt?_setTarget {aim : Site} {target : Nat} (h : listing.setTarget aim target = .ok next)
    (hstmt : listing.stmt? site = some stmt) :
    next.stmt? site = some (if site = aim then stmt.retarget target else stmt) := by
  obtain ⟨owner, position⟩ := site
  obtain ⟨id, index⟩ := aim
  obtain ⟨found, -, hnext⟩ := bind_eq_ok_iff.mp h
  split at hnext
  · refine stmt?_editMethod hnext hstmt ?_ ?_
    · rintro method rfl hmethod
      rw [Array.getElem?_modify, hmethod]
      by_cases hindex : position = index
      · simp [hindex]
      · have hother : index ≠ position := fun heq => hindex heq.symm
        simp [hindex, hother]
    · intro hother
      rw [if_neg]
      rintro ⟨⟩
      exact hother rfl
  · cases hnext

end Listing

namespace Edit

/-- The target that an edit sets for the statement at a site. -/
def targetFor? (site : Site) : Edit → Option Nat
  | editBody method (.setTarget index target) =>
    if site = ⟨method, index⟩ then some target else none
  | _ => none

/-- The targets that edits set for the statement at a site, in the order of the edits. -/
def targetsFor (site : Site) (edits : List Edit) : List Nat := edits.filterMap (targetFor? site)

theorem targetsFor_cons (site : Site) (edit : Edit) (edits : List Edit) :
    targetsFor site (edit :: edits) = (edit.targetFor? site).toList ++ targetsFor site edits := by
  cases hset : edit.targetFor? site <;> simp [targetsFor, hset]

variable {listing next final : Listing} {site : Site} {stmt : Stmt}

/-- An edit leaves the statements that are there, except that it may set the target of one. -/
theorem stmt?_apply {edit : Edit} (h : edit.apply listing = .ok next)
    (hstmt : listing.stmt? site = some stmt) :
    next.stmt? site = some (stmt.aimed (edit.targetFor? site).toList) := by
  have hkept (hnone : edit.targetFor? site = none) (hsame : next.stmt? site = some stmt) :
      next.stmt? site = some (stmt.aimed (edit.targetFor? site).toList) := by
    rw [hnone, hsame, Option.toList_none, Stmt.aimed_nil]
  cases edit with
  | addClass name superClass | addAbstractClass name superClass | addInterface name interfaces
  | addField declaringClass name type isStatic =>
    cases h
    exact hkept rfl hstmt
  | implement id interface =>
    obtain ⟨classes, -, hnext⟩ := bind_eq_ok_iff.mp h
    cases hnext
    exact hkept rfl hstmt
  | addMethod form declaringClass name subsignature =>
    obtain ⟨method, hmethods⟩ := Listing.exists_methods_addMethod h
    exact hkept rfl (Listing.stmt?_pushMethod hmethods hstmt)
  | addEntry method =>
    cases h
    apply hkept rfl
    unfold Listing.addEntry
    split <;> exact hstmt
  | editBody method body =>
    cases body with
    | addVar name type =>
      cases h
      exact hkept rfl hstmt
    | addParam name type =>
      have hvar : (listing.addVar method name type).stmt? site = some stmt := hstmt
      apply hkept rfl
      exact Listing.stmt?_editMethod h hvar (fun _ _ hfound => hfound) fun _ => rfl
    | addStmt new =>
      apply hkept rfl
      refine Listing.stmt?_editMethod h hstmt ?_ fun _ => rfl
      intro found _ hfound
      have hlt : site.index < found.stmts.size := (Array.getElem?_eq_some_iff.mp hfound).1
      rw [Array.getElem?_push, if_neg (Nat.ne_of_lt hlt), hfound]
    | setTarget index target =>
      rw [Listing.stmt?_setTarget h hstmt, targetFor?]
      split
      · rw [Stmt.retarget_eq_aimed, Option.toList_some]
      · rw [Option.toList_none, Stmt.aimed_nil]

/-- After edits a statement is at its site as it was, sent to the last target that was set for
it. -/
theorem stmt?_applyAll {edits : List Edit} (h : applyAll listing edits = .ok final)
    (hstmt : listing.stmt? site = some stmt) :
    final.stmt? site = some (stmt.aimed (targetsFor site edits)) := by
  induction edits generalizing listing stmt with
  | nil =>
    cases h
    simpa [targetsFor] using hstmt
  | cons edit edits ih =>
    obtain ⟨next, hnext, hrest⟩ := bind_eq_ok_iff.mp h
    have hafter := stmt?_apply hnext hstmt
    rw [ih hrest hafter, Stmt.aimed_append, targetsFor_cons]

end Edit

end ObjectFlow
