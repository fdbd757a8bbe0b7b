import ObjectFlow.Program.Basic
import ObjectFlow.Proofs.Interner
import ObjectFlow.Proofs.Program.WellFormed

/-!
# The tables of a program

A listing without defects has its entries at their own positions, and every handle in
it names an entry.  So a program can be read without faults: every look-up that starts
from an entry method, or from a handle found in the tables, gives an entry.
-/

namespace ObjectFlow

namespace Method

theorem mem_sites_iff {method : Method} {site : Site} {stmt : Stmt} :
    (site, stmt) ∈ method.sites ↔
      site.method = method.id ∧ method.stmts[site.index]? = some stmt := by
  obtain ⟨id, index⟩ := site
  simp only [sites, List.mem_map, Prod.exists, Prod.mk.injEq, Site.mk.injEq,
    List.mem_zipIdx_iff_getElem?, Array.getElem?_toList]
  constructor
  · rintro ⟨found, position, hstmt, ⟨rfl, rfl⟩, rfl⟩
    exact ⟨rfl, hstmt⟩
  · rintro ⟨rfl, hstmt⟩
    exact ⟨stmt, index, hstmt, ⟨rfl, rfl⟩, rfl⟩

end Method

namespace Listing

variable {listing : Listing}

/-- Entries stand at their own positions, and handles name entries. -/
structure InRange (listing : Listing) : Prop where
  entry : ∀ entry ∈ listing.entries, entry.index < listing.methods.size
  class_id : ∀ {i : Nat} {c : Class}, listing.classes[i]? = some c → c.id.index = i
  parent : ∀ {i : Nat} {c : Class}, listing.classes[i]? = some c →
    ∀ parent ∈ c.superClass.toList ++ c.interfaces, parent.index < listing.classes.size
  method_id : ∀ {i : Nat} {m : Method}, listing.methods[i]? = some m → m.id.index = i
  method_class : ∀ {i : Nat} {m : Method}, listing.methods[i]? = some m →
    m.declaringClass.index < listing.classes.size
  method_local : ∀ {i : Nat} {m : Method}, listing.methods[i]? = some m →
    ∀ v ∈ m.this.toList ++ m.params, v.index < listing.vars.size
  var_type : ∀ {i : Nat} {v : Var}, listing.vars[i]? = some v →
    listing.hasType v.type = true
  operand : ∀ {i j : Nat} {m : Method} {stmt : Stmt}, listing.methods[i]? = some m →
    m.stmts[j]? = some stmt →
      ∀ v ∈ stmt.uses ++ stmt.writes?.toList, v.index < listing.vars.size
  statement : ∀ {i j : Nat} {m : Method} {stmt : Stmt}, listing.methods[i]? = some m →
    m.stmts[j]? = some stmt → listing.operandDefect? m.stmts.size stmt = none

/-- A listing without defects is in range. -/
theorem inRange_of_defect? (h : listing.defect? = none) : listing.InRange := by
  obtain ⟨-, hentries, hclasses, -, -, hvars, hmethods⟩ := defect?_eq_none_iff.mp h
  have hstmts : ∀ {i j : Nat} {m : Method} {stmt : Stmt}, listing.methods[i]? = some m →
      m.stmts[j]? = some stmt → listing.stmtDefect? m.stmts.size stmt = none := by
    intro i j m stmt hm hstmt
    exact stmtDefect?_eq_none_iff.mpr ((hmethods i m hm).stmts stmt (Array.mem_of_getElem? hstmt))
  exact {
    entry := hentries
    class_id := fun hc => (hclasses _ _ hc).place
    parent := fun hc => by
      simpa only [List.forall_mem_append, Option.mem_toList] using
        ⟨(hclasses _ _ hc).superClass, (hclasses _ _ hc).interfaces⟩
    method_id := fun hm => (hmethods _ _ hm).place
    method_class := fun hm => (hmethods _ _ hm).declaringClass
    method_local := fun hm => by
      simpa only [List.forall_mem_append, Option.mem_toList] using
        ⟨(hmethods _ _ hm).this, (hmethods _ _ hm).params⟩
    var_type := fun hv => hasType_iff.mpr (hvars _ _ hv).type
    operand := fun hm hstmt => (stmtDefect?_eq_none_iff_and.mp (hstmts hm hstmt)).1
    statement := fun hm hstmt => (stmtDefect?_eq_none_iff_and.mp (hstmts hm hstmt)).2 }

end Listing

namespace Program

variable {program : Program}

theorem inRange (program : Program) : program.listing.InRange :=
  Listing.inRange_of_defect? program.sound

theorem getClass_eq_ok_iff {id : ClassId} {c : Class} :
    program.getClass id = .ok c ↔ program.listing.classes[id.index]? = some c :=
  Handle.lookup_eq_ok_iff

theorem exists_getClass {id : ClassId} (hlt : id.index < program.listing.classes.size) :
    ∃ c, program.getClass id = .ok c := by
  obtain ⟨c, hlookup, -⟩ := Handle.exists_lookup hlt
  exact ⟨c, hlookup⟩

theorem id_of_getClass {id : ClassId} {c : Class} (h : program.getClass id = .ok c) : c.id = id :=
  Handle.ext (program.inRange.class_id (getClass_eq_ok_iff.mp h))

theorem lt_of_getClass {id : ClassId} {c : Class} (h : program.getClass id = .ok c) :
    id.index < program.listing.classes.size :=
  (Array.getElem?_eq_some_iff.mp (getClass_eq_ok_iff.mp h)).1

/-- The table of classes holds the classes under their own handles. -/
theorem mem_classes_iff {c : Class} :
    c ∈ program.listing.classes.toList ↔ program.getClass c.id = .ok c := by
  rw [getClass_eq_ok_iff, Array.mem_toList_iff, Array.mem_iff_getElem?]
  constructor
  · rintro ⟨i, hi⟩
    rw [program.inRange.class_id hi, hi]
  · exact fun h => ⟨_, h⟩

theorem getMethod_eq_ok_iff {id : MethodId} {method : Method} :
    program.getMethod id = .ok method ↔ program.listing.methods[id.index]? = some method :=
  Handle.lookup_eq_ok_iff

theorem exists_getMethod {id : MethodId} (hlt : id.index < program.listing.methods.size) :
    ∃ method, program.getMethod id = .ok method := by
  obtain ⟨method, hlookup, -⟩ := Handle.exists_lookup hlt
  exact ⟨method, hlookup⟩

theorem id_of_getMethod {id : MethodId} {method : Method}
    (h : program.getMethod id = .ok method) : method.id = id :=
  Handle.ext (program.inRange.method_id (getMethod_eq_ok_iff.mp h))

theorem lt_of_getMethod {id : MethodId} {method : Method}
    (h : program.getMethod id = .ok method) : id.index < program.listing.methods.size :=
  (Array.getElem?_eq_some_iff.mp (getMethod_eq_ok_iff.mp h)).1

/-- The table of methods holds the methods under their own handles. -/
theorem mem_methods_iff {method : Method} :
    method ∈ program.listing.methods.toList ↔ program.getMethod method.id = .ok method := by
  rw [getMethod_eq_ok_iff, Array.mem_toList_iff, Array.mem_iff_getElem?]
  constructor
  · rintro ⟨i, hi⟩
    rw [program.inRange.method_id hi, hi]
  · exact fun h => ⟨_, h⟩

theorem getStmt_eq_ok_iff {site : Site} {stmt : Stmt} :
    program.getStmt site = .ok stmt ↔
      ∃ method, program.getMethod site.method = .ok method ∧
        method.stmts[site.index]? = some stmt := by
  unfold getStmt
  cases hmethod : program.getMethod site.method with
  | error fault => simp [bind, Except.bind]
  | ok method =>
    cases hstmt : method.stmts[site.index]? with
    | none => simp [bind, Except.bind, hstmt]
    | some found => simp [bind, Except.bind, hstmt]

/-- The statements of a method are those of the program at the sites of the method. -/
theorem mem_sites_iff {id : MethodId} {method : Method}
    (hmethod : program.getMethod id = .ok method) {site : Site} {stmt : Stmt} :
    (site, stmt) ∈ method.sites ↔ site.method = id ∧ program.getStmt site = .ok stmt := by
  rw [Method.mem_sites_iff, id_of_getMethod hmethod, getStmt_eq_ok_iff]
  constructor
  · rintro ⟨rfl, hstmt⟩
    exact ⟨rfl, method, hmethod, hstmt⟩
  · rintro ⟨rfl, found, hfound, hstmt⟩
    rw [hmethod] at hfound
    cases hfound
    exact ⟨rfl, hstmt⟩

theorem mem_listing_sites_iff {site : Site} {stmt : Stmt} :
    (site, stmt) ∈ program.listing.sites ↔ program.getStmt site = .ok stmt := by
  rw [Listing.sites, List.mem_flatMap]
  constructor
  · rintro ⟨method, hmem, hsite⟩
    exact ((mem_sites_iff (mem_methods_iff.mp hmem)).mp hsite).2
  · intro hstmt
    obtain ⟨method, hmethod, -⟩ := getStmt_eq_ok_iff.mp hstmt
    refine ⟨method, mem_methods_iff.mpr ?_, (mem_sites_iff hmethod).mpr ⟨rfl, hstmt⟩⟩
    exact (id_of_getMethod hmethod).symm ▸ hmethod

theorem var_lt_of_getStmt {site : Site} {stmt : Stmt} (h : program.getStmt site = .ok stmt)
    {v : VarId} (hv : v ∈ stmt.uses ++ stmt.writes?.toList) :
    v.index < program.listing.vars.size := by
  obtain ⟨method, hmethod, hstmt⟩ := getStmt_eq_ok_iff.mp h
  exact program.inRange.operand (getMethod_eq_ok_iff.mp hmethod) hstmt v hv

theorem method_lt_of_getStmt {site : Site} {stmt : Stmt} (h : program.getStmt site = .ok stmt) :
    site.method.index < program.listing.methods.size := by
  obtain ⟨method, hmethod, -⟩ := getStmt_eq_ok_iff.mp h
  exact lt_of_getMethod hmethod

theorem operandDefect?_of_getStmt {site : Site} {stmt : Stmt}
    (h : program.getStmt site = .ok stmt) :
    ∃ length, program.listing.operandDefect? length stmt = none := by
  obtain ⟨method, hmethod, hstmt⟩ := getStmt_eq_ok_iff.mp h
  exact ⟨_, program.inRange.statement (getMethod_eq_ok_iff.mp hmethod) hstmt⟩

/-- The class that a call names is in the table, and a call that is not static has a
receiver. -/
theorem call_of_getStmt {site : Site} {call : Call}
    (h : program.getStmt site = .ok (.invoke call)) :
    call.target.declaringClass.index < program.listing.classes.size ∧
      (call.isStatic = true ∨ ∃ base, call.base = some base) := by
  obtain ⟨length, hnone⟩ := operandDefect?_of_getStmt h
  simp only [Listing.operandDefect?] at hnone
  split at hnone
  · cases hnone
  next hclass =>
    refine ⟨by simpa [Listing.hasClass] using hclass, ?_⟩
    split at hnone
    · cases hnone
    next hreceiver =>
      cases hbase : call.base with
      | none => exact .inl (by simpa [hbase] using hreceiver)
      | some base => exact .inr ⟨base, rfl⟩

theorem hasType_of_alloc {site : Site} {lhs : VarId} {type : Ty}
    (h : program.getStmt site = .ok (.alloc lhs type)) : program.listing.hasType type = true := by
  obtain ⟨length, hnone⟩ := operandDefect?_of_getStmt h
  simpa [Listing.operandDefect?] using hnone

/-- Whether a variable holds a number of at most 32 bits. -/
def holdsInt (program : Program) (v : VarId) : Bool :=
  program.listing.vars[v.index]?.any fun var => var.type.holdsInt

end Program

end ObjectFlow
