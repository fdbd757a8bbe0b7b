import ObjectFlow.Proofs.Program.Items
import ObjectFlow.Proofs.Program.Subtypes

/-!
# What the index knows

Nothing looks at the statements of a program again once it is indexed, so the index has to know
all of them.  A list of sites in the index is told by two facts: its sites ascend, and they are
those of the statements that a scan of the whole program looks for.  A list of classes is told by
its order and by how often every class stands in it.
-/

namespace ObjectFlow

/-- A statement goes through a variable in one of the five ways. -/
inductive Stmt.Through (v : VarId) : Route → Stmt → Prop where
  | loadField (lhs : VarId) (field : FieldId) : Through v .loadField (.loadField lhs (some v) field)
  | storeField (field : FieldId) (rhs : VarId) :
    Through v .storeField (.storeField (some v) field rhs)
  | loadArray (lhs index : VarId) : Through v .loadArray (.loadArray lhs v index)
  | storeArray (index rhs : VarId) : Through v .storeArray (.storeArray v index rhs)
  | invoke {call : Call} (hbase : call.base = some v) : Through v .invoke (.invoke call)

theorem Stmt.route?_eq_some_iff {stmt : Stmt} {v : VarId} {route : Route} :
    stmt.route? = some (v, route) ↔ stmt.Through v route := by
  constructor
  · intro h
    cases stmt with
    | loadField lhs base field =>
      cases base with
      | none => cases h
      | some base =>
        cases h
        exact .loadField lhs field
    | storeField base field rhs =>
      cases base with
      | none => cases h
      | some base =>
        cases h
        exact .storeField field rhs
    | loadArray lhs base index =>
      cases h
      exact .loadArray lhs index
    | storeArray base index rhs =>
      cases h
      exact .storeArray index rhs
    | invoke call =>
      obtain ⟨base, hbase, hroute⟩ := Option.map_eq_some_iff.mp h
      cases hroute
      exact .invoke hbase
    | _ => cases h
  · intro h
    cases h with
    | invoke hbase => simp [Stmt.route?, hbase]
    | _ => rfl

namespace Program

variable {program : Program}

/-! ### Lists of sites -/

/-- A list holds the sites of the wanted statements of the whole program, in ascending order and
each once. -/
structure Scans (program : Program) (wanted : Stmt → Prop) (sites : List Site) : Prop where
  ascending : sites.Pairwise (· < ·)
  mem_iff : ∀ site, site ∈ sites ↔ ∃ stmt, program.getStmt site = .ok stmt ∧ wanted stmt

theorem pairwise_method_sites (method : Method) :
    method.sites.Pairwise fun a b => a.1 < b.1 := by
  have hpositions : method.stmts.toList.zipIdx.Pairwise fun a b => a.2 < b.2 := by
    rw [← List.pairwise_map, List.zipIdx_map_snd]
    exact List.pairwise_lt_range'
  exact List.pairwise_map.mpr (hpositions.imp fun hlt => .inr ⟨rfl, hlt⟩)

/-- The statements of a program are listed in the order of their sites. -/
theorem pairwise_sites (program : Program) :
    program.listing.sites.Pairwise fun a b => a.1 < b.1 := by
  unfold Listing.sites
  rw [List.pairwise_flatMap]
  refine ⟨fun method _ => pairwise_method_sites method, ?_⟩
  refine program.pairwise_methods.imp fun {a b} hlt item hitem other hother => ?_
  have hfirst : item.1.method = a.id := (Method.mem_sites_iff.mp hitem).1
  have hsecond : other.1.method = b.id := (Method.mem_sites_iff.mp hother).1
  exact .inl (hfirst ▸ hsecond ▸ hlt)

theorem scans_filter {p : Stmt → Bool} {wanted : Stmt → Prop}
    (hwanted : ∀ stmt, p stmt = true ↔ wanted stmt) :
    program.Scans wanted ((program.listing.sites.filter fun item => p item.2).map Prod.fst) where
  ascending := List.pairwise_map.mpr (program.pairwise_sites.filter _)
  mem_iff site := by simp only [mem_sites_filter_iff, hwanted]

theorem scans_uses (program : Program) (v : VarId) (route : Route) :
    program.Scans (Stmt.Through v route) ((program.uses v).along route) := by
  rw [uses_along]
  exact scans_filter (p := fun stmt => stmt.route? = some (v, route)) fun stmt => by
    simp [Stmt.route?_eq_some_iff]

/-- The static field that a statement accesses is in the table. -/
theorem field_lt_of_static {site : Site} {stmt : Stmt} {field : FieldId}
    (h : program.getStmt site = .ok stmt)
    (hfield : stmt.staticLoad? = some field ∨ stmt.staticStore? = some field) :
    field.index < program.listing.fields.size := by
  obtain ⟨length, hnone⟩ := operandDefect?_of_getStmt h
  have hnamed : .field field ∈ stmt.operands := by
    cases stmt with
    | loadField lhs base found =>
      cases base <;> simp_all [Stmt.staticLoad?, Stmt.staticStore?, Stmt.operands]
    | storeField base found rhs =>
      cases base <;> simp_all [Stmt.staticLoad?, Stmt.staticStore?, Stmt.operands]
    | _ => simp [Stmt.staticLoad?, Stmt.staticStore?] at hfield
  exact (Stmt.operandDefect?_eq_none_iff.mp hnone).1 _ hnamed

/-- A list of static accesses knows them all: a field without a row is accessed nowhere. -/
theorem scans_static {accessed? : Stmt → Option FieldId} {wanted : Stmt → Prop} {field : FieldId}
    (hwanted : ∀ stmt, accessed? stmt = some field ↔ wanted stmt)
    (hknown : ∀ stmt, accessed? stmt = some field →
      stmt.staticLoad? = some field ∨ stmt.staticStore? = some field) :
    program.Scans wanted
      (if field.index < program.listing.fields.size then
        (program.listing.sites.filter fun item => accessed? item.2 = some field).map Prod.fst
      else []) := by
  split
  · exact scans_filter (p := fun stmt => accessed? stmt = some field) fun stmt => by
      simp [hwanted]
  next hlt =>
    refine ⟨List.Pairwise.nil, fun site => ?_⟩
    simp only [List.not_mem_nil, false_iff]
    rintro ⟨stmt, hstmt, hfound⟩
    exact hlt (field_lt_of_static hstmt (hknown stmt ((hwanted stmt).mpr hfound)))

theorem scans_staticLoads (program : Program) (field : FieldId) :
    program.Scans (fun stmt => ∃ lhs, stmt = .loadField lhs none field)
      (program.staticLoads field) := by
  rw [staticLoads_eq]
  refine scans_static (fun stmt => ?_) fun _ => .inl
  cases stmt with
  | loadField lhs base found => cases base <;> simp [Stmt.staticLoad?]
  | _ => simp [Stmt.staticLoad?]

theorem scans_staticStores (program : Program) (field : FieldId) :
    program.Scans (fun stmt => ∃ rhs, stmt = .storeField none field rhs)
      (program.staticStores field) := by
  rw [staticStores_eq]
  refine scans_static (fun stmt => ?_) fun _ => .inr
  cases stmt with
  | storeField base found rhs => cases base <;> simp [Stmt.staticStore?]
  | _ => simp [Stmt.staticStore?]

/-! ### Lists of classes -/

/-- A list holds every class of the program as often as the class says, in ascending order. -/
structure Tallies (program : Program) (times : Class → Nat) (ids : List ClassId) : Prop where
  ordered : ids.Pairwise (· ≤ ·)
  known : ∀ id ∈ ids, ∃ c, program.getClass id = .ok c
  count_eq : ∀ id c, program.getClass id = .ok c → ids.count id = times c

/-- The children in the links from one parent are told class by class. -/
theorem tallies_links {links : Class → List (ClassId × ClassId)} {times : Class → Nat}
    {parent : ClassId}
    (hlinks : ∀ c, ((links c).filter fun link => link.1 = parent).map Prod.snd =
      List.replicate (times c) c.id) :
    program.Tallies times
      (((program.listing.classes.toList.flatMap links).filter fun link => link.1 = parent).map
        Prod.snd) := by
  -- Each class leaves one block of the row, so that the order of the classes is that of the row.
  have hrow : ((program.listing.classes.toList.flatMap links).filter
      fun link => link.1 = parent).map Prod.snd =
        program.listing.classes.toList.flatMap fun c => List.replicate (times c) c.id := by
    simp only [List.filter_flatMap, List.map_flatMap, hlinks]
  rw [hrow]
  refine ⟨?_, ?_, ?_⟩
  · rw [List.pairwise_flatMap]
    constructor
    · exact fun c _ => List.pairwise_replicate.mpr (.inr (Nat.le_refl _))
    · refine program.pairwise_classes.imp fun hlt id hid other hother => ?_
      rw [(List.mem_replicate.mp hid).2, (List.mem_replicate.mp hother).2]
      exact Nat.le_of_lt hlt
  · intro id hid
    obtain ⟨c, hc, hid⟩ := List.mem_flatMap.mp hid
    obtain rfl := (List.mem_replicate.mp hid).2
    exact ⟨c, mem_classes_iff.mp hc⟩
  · intro id c hc
    obtain rfl := id_of_getClass hc
    have hdistinct : program.listing.classes.toList.Pairwise fun a b => a.id ≠ b.id :=
      program.pairwise_classes.imp fun hlt heq => absurd (heq ▸ hlt) (Nat.lt_irrefl _)
    have hown : ((program.listing.classes.toList.flatMap fun c =>
        List.replicate (times c) c.id).filter fun id => id = c.id) =
          List.replicate (times c) c.id :=
      filter_flatMap_owner hdistinct (fun _ _ hid => (List.mem_replicate.mp hid).2)
        (mem_classes_iff.mpr hc)
    calc (program.listing.classes.toList.flatMap fun c =>
          List.replicate (times c) c.id).count c.id
      _ = ((program.listing.classes.toList.flatMap fun c =>
            List.replicate (times c) c.id).filter fun id => id = c.id).length :=
          List.count_eq_length_filter
      _ = times c := by rw [hown, List.length_replicate]

/-- A child stands below a parent as often as it names the parent. -/
theorem children_eq (parents : List ClassId) (child parent : ClassId) :
    ((parents.map (·, child)).filter fun link => link.1 = parent).map Prod.snd =
      List.replicate (parents.count parent) child := by
  rw [List.filter_map, List.map_map, List.count_eq_length_filter]
  exact List.map_const'

theorem tallies_subclasses (program : Program) (parent : ClassId) :
    program.Tallies (fun c => if c.superClass = some parent then 1 else 0)
      (program.subclasses parent) := by
  rw [subclasses_eq]
  refine tallies_links fun c => ?_
  rw [Class.superLinks, children_eq]
  congr 1
  cases c.superClass <;> simp [List.count_singleton]

theorem tallies_subinterfaces (program : Program) (parent : ClassId) :
    program.Tallies (fun c => if c.isInterface then c.interfaces.count parent else 0)
      (program.subinterfaces parent) := by
  rw [subinterfaces_eq]
  refine tallies_links fun c => ?_
  rw [Class.subinterfaceLinks]
  split
  · exact children_eq _ _ _
  · rfl

theorem tallies_implementors (program : Program) (parent : ClassId) :
    program.Tallies (fun c => if c.isInterface then 0 else c.interfaces.count parent)
      (program.implementors parent) := by
  rw [implementors_eq]
  refine tallies_links fun c => ?_
  rw [Class.implementorLinks]
  split
  · rfl
  · exact children_eq _ _ _

/-! ### The index as a whole -/

/-- A class finds no method with a subsignature just when it declares none. -/
theorem declared?_eq_none_iff {id : ClassId} {subsignature : String} :
    program.declared? id subsignature = none ↔
      ∀ other method, program.getMethod other = .ok method → method.declaringClass = id →
        method.subsignature ≠ subsignature := by
  rw [Option.eq_none_iff_forall_ne_some]
  constructor
  · rintro hnone other method hmethod rfl rfl
    obtain ⟨found, hfound⟩ := exists_declared? hmethod
    exact hnone found hfound
  · intro hnone found hfound
    obtain ⟨method, hmethod, hclass, hsubsignature⟩ := getMethod_of_declared? hfound
    exact hnone found method hmethod hclass hsubsignature

/-- What the index of a program answers, told by the program without it. -/
structure Indexed (program : Program) : Prop where
  loadFields : ∀ v, program.Scans (Stmt.Through v .loadField) (program.uses v).loadFields
  storeFields : ∀ v, program.Scans (Stmt.Through v .storeField) (program.uses v).storeFields
  loadArrays : ∀ v, program.Scans (Stmt.Through v .loadArray) (program.uses v).loadArrays
  storeArrays : ∀ v, program.Scans (Stmt.Through v .storeArray) (program.uses v).storeArrays
  invokes : ∀ v, program.Scans (Stmt.Through v .invoke) (program.uses v).invokes
  staticLoads : ∀ field, program.Scans (fun stmt => ∃ lhs, stmt = .loadField lhs none field)
    (program.staticLoads field)
  staticStores : ∀ field, program.Scans (fun stmt => ∃ rhs, stmt = .storeField none field rhs)
    (program.staticStores field)
  /-- The first occurrence of a variable counts, and a handle of no method stays a fault. -/
  returnVars : ∀ id, program.returnVars id = (program.getMethod id).map fun method =>
    (method.stmts.toList.filterMap Stmt.returned?).eraseDups
  subclasses : ∀ id, program.Tallies (fun c => if c.superClass = some id then 1 else 0)
    (program.subclasses id)
  subinterfaces : ∀ id, program.Tallies
    (fun c => if c.isInterface then c.interfaces.count id else 0) (program.subinterfaces id)
  implementors : ∀ id, program.Tallies
    (fun c => if c.isInterface then 0 else c.interfaces.count id) (program.implementors id)
  declared : ∀ id subsignature found, program.declared? id subsignature = some found ↔
    program.Declares id subsignature found
  undeclared : ∀ id subsignature, program.declared? id subsignature = none ↔
    ∀ other method, program.getMethod other = .ok method → method.declaringClass = id →
      method.subsignature ≠ subsignature

/-- The index answers every question as a scan of the whole program does. -/
theorem index_scans (program : Program) : program.Indexed where
  loadFields v := program.scans_uses v .loadField
  storeFields v := program.scans_uses v .storeField
  loadArrays v := program.scans_uses v .loadArray
  storeArrays v := program.scans_uses v .storeArray
  invokes v := program.scans_uses v .invoke
  staticLoads := program.scans_staticLoads
  staticStores := program.scans_staticStores
  returnVars := program.returnVars_eq
  subclasses := program.tallies_subclasses
  subinterfaces := program.tallies_subinterfaces
  implementors := program.tallies_implementors
  declared _ _ _ := declared?_eq_some_iff
  undeclared _ _ := declared?_eq_none_iff

end Program

end ObjectFlow
