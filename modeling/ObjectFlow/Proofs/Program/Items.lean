import ObjectFlow.Proofs.Program.WellFormed

/-!
# The handles in a listing

A listing refers to its classes, methods, fields and variables by handles.  `items` collects
the handles in each part of a listing.  A part names what is there when its items are in
range, and of what a well-formed listing asks of its statements two things remain: where they
branch to, and whether their calls have a receiver.
-/

namespace ObjectFlow

/-- Something that a listing holds, by its handle. -/
inductive Item where
  | class (id : ClassId)
  | method (id : MethodId)
  | field (id : FieldId)
  | var (id : VarId)
  deriving DecidableEq, Repr

/-- The listing holds the item. -/
def Item.InRange (listing : Listing) : Item → Prop
  | .class id => id.index < listing.classes.size
  | .method id => id.index < listing.methods.size
  | .field id => id.index < listing.fields.size
  | .var id => id.index < listing.vars.size

def Ty.items : Ty → List Item
  | .object type => [.class type]
  | .array element => element.items
  | _ => []

/-- What a statement names, its variables apart. -/
def Stmt.operands : Stmt → List Item
  | .alloc _ type => type.items
  | .loadField _ _ field => [.field field]
  | .storeField _ field _ => [.field field]
  | .invoke call => [.class call.target.declaringClass]
  | _ => []

def Stmt.items (stmt : Stmt) : List Item :=
  (stmt.uses ++ stmt.writes?.toList).map .var ++ stmt.operands

/-- Where a statement branches to. -/
def Stmt.targets : Stmt → List Nat
  | .branch _ target => [target]
  | .jump target => [target]
  | .switch _ cases default => cases.map (·.2) ++ [default]
  | _ => []

/-- The statement is a call that needs a receiver and has none. -/
def Stmt.LacksReceiver (stmt : Stmt) : Prop :=
  ∃ call ∈ stmt.call?, call.kind ≠ .static ∧ call.base = none

instance (stmt : Stmt) : Decidable stmt.LacksReceiver :=
  inferInstanceAs (Decidable (∃ call ∈ stmt.call?, call.kind ≠ .static ∧ call.base = none))

def Class.items (c : Class) : List Item :=
  (c.superClass.toList ++ c.interfaces).map .class ++ c.methods.map .method

def Field.items (field : Field) : List Item := .class field.declaringClass :: field.type.items

def Var.items (var : Var) : List Item := .method var.method :: var.type.items

def Method.items (method : Method) : List Item :=
  .class method.declaringClass :: (method.this.toList ++ method.params).map .var ++
    method.stmts.toList.flatMap Stmt.items

section Known

variable {known : List Item}

theorem Class.items_subset_iff {c : Class} :
    c.items ⊆ known ↔ (∀ parent ∈ c.superClass, .class parent ∈ known) ∧
      (∀ interface ∈ c.interfaces, .class interface ∈ known) ∧
      ∀ method ∈ c.methods, .method method ∈ known := by
  simp only [List.subset_def, items, List.forall_mem_append, List.forall_mem_map,
    Option.mem_toList, Option.mem_def, and_assoc]

theorem Method.items_subset_iff {method : Method} :
    method.items ⊆ known ↔ .class method.declaringClass ∈ known ∧
      (∀ v ∈ method.this, .var v ∈ known) ∧ (∀ v ∈ method.params, .var v ∈ known) ∧
      ∀ stmt ∈ method.stmts, stmt.items ⊆ known := by
  simp only [List.subset_def, items, List.cons_append, List.forall_mem_cons,
    List.forall_mem_append, List.forall_mem_map, Option.mem_toList, Option.mem_def,
    List.forall_mem_flatMap, Array.mem_toList_iff, and_assoc]

end Known

section Fits

variable {listing : Listing} {position : Nat}

theorem Ty.fits_iff {type : Ty} :
    type.Fits listing ↔ ∀ item ∈ type.items, item.InRange listing := by
  induction type with
  | object c =>
    simp only [items, List.forall_mem_singleton]
    exact ⟨fun h => h c (.object c), fun h _ hnames => by cases hnames; exact h⟩
  | array element ih =>
    rw [items, ← ih]
    exact ⟨fun h c hc => h c (.array hc), fun h c hc => by cases hc with | array hc => exact h c hc⟩
  | _ => exact iff_of_true nofun (by simp [items])

/-- The check of a statement beyond its variables. -/
theorem Stmt.operandDefect?_eq_none_iff {stmt : Stmt} {length : Nat} :
    listing.operandDefect? length stmt = none ↔ (∀ item ∈ stmt.operands, item.InRange listing) ∧
      (∀ target ∈ stmt.targets, target < length) ∧ ¬ stmt.LacksReceiver := by
  unfold LacksReceiver
  cases stmt with
  | alloc lhs type =>
    simp [Listing.operandDefect?, operands, targets, call?, Listing.hasType_iff, Ty.fits_iff]
  | loadField lhs base field =>
    simp [Listing.operandDefect?, operands, targets, call?, Listing.hasField, Item.InRange]
  | storeField base field rhs =>
    simp [Listing.operandDefect?, operands, targets, call?, Listing.hasField, Item.InRange]
  | invoke call =>
    rw [Listing.operandDefect?]
    split <;> simp_all [operands, targets, call?, Listing.hasClass, Item.InRange, Call.isStatic]
  | switch var cases default =>
    simp only [Listing.operandDefect?, Option.map_eq_none_iff, Listing.find?_not_eq_none_iff,
      decide_eq_true_iff, operands, targets]
    simp [call?]
  | _ => simp [Listing.operandDefect?, operands, targets, call?]

theorem Stmt.fits_iff {stmt : Stmt} {length : Nat} :
    stmt.Fits listing length ↔ (∀ item ∈ stmt.items, item.InRange listing) ∧
      (∀ target ∈ stmt.targets, target < length) ∧ ¬ stmt.LacksReceiver := by
  rw [← Listing.stmtDefect?_eq_none_iff, Listing.stmtDefect?_eq_none_iff_and,
    operandDefect?_eq_none_iff, ← and_assoc]
  simp only [items, List.forall_mem_append, List.forall_mem_map, Item.InRange]

theorem Class.fits_iff {c : Class} :
    c.Fits listing position ↔
      c.id.index = position ∧ ∀ item ∈ c.items, item.InRange listing := by
  simp only [items, List.forall_mem_append, List.forall_mem_map, Option.mem_toList]
  exact ⟨fun ⟨hplace, hsuper, hinterfaces, hmethods⟩ =>
      ⟨hplace, ⟨hsuper, hinterfaces⟩, hmethods⟩,
    fun ⟨hplace, ⟨hsuper, hinterfaces⟩, hmethods⟩ => ⟨hplace, hsuper, hinterfaces, hmethods⟩⟩

theorem Field.fits_iff {field : Field} :
    field.Fits listing position ↔
      field.id.index = position ∧ ∀ item ∈ field.items, item.InRange listing := by
  simp only [items, List.forall_mem_cons, ← Ty.fits_iff]
  exact ⟨fun ⟨hplace, hclass, htype⟩ => ⟨hplace, hclass, htype⟩,
    fun ⟨hplace, hclass, htype⟩ => ⟨hplace, hclass, htype⟩⟩

theorem Var.fits_iff {var : Var} :
    var.Fits listing position ↔
      var.id.index = position ∧ ∀ item ∈ var.items, item.InRange listing := by
  simp only [items, List.forall_mem_cons, ← Ty.fits_iff]
  exact ⟨fun ⟨hplace, hmethod, htype⟩ => ⟨hplace, hmethod, htype⟩,
    fun ⟨hplace, hmethod, htype⟩ => ⟨hplace, hmethod, htype⟩⟩

theorem Method.fits_iff {method : Method} :
    method.Fits listing position ↔
      method.id.index = position ∧ (∀ item ∈ method.items, item.InRange listing) ∧
      ∀ stmt ∈ method.stmts, (∀ target ∈ stmt.targets, target < method.stmts.size) ∧
        ¬ stmt.LacksReceiver := by
  simp only [items, List.cons_append, List.forall_mem_cons, List.forall_mem_append,
    List.forall_mem_map, Option.mem_toList, List.forall_mem_flatMap, Array.mem_toList_iff]
  constructor
  · rintro ⟨hplace, hclass, hthis, hparams, hstmts⟩
    exact ⟨hplace,
      ⟨hclass, ⟨hthis, hparams⟩, fun stmt hstmt => (Stmt.fits_iff.mp (hstmts stmt hstmt)).1⟩,
      fun stmt hstmt => (Stmt.fits_iff.mp (hstmts stmt hstmt)).2⟩
  · rintro ⟨hplace, ⟨hclass, ⟨hthis, hparams⟩, hitems⟩, hstmts⟩
    exact ⟨hplace, hclass, hthis, hparams,
      fun stmt hstmt => Stmt.fits_iff.mpr ⟨hitems stmt hstmt, hstmts stmt hstmt⟩⟩

end Fits

end ObjectFlow
