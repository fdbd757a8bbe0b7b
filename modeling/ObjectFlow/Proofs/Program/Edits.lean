import ObjectFlow.Proofs.Program.Bodies
import ObjectFlow.Proofs.Program.Writing

/-!
# Edits that stay in scope

Edits stay in scope when they are passed only handles that earlier edits gave out, and set
targets only of statements that exist.  Such edits cannot fail, every number that they give out
is the position of their item in the listing that they write, every statement is there as it was
written up to the last target that was set for it, and that listing becomes a program exactly
when it has an entry method, its branches stay inside their methods and its calls have their
receivers.
-/

namespace ObjectFlow

open Relation (ReflTransGen)

namespace BodyEdit

/-- The handles that are passed to an edit. -/
def items : BodyEdit → List Item
  | addVar _ type => type.items
  | addParam _ type => type.items
  | addStmt new => new.stmt.items
  | setTarget _ _ => []

/-- The handles that an edit gives out, from its number. -/
def given (number : Option Nat) : BodyEdit → List Item
  | addVar _ _ => number.toList.map fun n => .var ⟨n⟩
  | addParam _ _ => number.toList.map fun n => .var ⟨n⟩
  | addStmt _ => []
  | setTarget _ _ => []

/-- A statement whose target is set exists. -/
def aims (listing : Listing) (method : MethodId) : BodyEdit → Bool
  | setTarget index _ => listing.methods[method.index]?.any fun m => index < m.stmts.size
  | _ => true

/-- The number that an edit gives out is the position of what it adds to the listing, where a
statement goes to the last target that it or a later edit set for it. -/
def PlacedAt (listing : Listing) (later : List Edit) (method : MethodId) (number : Option Nat) :
    BodyEdit → Prop
  | addVar name type => ∃ n, number = some n ∧ listing.vars[n]? = some ⟨⟨n⟩, name, type, method⟩
  | addParam name type => ∃ n m, number = some n ∧
      listing.vars[n]? = some ⟨⟨n⟩, name, type, method⟩ ∧
      listing.methods[method.index]? = some m ∧ ⟨n⟩ ∈ m.params
  | addStmt new => ∃ n, number = some n ∧ listing.stmt? ⟨method, n⟩ =
      some (new.stmt.aimed (Edit.targetsFor ⟨method, n⟩ later))
  | setTarget index target => number = none ∧
      ∃ stmt, listing.stmt? ⟨method, index⟩ = some stmt ∧
        stmt.GoesTo ((Edit.targetsFor ⟨method, index⟩ later).getLastD target)

end BodyEdit

namespace Edit

/-- The handles that are passed to an edit. -/
def items : Edit → List Item
  | addClass _ superClass => superClass.toList.map .class
  | addAbstractClass _ superClass => superClass.toList.map .class
  | addInterface _ interfaces => interfaces.map .class
  | implement id interface => [.class id, .class interface]
  | addField declaringClass _ type _ => .class declaringClass :: type.items
  | addMethod _ declaringClass _ _ => [.class declaringClass]
  | addEntry method => [.method method]
  | editBody method edit => .method method :: edit.items

/-- The handles that an edit gives out, from its number.  With a method comes the variable of
its receiver, which is read from the listing after the edit. -/
def given (after : Listing) (number : Option Nat) : Edit → List Item
  | addClass _ _ => number.toList.map fun n => .class ⟨n⟩
  | addAbstractClass _ _ => number.toList.map fun n => .class ⟨n⟩
  | addInterface _ _ => number.toList.map fun n => .class ⟨n⟩
  | implement _ _ => []
  | addField _ _ _ _ => number.toList.map fun n => .field ⟨n⟩
  | addMethod _ _ _ _ => number.toList.flatMap fun n =>
      .method ⟨n⟩ :: (after.methods[n]?.bind Method.this).toList.map .var
  | addEntry _ => []
  | editBody _ edit => edit.given number

/-- A statement whose target is set exists. -/
def aims (listing : Listing) : Edit → Bool
  | editBody method edit => edit.aims listing method
  | _ => true

/-- The edits are passed only handles that are known or were given out by earlier ones, and set
only targets of statements that exist. -/
def Scoped (known : List Item) (listing : Listing) : List Edit → Prop
  | [] => True
  | edit :: edits => edit.items ⊆ known ∧ edit.aims listing = true ∧
      -- An edit that is in scope so far does not fail, and the other two cases do not arise.
      match edit.result? listing, edit.apply listing with
      | .ok number, .ok next => Scoped (edit.given next number ++ known) next edits
      | .ok _, .error _ => True
      | .error _, _ => True

instance decidableScoped (known : List Item) (listing : Listing) :
    (edits : List Edit) → Decidable (Scoped known listing edits)
  | [] => inferInstanceAs (Decidable True)
  | edit :: edits =>
    have : Decidable (match edit.result? listing, edit.apply listing with
        | .ok number, .ok next => Scoped (edit.given next number ++ known) next edits
        | .ok _, .error _ => True
        | .error _, _ => True) :=
      match edit.result? listing, edit.apply listing with
      | .ok number, .ok next => decidableScoped (edit.given next number ++ known) next edits
      | .ok _, .error _ => inferInstanceAs (Decidable True)
      | .error _, _ => inferInstanceAs (Decidable True)
    inferInstanceAs (Decidable (_ ∧ _ ∧ _))

/-- The numbers that edits give out when they are made one after the other. -/
def numbers (listing : Listing) : List Edit → Except Fault (List (Option Nat))
  | [] => .ok []
  | edit :: edits => do
    let number ← edit.result? listing
    let next ← edit.apply listing
    return number :: (← numbers next edits)

/-- The number that an edit gives out is the position of what it adds to the listing, when the
`later` edits are made too. -/
def PlacedAt (listing : Listing) (later : List Edit) (number : Option Nat) : Edit → Prop
  | addClass name superClass => ∃ n interfaces methods, number = some n ∧
      listing.classes[n]? = some ⟨⟨n⟩, name, superClass, interfaces, false, false, methods⟩
  | addAbstractClass name superClass => ∃ n interfaces methods, number = some n ∧
      listing.classes[n]? = some ⟨⟨n⟩, name, superClass, interfaces, false, true, methods⟩
  | addInterface name parents => ∃ n interfaces methods, number = some n ∧
      listing.classes[n]? = some ⟨⟨n⟩, name, none, parents ++ interfaces, true, true, methods⟩
  | implement id interface => number = none ∧
      ∃ c, listing.classes[id.index]? = some c ∧ interface ∈ c.interfaces
  | addField declaringClass name type isStatic => ∃ n, number = some n ∧
      listing.fields[n]? = some ⟨⟨n⟩, name, declaringClass, type, isStatic⟩
  | addMethod form declaringClass name subsignature => ∃ n this params stmts c, number = some n ∧
      listing.methods[n]? = some ⟨⟨n⟩, name, declaringClass, subsignature, form == .static,
        form == .abstract, this, params, stmts⟩ ∧
      (this = none ↔ form = .static) ∧
      (∀ v ∈ this, listing.vars[v.index]? = some ⟨v, "this", .object declaringClass, ⟨n⟩⟩) ∧
      listing.classes[declaringClass.index]? = some c ∧ ⟨n⟩ ∈ c.methods
  | addEntry method => number = none ∧ method ∈ listing.entries
  | editBody method edit => edit.PlacedAt listing later method number

/-- The numbers that edits give out are the positions of what they add to the listing. -/
inductive AllPlaced (listing : Listing) : List Edit → List (Option Nat) → Prop
  | nil : AllPlaced listing [] []
  | cons {edit : Edit} {edits : List Edit} {number : Option Nat} {numbers : List (Option Nat)}
      (placed : edit.PlacedAt listing edits number) (rest : AllPlaced listing edits numbers) :
      AllPlaced listing (edit :: edits) (number :: numbers)

end Edit

section Placed

variable {old new : Listing} {later : List Edit} {number : Option Nat} (hgrows : old.Grows new)
  (hlater : Edit.applyAll old later = .ok new)
include hgrows hlater

/-- What an edit has added stays in its place while later edits are made. -/
theorem BodyEdit.PlacedAt.stays {method : MethodId} {edit : BodyEdit}
    (h : edit.PlacedAt old [] method number) : edit.PlacedAt new later method number := by
  cases edit with
  | addVar name type =>
    obtain ⟨n, rfl, hvar⟩ := h
    obtain ⟨_, hvar', rfl⟩ := hgrows.vars _ _ hvar
    exact ⟨n, rfl, hvar'⟩
  | addParam name type =>
    obtain ⟨n, m, rfl, hvar, hmethod, hmem⟩ := h
    obtain ⟨_, hvar', rfl⟩ := hgrows.vars _ _ hvar
    obtain ⟨_, hmethod', params, stmts, -, rfl⟩ := hgrows.methods _ _ hmethod
    exact ⟨n, _, rfl, hvar', hmethod', List.mem_append_left params hmem⟩
  | addStmt written =>
    obtain ⟨n, rfl, hstmt⟩ := h
    refine ⟨n, rfl, ?_⟩
    rw [Edit.stmt?_applyAll hlater hstmt, Stmt.aimed_append]
    rfl
  | setTarget index target =>
    obtain ⟨rfl, stmt, hstmt, hgoes⟩ := h
    exact ⟨rfl, _, Edit.stmt?_applyAll hlater hstmt, hgoes.aimed _⟩

theorem Edit.PlacedAt.stays {edit : Edit} (h : edit.PlacedAt old [] number) :
    edit.PlacedAt new later number := by
  cases edit with
  | addClass name superClass | addAbstractClass name superClass =>
    obtain ⟨n, interfaces, methods, rfl, hclass⟩ := h
    obtain ⟨_, hclass', _, _, rfl⟩ := hgrows.classes _ _ hclass
    exact ⟨n, _, _, rfl, hclass'⟩
  | addInterface name parents =>
    obtain ⟨n, interfaces, methods, rfl, hclass⟩ := h
    obtain ⟨_, hclass', more, _, rfl⟩ := hgrows.classes _ _ hclass
    exact ⟨n, interfaces ++ more, _, rfl, by rw [hclass', List.append_assoc]⟩
  | implement id interface =>
    obtain ⟨rfl, c, hclass, hmem⟩ := h
    obtain ⟨_, hclass', more, _, rfl⟩ := hgrows.classes _ _ hclass
    exact ⟨rfl, _, hclass', List.mem_append_left more hmem⟩
  | addField declaringClass name type isStatic =>
    obtain ⟨n, rfl, hfield⟩ := h
    obtain ⟨_, hfield', rfl⟩ := hgrows.fields _ _ hfield
    exact ⟨n, rfl, hfield'⟩
  | addMethod form declaringClass name subsignature =>
    obtain ⟨n, this, params, stmts, c, rfl, hmethod, hform, hthis, hclass, hmem⟩ := h
    obtain ⟨_, hmethod', _, _, -, rfl⟩ := hgrows.methods _ _ hmethod
    obtain ⟨_, hclass', _, more, rfl⟩ := hgrows.classes _ _ hclass
    refine ⟨n, this, _, _, _, rfl, hmethod', hform, fun v hv => ?_, hclass',
      List.mem_append_left more hmem⟩
    obtain ⟨_, hvar', rfl⟩ := hgrows.vars _ _ (hthis v hv)
    exact hvar'
  | addEntry method => exact ⟨h.1, hgrows.entries h.2⟩
  | editBody method edit => exact BodyEdit.PlacedAt.stays hgrows hlater h

end Placed

/-- An edit is made: what it does to the listing, and what it gives out. -/
structure Edit.Made (known : List Item) (listing : Listing) (edit : Edit) (next : Listing)
    (number : Option Nat) : Prop where
  applied : edit.apply listing = .ok next
  numbered : edit.result? listing = .ok number
  extended : ReflTransGen (Listing.Extended (edit.given next number ++ known)) listing next
  given : ∀ item ∈ edit.given next number, item.InRange next
  placed : edit.PlacedAt next [] number
  entries : next.entries ≠ [] ↔ listing.entries ≠ [] ∨ ∃ method, edit = .addEntry method

namespace Listing

variable {listing : Listing}

theorem editClass_eq_ok {id : ClassId} (h : id.index < listing.classes.size)
    (change : Class → Class) : listing.editClass id change =
      .ok { listing with classes := listing.classes.modify id.index change } := by
  obtain ⟨c, hc⟩ := Handle.exists_lookup h
  simp [editClass, edit, hc]

theorem editMethod_eq_ok {id : MethodId} (h : id.index < listing.methods.size)
    (change : Method → Method) : listing.editMethod id change =
      .ok { listing with methods := listing.methods.modify id.index change } := by
  obtain ⟨method, hmethod⟩ := Handle.exists_lookup h
  simp [editMethod, edit, hmethod]

theorem mem_entries_addEntry (listing : Listing) (method : MethodId) :
    method ∈ (listing.addEntry method).entries := by
  unfold addEntry
  split
  next hknown => exact List.contains_iff_mem.mp hknown
  · simp

/-- The listing with a method that its class knows. -/
def declare (listing : Listing) (method : Method) : Listing :=
  { listing with
    methods := listing.methods.push method
    classes := listing.classes.modify method.declaringClass.index fun c =>
      { c with methods := c.methods ++ [listing.nextMethod] } }

/-- A method as it is first added. -/
def newMethod (listing : Listing) (form : MethodForm) (declaringClass : ClassId)
    (name subsignature : String) : Method where
  id := listing.nextMethod
  name := name
  declaringClass := declaringClass
  subsignature := subsignature
  isStatic := form == .static
  isAbstract := form == .abstract
  this := if form = .static then none else some listing.nextVar
  params := []
  stmts := #[]

theorem addMethod_eq_ok {declaringClass : ClassId}
    (h : declaringClass.index < listing.classes.size) (form : MethodForm)
    (name subsignature : String) :
    listing.addMethod form declaringClass name subsignature = .ok
      (if form = .static then
        listing.declare (listing.newMethod form declaringClass name subsignature)
      else
        (listing.declare (listing.newMethod form declaringClass name subsignature)).addVar
          listing.nextMethod "this" (.object declaringClass)) := by
  simp only [addMethod, beq_iff_eq]
  rw [editClass_eq_ok (by exact h)]
  rfl

theorem exists_member_declare {method : Method}
    (h : method.declaringClass.index < listing.classes.size) :
    ∃ c, (listing.declare method).classes[method.declaringClass.index]? = some c ∧
      listing.nextMethod ∈ c.methods := by
  simp only [declare, Array.getElem?_modify, if_pos, Array.getElem?_eq_getElem h]
  exact ⟨_, rfl, by simp⟩

theorem extended_declare (listing : Listing) {known : List Item} {method : Method}
    (hplace : method.id = listing.nextMethod) (hitems : method.items ⊆ known)
    (hknown : .method listing.nextMethod ∈ known) :
    ReflTransGen (Extended known) listing (listing.declare method) := by
  refine .tail (.single (.pushMethod hplace hitems)) (.growClass ?_ ?_)
  · exact fun c => ⟨[], [listing.nextMethod], by simp⟩
  · intro c hc
    rw [Class.items_subset_iff] at hc ⊢
    refine ⟨hc.1, hc.2.1, List.forall_mem_append.mpr ⟨hc.2.2, ?_⟩⟩
    simpa using hknown

end Listing

namespace Edit

variable {known : List Item} {listing : Listing} {edit : Edit}

/-- A class without methods is added. -/
theorem made_pushClass {c : Class}
    (happly : edit.apply listing = .ok { listing with classes := listing.classes.push c })
    (hnumber : edit.result? listing = .ok (some listing.classes.size))
    (hgiven : ∀ after n, edit.given after (some n) = [.class ⟨n⟩])
    (hplaced : edit.PlacedAt { listing with classes := listing.classes.push c } []
      (some listing.classes.size))
    (hentry : ∀ method, edit ≠ .addEntry method) (hplace : c.id = listing.nextClass)
    (hmethods : c.methods = [])
    (hparents : ∀ parent ∈ c.superClass.toList ++ c.interfaces, .class parent ∈ known)
    (hrange : ∀ item ∈ known, item.InRange listing) :
    Made known listing edit { listing with classes := listing.classes.push c }
      (some listing.classes.size) := by
  obtain ⟨hsuper, hinterfaces⟩ := List.forall_mem_append.mp hparents
  simp only [Option.mem_toList] at hsuper
  refine ⟨happly, hnumber, .single (.pushClass hplace ?_ ?_), ?_, hplaced, by simp [hentry]⟩
  · rw [Class.items_subset_iff, hmethods]
    exact ⟨fun parent hparent => List.mem_append_right _ (hsuper parent hparent),
      fun parent hparent => List.mem_append_right _ (hinterfaces parent hparent), by simp⟩
  · exact fun parent hparent => hrange _ (hsuper parent hparent)
  · simp [hgiven, Item.InRange]

theorem exists_made_implement {id interface : ClassId}
    (hitems : (Edit.implement id interface).items ⊆ known)
    (hrange : ∀ item ∈ known, item.InRange listing) :
    ∃ next number, Made known listing (.implement id interface) next number := by
  have hid : id.index < listing.classes.size := hrange (.class id) (hitems (by simp [items]))
  have hinterface : .class interface ∈ known := hitems (by simp [items])
  refine ⟨_, none, Listing.editClass_eq_ok hid _, rfl, .single (.growClass ?_ ?_),
    by simp [Edit.given], ⟨rfl, ?_⟩, by simp⟩
  · intro c
    split
    · exact .refl c
    · exact ⟨[interface], [], by simp⟩
  · intro c hc
    split
    · exact hc
    · rw [Class.items_subset_iff] at hc ⊢
      refine ⟨hc.1, List.forall_mem_append.mpr ⟨hc.2.1, ?_⟩, hc.2.2⟩
      simpa using .inr hinterface
  · rw [Array.getElem?_modify, if_pos rfl, Array.getElem?_eq_getElem hid]
    refine ⟨_, rfl, ?_⟩
    beta_reduce
    split
    next hknown => exact List.contains_iff_mem.mp hknown
    · simp

theorem made_addField {declaringClass : ClassId} {name : String} {type : Ty} {isStatic : Bool}
    (hitems : (Edit.addField declaringClass name type isStatic).items ⊆ known) :
    Made known listing (.addField declaringClass name type isStatic)
      (listing.addField declaringClass name type isStatic) (some listing.fields.size) := by
  refine ⟨rfl, rfl, .single (.pushField rfl ?_), ?_, ⟨_, rfl, ?_⟩, ?_⟩
  · exact List.subset_append_of_subset_right _ hitems
  · simp [Edit.given, Item.InRange, Listing.addField]
  · simp [Listing.addField, Listing.nextField]
  · simp [Listing.addField]

theorem exists_made_addEntry {method : MethodId} (hitems : (Edit.addEntry method).items ⊆ known) :
    ∃ next number, Made known listing (.addEntry method) next number := by
  refine ⟨listing.addEntry method, none, rfl, rfl, ?_, by simp [Edit.given], ⟨rfl, ?_⟩, ?_⟩
  · unfold Listing.addEntry
    split
    · exact .refl
    · exact .single (.addEntry (hitems (by simp [items])))
  · exact listing.mem_entries_addEntry method
  · exact iff_of_true (List.ne_nil_of_mem (listing.mem_entries_addEntry method))
      (.inr ⟨method, rfl⟩)

/-- A method is added to its class, and with it the variable of its receiver. -/
theorem exists_made_addMethod {form : MethodForm} {declaringClass : ClassId}
    {name subsignature : String}
    (hitems : (Edit.addMethod form declaringClass name subsignature).items ⊆ known)
    (hrange : ∀ item ∈ known, item.InRange listing) :
    ∃ next number,
      Made known listing (.addMethod form declaringClass name subsignature) next number := by
  have hknown : .class declaringClass ∈ known := hitems (by simp [items])
  have hclass : declaringClass.index < listing.classes.size := hrange _ hknown
  have happly := Listing.addMethod_eq_ok hclass form name subsignature
  obtain ⟨c, hmember, hmem⟩ := @Listing.exists_member_declare listing
    (listing.newMethod form declaringClass name subsignature) hclass
  by_cases hform : form = .static
  · rw [if_pos hform] at happly
    refine ⟨_, some listing.methods.size, happly, rfl, listing.extended_declare rfl ?_ ?_, ?_,
      ⟨_, none, [], #[], c, rfl, ?_, by simp [hform], by simp, hmember, hmem⟩,
      by simp [Listing.declare]⟩
    · simp [Method.items, Listing.newMethod, hform, hknown]
    · simp [Edit.given, Listing.nextMethod]
    · simp [Edit.given, Listing.declare, Listing.newMethod, hform, Item.InRange]
    · simp [Listing.declare, Listing.newMethod, Listing.nextMethod, hform]
  · rw [if_neg hform] at happly
    refine ⟨_, some listing.methods.size, happly, rfl,
      .tail (listing.extended_declare rfl ?_ ?_) (.pushVar rfl ?_), ?_,
      ⟨_, some listing.nextVar, [], #[], c, rfl, ?_, by simp [hform], ?_, hmember, hmem⟩,
      by simp [Listing.declare, Listing.addVar]⟩
    · simp [Method.items, Listing.newMethod, hform, hknown, Edit.given, Listing.declare,
        Listing.addVar]
    · simp [Edit.given, Listing.nextMethod]
    · simp [Var.items, Ty.items, Edit.given, Listing.nextMethod, hknown]
    · simp [Edit.given, Listing.declare, Listing.newMethod, Listing.addVar, Listing.nextVar, hform,
        Item.InRange]
    · simp [Listing.declare, Listing.newMethod, Listing.nextMethod, Listing.addVar, hform]
    · simp [Listing.declare, Listing.nextMethod, Listing.addVar, Listing.nextVar]

section Body

variable {method : MethodId} (hmethod : .method method ∈ known)
  (hrange : ∀ item ∈ known, item.InRange listing)
include hmethod

theorem made_addVar {name : String} {type : Ty} (hitems : type.items ⊆ known) :
    Made known listing (.editBody method (.addVar name type)) (listing.addVar method name type)
      (some listing.vars.size) := by
  refine ⟨rfl, rfl, .single (.pushVar rfl ?_), ?_, ⟨_, rfl, ?_⟩, ?_⟩
  · exact List.subset_append_of_subset_right _ (List.cons_subset.mpr ⟨hmethod, hitems⟩)
  · simp [Edit.given, BodyEdit.given, Item.InRange, Listing.addVar]
  · simp [Listing.addVar, Listing.nextVar]
  · simp [Listing.addVar]

include hrange

theorem exists_made_addParam {name : String} {type : Ty} (hitems : type.items ⊆ known) :
    ∃ next number, Made known listing (.editBody method (.addParam name type)) next number := by
  have hlt : method.index < listing.methods.size := hrange _ hmethod
  have hfound := Array.getElem?_eq_getElem hlt
  refine ⟨_, some listing.vars.size, Listing.editMethod_eq_ok (by exact hlt) _, rfl,
    .tail (.single (.pushVar rfl ?_)) (.growMethod ?_ ?_), ?_,
    ⟨_, _, rfl, ?_, getElem?_modify_self hfound _, by simp [Listing.nextVar]⟩,
    by simp [Listing.addVar]⟩
  · exact List.subset_append_of_subset_right _ (List.cons_subset.mpr ⟨hmethod, hitems⟩)
  · exact fun m => ⟨[listing.nextVar], m.stmts, .refl (fun _ => .inl rfl) _, rfl⟩
  · intro m hm
    rw [Method.items_subset_iff] at hm ⊢
    refine ⟨hm.1, hm.2.1, List.forall_mem_append.mpr ⟨hm.2.2.1, ?_⟩, hm.2.2.2⟩
    simp [Edit.given, BodyEdit.given, Listing.nextVar]
  · simp [Edit.given, BodyEdit.given, Item.InRange, Listing.addVar]
  · simp [Listing.addVar, Listing.nextVar]

theorem exists_made_addStmt {new : NewStmt} (hitems : new.stmt.items ⊆ known) :
    ∃ next number, Made known listing (.editBody method (.addStmt new)) next number := by
  have hlt : method.index < listing.methods.size := hrange _ hmethod
  obtain ⟨m, hm, hfound⟩ := Handle.exists_lookup hlt
  refine ⟨_, some m.stmts.size, Listing.editMethod_eq_ok hlt _, ?_,
    .single (.growMethod ?_ ?_), by simp [Edit.given, BodyEdit.given],
    ⟨_, rfl, ?_⟩, by simp⟩
  · simp [Edit.result?, BodyEdit.result?, Listing.nextIndex, hm, Except.map]
  · exact fun m => ⟨[], _, grown_push (fun _ => .inl rfl) m.stmts new.stmt, by simp⟩
  · intro m hm
    rw [Method.items_subset_iff] at hm ⊢
    refine ⟨hm.1, hm.2.1, hm.2.2.1, fun other hother => ?_⟩
    rcases Array.mem_push.mp hother with hold | rfl
    · exact hm.2.2.2 other hold
    · exact List.subset_append_of_subset_right _ hitems
  · rw [Listing.stmt?_modify_self hfound]
    simp [targetsFor]

theorem exists_made_setTarget {index target : Nat}
    (haims : (BodyEdit.setTarget index target).aims listing method = true) :
    ∃ next number, Made known listing (.editBody method (.setTarget index target)) next number := by
  have hlt : method.index < listing.methods.size := hrange _ hmethod
  obtain ⟨m, hm, hfound⟩ := Handle.exists_lookup hlt
  have hindex : index < m.stmts.size := by simpa [BodyEdit.aims, hfound] using haims
  have happly : (Edit.editBody method (.setTarget index target)).apply listing =
      .ok { listing with
        methods := listing.methods.modify method.index fun m =>
          { m with stmts := m.stmts.modify index (Stmt.retarget target) } } := by
    simp only [Edit.apply, BodyEdit.apply, Listing.setTarget, hm, ok_bind, if_pos hindex]
    exact Listing.editMethod_eq_ok hlt _
  refine ⟨_, none, happly, rfl, .single (.growMethod ?_ ?_), by simp [Edit.given, BodyEdit.given],
    ⟨rfl, m.stmts[index].retarget target, ?_, Stmt.goesTo_retarget _ _⟩, by simp⟩
  · have hchange : ∀ stmt : Stmt, stmt.Retargeted (stmt.retarget target) :=
      fun _ => .inr ⟨target, rfl⟩
    exact fun m => ⟨[], _, grown_modify (fun _ => .inl rfl) m.stmts index hchange, by simp⟩
  · intro m hm
    rw [Method.items_subset_iff] at hm ⊢
    refine ⟨hm.1, hm.2.1, hm.2.2.1, forall_mem_modify hm.2.2.2 fun stmt hstmt => ?_⟩
    rwa [Stmt.items_retarget]
  · rw [Listing.stmt?_modify_self hfound]
    exact getElem?_modify_self (Array.getElem?_eq_getElem hindex) _

end Body

/-- An edit that stays in scope is made. -/
theorem exists_made (hitems : edit.items ⊆ known) (haims : edit.aims listing = true)
    (hrange : ∀ item ∈ known, item.InRange listing) :
    ∃ next number, Made known listing edit next number := by
  cases edit with
  | addClass name parents | addAbstractClass name parents | addInterface name parents =>
    refine ⟨_, _, made_pushClass rfl rfl (fun _ _ => rfl) ?_ nofun rfl rfl ?_ hrange⟩
    · exact ⟨_, [], [], rfl, by simp [Listing.nextClass]⟩
    · simpa [items, List.subset_def] using hitems
  | implement id interface => exact exists_made_implement hitems hrange
  | addField declaringClass name type isStatic => exact ⟨_, _, made_addField hitems⟩
  | addMethod form declaringClass name subsignature => exact exists_made_addMethod hitems hrange
  | addEntry method => exact exists_made_addEntry hitems
  | editBody method body =>
    obtain ⟨hmethod, hbody⟩ := List.cons_subset.mp hitems
    cases body with
    | addVar name type => exact ⟨_, _, made_addVar hmethod hbody⟩
    | addParam name type => exact exists_made_addParam hmethod hrange hbody
    | addStmt new => exact exists_made_addStmt hmethod hrange hbody
    | setTarget index target => exact exists_made_setTarget hmethod hrange haims

/-- Edits that stay in scope are made one after the other. -/
theorem Scoped.exists_applyAll {edits : List Edit} (h : Scoped known listing edits)
    (harranged : listing.Arranged known) (hrange : ∀ item ∈ known, item.InRange listing) :
    ∃ final given numbers, applyAll listing edits = .ok final ∧
      Edit.numbers listing edits = .ok numbers ∧ listing.Grows final ∧
      final.Arranged given ∧ (∀ item ∈ given, item.InRange final) ∧
      AllPlaced final edits numbers ∧
      (final.entries ≠ [] ↔ listing.entries ≠ [] ∨ ∃ method, .addEntry method ∈ edits) := by
  induction edits generalizing known listing with
  | nil => exact ⟨listing, known, [], rfl, rfl, .refl _, harranged, hrange, .nil, by simp⟩
  | cons edit edits ih =>
    obtain ⟨hitems, haims, hrest⟩ := h
    obtain ⟨next, number, hmade⟩ := exists_made hitems haims hrange
    simp only [hmade.numbered, hmade.applied] at hrest
    -- What the edit gave out joins what is known, and is in range from here on.
    have hgrows := Listing.grows_of_reflTransGen hmade.extended
    have hnext : next.Arranged (edit.given next number ++ known) :=
      (harranged.mono (List.subset_append_right _ _)).extends hmade.extended
    have hknown : ∀ item ∈ edit.given next number ++ known, item.InRange next :=
      List.forall_mem_append.mpr
        ⟨hmade.given, fun item hitem => hgrows.inRange (hrange item hitem)⟩
    obtain ⟨final, given, numbers, hfinal, hnumbers, hgrown, hgiven, hheld, hplaced, hentries⟩ :=
      ih hrest hnext hknown
    refine ⟨final, given, number :: numbers, ?_, ?_, hgrows.trans hgrown, hgiven, hheld,
      .cons (hmade.placed.stays hgrown hfinal) hplaced, ?_⟩
    · simpa [applyAll, hmade.applied] using hfinal
    · simp [Edit.numbers, hmade.numbered, hmade.applied, hnumbers]
    · rw [hentries, hmade.entries]
      simp [or_assoc, exists_or, eq_comm]

/-- Edits that stay in scope write a listing in which every number that they gave out is the
position of its item, and every statement is as it was written, up to the last target that was
set for it.  The listing becomes a program exactly when an entry method was added, all branches
stay inside their methods and all calls that need a receiver have one. -/
theorem builds_of_scoped {edits : List Edit} (h : Scoped [] {} edits) :
    ∃ listing numbers, applyAll {} edits = .ok listing ∧ Edit.numbers {} edits = .ok numbers ∧
      AllPlaced listing edits numbers ∧
      ((∃ program, Program.ofListing listing = .ok program ∧ program.listing = listing) ↔
        (∃ method, .addEntry method ∈ edits) ∧
        (∀ method ∈ listing.methods, ∀ stmt ∈ method.stmts, ∀ target ∈ stmt.targets,
          target < method.stmts.size) ∧
        ∀ method ∈ listing.methods, ∀ stmt ∈ method.stmts, ¬ stmt.LacksReceiver) := by
  have hempty : ({} : Listing).Arranged [] := ⟨by simp, by simp, by simp, by simp, by simp⟩
  obtain ⟨listing, given, numbers, happly, hnumbers, -, harranged, hrange, hplaced, hentries⟩ :=
    h.exists_applyAll hempty (by simp)
  refine ⟨listing, numbers, happly, hnumbers, hplaced, ?_⟩
  rw [Program.exists_ofListing_iff, Listing.defect?_eq_none_iff, harranged.wellFormed_iff hrange,
    hentries]
  simp only [ne_eq, not_true_eq_false, false_or, forall_and]

/-- A disk that implements an interface and inherits from a class, with a method that is called
on it, and a branch whose target is set once the statement there is known. -/
def sketch : List Edit :=
  [.addInterface "Shape" [], .addClass "Figure" none, .addClass "Disk" (some ⟨1⟩),
    .implement ⟨2⟩ ⟨0⟩, .addField ⟨2⟩ "next" (.object ⟨0⟩) false,
    .addMethod .concrete ⟨2⟩ "link" "link(Shape)",
    .editBody ⟨0⟩ (.addParam "shape" (.object ⟨0⟩)),
    .editBody ⟨0⟩ (.addStmt (.storeField ⟨0⟩ ⟨0⟩ ⟨1⟩)),
    .addMethod .static ⟨1⟩ "main" "main()", .editBody ⟨1⟩ (.addVar "disk" (.object ⟨2⟩)),
    .editBody ⟨1⟩ (.addStmt (.alloc ⟨2⟩ (.object ⟨2⟩))),
    .editBody ⟨1⟩ (.addStmt (.branch (.var ⟨2⟩) 0)),
    .editBody ⟨1⟩ (.addStmt (.invokeInterface none ⟨2⟩ ⟨⟨0⟩, "link(Shape)"⟩ [⟨2⟩])),
    .editBody ⟨1⟩ (.addStmt (.ret none)), .editBody ⟨1⟩ (.setTarget 1 3), .addEntry ⟨1⟩]

/-- The edits of `sketch` stay in scope, and what they write becomes a program, with the branch
sent to the target that was set last. -/
theorem builds_of_scoped_sketch : Scoped [] {} sketch ∧ ∃ listing program,
    applyAll {} sketch = .ok listing ∧ Program.ofListing listing = .ok program ∧
      listing.stmt? ⟨⟨1⟩, 1⟩ = some (.branch (.var ⟨2⟩) 3) := by
  have hscoped : Scoped [] {} sketch := by decide
  obtain ⟨listing, numbers, happly, -, -, hbuilds⟩ := builds_of_scoped hscoped
  cases happly
  obtain ⟨program, hprogram, -⟩ := hbuilds.mpr ⟨⟨⟨1⟩, by decide⟩, by decide, by decide⟩
  exact ⟨hscoped, _, program, rfl, hprogram, by decide⟩

end Edit

end ObjectFlow
