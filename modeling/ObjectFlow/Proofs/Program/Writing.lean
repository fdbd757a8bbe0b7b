import ObjectFlow.Program.Builder
import ObjectFlow.Proofs.Program.Items

/-!
# Listings as they are written

A listing is written by changes to single tables.  A change adds an item at the end of a table,
or lets an entry grow that is there.  So items stay where they were put, and all handles in the
listing are among those that the changes may name.  A class comes after its superclass, and
therefore chains of superclasses end.  When the listing holds all that it names, three things
remain of the rules for a well-formed listing that nobody looks at while it is written: that it
has an entry method, where its branches go, and that its calls have their receivers.
-/

namespace ObjectFlow

open Relation (ReflTransGen)

/-- The statement is the other one, or that with another target. -/
def Stmt.Retargeted (stmt later : Stmt) : Prop :=
  later = stmt ∨ ∃ target, later = stmt.retarget target

theorem Stmt.items_retarget (target : Nat) (stmt : Stmt) :
    (stmt.retarget target).items = stmt.items := by
  cases stmt <;> rfl

theorem Stmt.Retargeted.trans {first second third : Stmt} (h : first.Retargeted second)
    (h' : second.Retargeted third) : first.Retargeted third := by
  rcases h' with rfl | ⟨target, rfl⟩
  · exact h
  · rcases h with rfl | ⟨old, rfl⟩
    · exact .inr ⟨target, rfl⟩
    · exact .inr ⟨target, by cases first <;> rfl⟩

section Grown

variable {α : Type} {R : α → α → Prop} {old middle new table : Array α}

/-- The entries of a table stay at their positions, and become what `R` allows. -/
def Grown (R : α → α → Prop) (old new : Array α) : Prop :=
  ∀ (i : Nat) (a : α), old[i]? = some a → ∃ b, new[i]? = some b ∧ R a b

theorem Grown.refl (hR : ∀ a, R a a) (table : Array α) : Grown R table table :=
  fun _ a h => ⟨a, h, hR a⟩

theorem Grown.trans (hR : ∀ a b c, R a b → R b c → R a c) (h : Grown R old middle)
    (h' : Grown R middle new) : Grown R old new := by
  intro i a ha
  obtain ⟨b, hb, hab⟩ := h i a ha
  obtain ⟨c, hc, hbc⟩ := h' i b hb
  exact ⟨c, hc, hR a b c hab hbc⟩

theorem grown_push (hR : ∀ a, R a a) (table : Array α) (new : α) :
    Grown R table (table.push new) := by
  intro i a ha
  have hlt : i < table.size := (Array.getElem?_eq_some_iff.mp ha).1
  exact ⟨a, by rw [Array.getElem?_push, if_neg (Nat.ne_of_lt hlt), ha], hR a⟩

theorem grown_modify (hR : ∀ a, R a a) (table : Array α) (position : Nat) {change : α → α}
    (hchange : ∀ a, R a (change a)) : Grown R table (table.modify position change) := by
  intro i a ha
  rw [Array.getElem?_modify, ha]
  split
  · exact ⟨change a, rfl, hchange a⟩
  · exact ⟨a, rfl, hR a⟩

theorem getElem?_modify_self {position : Nat} {a : α} (h : table[position]? = some a)
    (change : α → α) : (table.modify position change)[position]? = some (change a) := by
  rw [Array.getElem?_modify, if_pos rfl, h, Option.map_some]

theorem Grown.size_le (h : Grown R old new) : old.size ≤ new.size := by
  by_contra hlt
  obtain ⟨b, hb, -⟩ := h new.size _ (Array.getElem?_eq_getElem (Nat.not_le.mp hlt))
  exact absurd (Array.getElem?_eq_some_iff.mp hb).1 (Nat.lt_irrefl _)

variable {P : Nat → α → Prop}

theorem forall_getElem?_push (h : ∀ (i : Nat) (a : α), table[i]? = some a → P i a) {new : α}
    (hnew : P table.size new) : ∀ (i : Nat) (a : α), (table.push new)[i]? = some a → P i a := by
  intro i a ha
  rw [Array.getElem?_push] at ha
  split at ha
  next heq =>
    cases ha
    rwa [heq]
  · exact h i a ha

theorem forall_getElem?_modify (h : ∀ (i : Nat) (a : α), table[i]? = some a → P i a)
    {position : Nat} {change : α → α} (hchange : ∀ i a, P i a → P i (change a)) :
    ∀ (i : Nat) (a : α), (table.modify position change)[i]? = some a → P i a := by
  intro i a ha
  rw [Array.getElem?_modify] at ha
  split at ha
  · obtain ⟨b, hb, rfl⟩ := Option.map_eq_some_iff.mp ha
    exact hchange i b (h i b hb)
  · exact h i a ha

theorem forall_mem_modify {p : α → Prop} (h : ∀ a ∈ table, p a) {position : Nat}
    {change : α → α} (hchange : ∀ a, p a → p (change a)) :
    ∀ a ∈ table.modify position change, p a := by
  intro a ha
  obtain ⟨i, hi⟩ := Array.mem_iff_getElem?.mp ha
  exact forall_getElem?_modify (P := fun _ => p) (fun _ b hb => h b (Array.mem_of_getElem? hb))
    (fun _ => hchange) i a hi

end Grown

/-- A class gets more interfaces and methods. -/
def Class.Grows (c later : Class) : Prop :=
  ∃ interfaces methods, later =
    { c with interfaces := c.interfaces ++ interfaces, methods := c.methods ++ methods }

/-- A method gets more parameters and statements, and its branches may get other targets. -/
def Method.Grows (method later : Method) : Prop :=
  ∃ params stmts, Grown Stmt.Retargeted method.stmts stmts ∧
    later = { method with params := method.params ++ params, stmts }

theorem Class.Grows.refl (c : Class) : c.Grows c := ⟨[], [], by simp⟩

theorem Class.Grows.trans {first second third : Class} (h : first.Grows second)
    (h' : second.Grows third) : first.Grows third := by
  obtain ⟨interfaces, methods, rfl⟩ := h
  obtain ⟨interfaces', methods', rfl⟩ := h'
  exact ⟨interfaces ++ interfaces', methods ++ methods', by simp⟩

theorem Method.Grows.refl (method : Method) : method.Grows method :=
  ⟨[], method.stmts, .refl (fun _ => .inl rfl) _, by simp⟩

theorem Method.Grows.trans {first second third : Method} (h : first.Grows second)
    (h' : second.Grows third) : first.Grows third := by
  obtain ⟨params, stmts, hstmts, rfl⟩ := h
  obtain ⟨params', stmts', hstmts', rfl⟩ := h'
  exact ⟨params ++ params', stmts', hstmts.trans (fun _ _ _ => .trans) hstmts', by simp⟩

namespace Listing

variable {known : List Item} {listing old middle new : Listing}

/-- Items stay where they are when a listing is written. -/
structure Grows (old new : Listing) : Prop where
  classes : Grown Class.Grows old.classes new.classes
  methods : Grown Method.Grows old.methods new.methods
  fields : Grown Eq old.fields new.fields
  vars : Grown Eq old.vars new.vars
  entries : old.entries ⊆ new.entries

theorem Grows.refl (listing : Listing) : listing.Grows listing where
  classes := .refl Class.Grows.refl _
  methods := .refl Method.Grows.refl _
  fields := .refl Eq.refl _
  vars := .refl Eq.refl _
  entries := List.Subset.refl _

theorem Grows.trans (h : old.Grows middle) (h' : middle.Grows new) : old.Grows new where
  classes := h.classes.trans (fun _ _ _ => Class.Grows.trans) h'.classes
  methods := h.methods.trans (fun _ _ _ => Method.Grows.trans) h'.methods
  fields := h.fields.trans (fun _ _ _ => Eq.trans) h'.fields
  vars := h.vars.trans (fun _ _ _ => Eq.trans) h'.vars
  entries := List.Subset.trans h.entries h'.entries

theorem Grows.inRange (h : old.Grows new) {item : Item} (hitem : item.InRange old) :
    item.InRange new := by
  cases item with
  | «class» id => exact Nat.lt_of_lt_of_le hitem h.classes.size_le
  | method id => exact Nat.lt_of_lt_of_le hitem h.methods.size_le
  | field id => exact Nat.lt_of_lt_of_le hitem h.fields.size_le
  | var id => exact Nat.lt_of_lt_of_le hitem h.vars.size_le

/-- A change to one table that names only items in `known`. -/
inductive Extended (known : List Item) (listing : Listing) : Listing → Prop where
  | pushClass {c : Class} (hplace : c.id = listing.nextClass) (hitems : c.items ⊆ known)
    (hparent : ∀ parent ∈ c.superClass, parent.index < listing.classes.size) :
    Extended known listing { listing with classes := listing.classes.push c }
  | pushMethod {method : Method} (hplace : method.id = listing.nextMethod)
    (hitems : method.items ⊆ known) :
    Extended known listing { listing with methods := listing.methods.push method }
  | pushField {field : Field} (hplace : field.id = listing.nextField)
    (hitems : field.items ⊆ known) :
    Extended known listing { listing with fields := listing.fields.push field }
  | pushVar {var : Var} (hplace : var.id = listing.nextVar) (hitems : var.items ⊆ known) :
    Extended known listing { listing with vars := listing.vars.push var }
  | growClass {id : ClassId} {change : Class → Class} (hgrows : ∀ c : Class, c.Grows (change c))
    (hitems : ∀ c : Class, c.items ⊆ known → (change c).items ⊆ known) :
    Extended known listing { listing with classes := listing.classes.modify id.index change }
  | growMethod {id : MethodId} {change : Method → Method}
    (hgrows : ∀ m : Method, m.Grows (change m))
    (hitems : ∀ m : Method, m.items ⊆ known → (change m).items ⊆ known) :
    Extended known listing { listing with methods := listing.methods.modify id.index change }
  | addEntry {method : MethodId} (hknown : .method method ∈ known) :
    Extended known listing { listing with entries := listing.entries ++ [method] }

theorem Extended.grows (h : Extended known old new) : old.Grows new := by
  have hrefl := Grows.refl old
  cases h with
  | pushClass => exact { hrefl with classes := grown_push Class.Grows.refl _ _ }
  | pushMethod => exact { hrefl with methods := grown_push Method.Grows.refl _ _ }
  | pushField => exact { hrefl with fields := grown_push Eq.refl _ _ }
  | pushVar => exact { hrefl with vars := grown_push Eq.refl _ _ }
  | growClass hgrows => exact { hrefl with classes := grown_modify Class.Grows.refl _ _ hgrows }
  | growMethod hgrows => exact { hrefl with methods := grown_modify Method.Grows.refl _ _ hgrows }
  | addEntry => exact { hrefl with entries := List.subset_append_left _ _ }

theorem grows_of_reflTransGen (h : ReflTransGen (Extended known) old new) : old.Grows new := by
  induction h with
  | refl => exact .refl _
  | tail _ hlast ih => exact ih.trans hlast.grows

/-- Everything stands at its own position, superclasses come before their classes, and only
items in `known` are named. -/
structure Arranged (known : List Item) (listing : Listing) : Prop where
  classes : ∀ (i : Nat) (c : Class), listing.classes[i]? = some c →
    c.id.index = i ∧ (∀ parent ∈ c.superClass, parent.index < i) ∧ c.items ⊆ known
  methods : ∀ (i : Nat) (method : Method), listing.methods[i]? = some method →
    method.id.index = i ∧ method.items ⊆ known
  fields : ∀ (i : Nat) (field : Field), listing.fields[i]? = some field →
    field.id.index = i ∧ field.items ⊆ known
  vars : ∀ (i : Nat) (var : Var), listing.vars[i]? = some var →
    var.id.index = i ∧ var.items ⊆ known
  entries : ∀ entry ∈ listing.entries, .method entry ∈ known

theorem Arranged.mono {more : List Item} (h : listing.Arranged known) (hmore : known ⊆ more) :
    listing.Arranged more where
  classes i c hc := ⟨(h.classes i c hc).1, (h.classes i c hc).2.1,
    List.Subset.trans (h.classes i c hc).2.2 hmore⟩
  methods i m hm := (h.methods i m hm).imp_right fun hitems => List.Subset.trans hitems hmore
  fields i f hf := (h.fields i f hf).imp_right fun hitems => List.Subset.trans hitems hmore
  vars i v hv := (h.vars i v hv).imp_right fun hitems => List.Subset.trans hitems hmore
  entries entry hentry := hmore (h.entries entry hentry)

/-- A change keeps a listing in order. -/
theorem Arranged.extend (h : old.Arranged known) (hextended : Extended known old new) :
    new.Arranged known := by
  cases hextended with
  | pushClass hplace hitems hparent =>
    exact { h with
      classes := forall_getElem?_push h.classes ⟨by rw [hplace]; rfl, hparent, hitems⟩ }
  | pushMethod hplace hitems =>
    exact { h with methods := forall_getElem?_push h.methods ⟨by rw [hplace]; rfl, hitems⟩ }
  | pushField hplace hitems =>
    exact { h with fields := forall_getElem?_push h.fields ⟨by rw [hplace]; rfl, hitems⟩ }
  | pushVar hplace hitems =>
    exact { h with vars := forall_getElem?_push h.vars ⟨by rw [hplace]; rfl, hitems⟩ }
  | growClass hgrows hitems =>
    refine { h with classes := forall_getElem?_modify h.classes ?_ }
    rintro i c ⟨hplace, hparent, hknown⟩
    obtain ⟨interfaces, methods, hchange⟩ := hgrows c
    refine ⟨?_, ?_, hitems c hknown⟩ <;> rw [hchange]
    · exact hplace
    · exact hparent
  | growMethod hgrows hitems =>
    refine { h with methods := forall_getElem?_modify h.methods ?_ }
    rintro i m ⟨hplace, hknown⟩
    obtain ⟨params, stmts, -, hchange⟩ := hgrows m
    refine ⟨?_, hitems m hknown⟩
    rw [hchange]
    exact hplace
  | addEntry hknown =>
    refine { h with entries := ?_ }
    intro entry hentry
    rcases List.mem_append.mp hentry with hold | hnew
    · exact h.entries entry hold
    · rwa [List.mem_singleton.mp hnew]

theorem Arranged.extends (h : old.Arranged known)
    (hextended : ReflTransGen (Extended known) old new) : new.Arranged known := by
  induction hextended with
  | refl => exact h
  | tail _ hlast ih => exact ih.extend hlast

/-- The chain of superclasses goes down in the table, and so it ends. -/
theorem Arranged.rooted (h : listing.Arranged known) {c : Class} (hc : c ∈ listing.classes) :
    listing.Rooted c := by
  obtain ⟨position, hposition⟩ := Array.mem_iff_getElem?.mp hc
  clear hc
  induction position using Nat.strongRecOn generalizing c with
  | ind position ih =>
    cases hsuper : c.superClass with
    | none => exact ⟨c, .refl, hsuper⟩
    | some parent =>
      have hlt : parent.index < position := (h.classes position c hposition).2.1 parent hsuper
      have hsize : position < listing.classes.size := (Array.getElem?_eq_some_iff.mp hposition).1
      have hparent := Array.getElem?_eq_getElem (Nat.lt_trans hlt hsize)
      obtain ⟨root, hreach, hroot⟩ := ih parent.index hlt hparent
      exact ⟨root, .head ⟨parent, hsuper, hparent⟩ hreach, hroot⟩

/-- A listing that holds what it names is well formed up to its entry methods, its branches and
the receivers of its calls. -/
theorem Arranged.wellFormed_iff (h : listing.Arranged known)
    (hrange : ∀ item ∈ known, item.InRange listing) :
    listing.WellFormed ↔ listing.entries ≠ [] ∧
      ∀ method ∈ listing.methods, ∀ stmt ∈ method.stmts,
        (∀ target ∈ stmt.targets, target < method.stmts.size) ∧ ¬ stmt.LacksReceiver := by
  have hitems : ∀ {items : List Item}, items ⊆ known → ∀ item ∈ items, item.InRange listing :=
    fun hsub item hitem => hrange item (hsub hitem)
  constructor
  · intro hwell
    refine ⟨hwell.started, fun method hmethod => ?_⟩
    obtain ⟨i, hi⟩ := Array.mem_iff_getElem?.mp hmethod
    exact (Method.fits_iff.mp (hwell.methods i method hi)).2.2
  · rintro ⟨hstarted, hstmts⟩
    refine ⟨hstarted, fun entry hentry => hrange _ (h.entries entry hentry), ?_,
      fun c hc => h.rooted hc, ?_, ?_, ?_⟩
    · intro i c hc
      exact Class.fits_iff.mpr ⟨(h.classes i c hc).1, hitems (h.classes i c hc).2.2⟩
    · intro i field hfield
      exact Field.fits_iff.mpr ((h.fields i field hfield).imp_right hitems)
    · intro i var hvar
      exact Var.fits_iff.mpr ((h.vars i var hvar).imp_right hitems)
    · intro i method hmethod
      obtain ⟨hplace, hknown⟩ := h.methods i method hmethod
      exact Method.fits_iff.mpr ⟨hplace, hitems hknown,
        hstmts method (Array.mem_iff_getElem?.mpr ⟨i, hmethod⟩)⟩

end Listing

end ObjectFlow
