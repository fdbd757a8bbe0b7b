import Mathlib.Logic.Relation
import ObjectFlow.CallGraph.Hierarchy
import ObjectFlow.Proofs.Program.Size

/-!
# The class hierarchy

The index lists, for every class, the classes right below it: those that name it as their
superclass, or as one of their interfaces.  `Below` is the order that these links span.
-/

namespace ObjectFlow

namespace Class

/-- The superclass of a class, linked to the class. -/
def superLinks (c : Class) : List (ClassId × ClassId) := c.superClass.toList.map (·, c.id)

/-- What an interface extends, linked to the interface. -/
def subinterfaceLinks (c : Class) : List (ClassId × ClassId) :=
  if c.isInterface then c.interfaces.map (·, c.id) else []

/-- What a class implements, linked to the class. -/
def implementorLinks (c : Class) : List (ClassId × ClassId) :=
  if c.isInterface then [] else c.interfaces.map (·, c.id)

end Class

namespace Index

/-- Enters the child of every link under its parent. -/
def addLinks (table : Array (List ClassId)) (links : List (ClassId × ClassId)) :
    Array (List ClassId) :=
  links.foldl (fun table link => append table link.1 link.2) table

theorem addLinks_append (table : Array (List ClassId)) (links more : List (ClassId × ClassId)) :
    addLinks table (links ++ more) = addLinks (addLinks table links) more :=
  List.foldl_append

theorem getElem?_addLinks (table : Array (List ClassId)) (links : List (ClassId × ClassId))
    (parent : ClassId) :
    (addLinks table links)[parent.index]? = table[parent.index]?.map
      (· ++ (links.filter fun link => link.1 = parent).map Prod.snd) := by
  induction links generalizing table with
  | nil => simp [addLinks]
  | cons link links ih =>
    have hstep : addLinks table (link :: links) =
        addLinks (append table link.1 link.2) links := rfl
    rw [hstep, ih]
    by_cases hsame : link.1 = parent
    · subst hsame
      simp only [append, Array.getElem?_modify, if_true, Option.map_map]
      congr 1
      funext row
      simp
    · have hindex : ¬ link.1.index = parent.index := fun h => hsame (Handle.ext h)
      simp [append, hsame, Array.getElem?_modify, hindex]

theorem foldl_addInterface (c : Class) (parents : List ClassId) (index : Index) :
    parents.foldl (addInterface c) index =
      if c.isInterface then
        { index with
          subinterfaces := addLinks index.subinterfaces (parents.map (·, c.id)) }
      else
        { index with implementors := addLinks index.implementors (parents.map (·, c.id)) } := by
  induction parents generalizing index with
  | nil => cases c.isInterface <;> rfl
  | cons parent parents ih =>
    rw [List.foldl_cons, ih]
    cases hkind : c.isInterface <;> simp [addInterface, hkind, addLinks]

theorem addClass_eq (index : Index) (c : Class) :
    addClass index c =
      { index with
        subclasses := addLinks index.subclasses c.superLinks
        subinterfaces := addLinks index.subinterfaces c.subinterfaceLinks
        implementors := addLinks index.implementors c.implementorLinks } := by
  unfold addClass
  rw [foldl_addInterface]
  cases hparent : c.superClass <;> cases hkind : c.isInterface <;>
    simp [Class.superLinks, Class.subinterfaceLinks, Class.implementorLinks, hparent, hkind,
      addLinks]

theorem foldl_addClass_eq (classes : List Class) (index : Index) :
    classes.foldl addClass index =
      { index with
        subclasses := addLinks index.subclasses (classes.flatMap Class.superLinks)
        subinterfaces := addLinks index.subinterfaces (classes.flatMap Class.subinterfaceLinks)
        implementors := addLinks index.implementors (classes.flatMap Class.implementorLinks) } := by
  induction classes generalizing index with
  | nil => rfl
  | cons c classes ih =>
    rw [List.foldl_cons, ih, addClass_eq]
    simp only [List.flatMap_cons, addLinks_append]

/-- The tables that the classes fill. -/
def hierarchy (index : Index) :
    Array (List ClassId) × Array (List ClassId) × Array (List ClassId) :=
  (index.subclasses, index.subinterfaces, index.implementors)

theorem hierarchy_addStmt (index : Index) (item : Site × Stmt) :
    hierarchy (addStmt index item) = hierarchy index := by
  obtain ⟨site, stmt⟩ := item
  cases stmt with
  | loadField lhs base field => cases base <;> rfl
  | storeField base field rhs => cases base <;> rfl
  | invoke call =>
    simp only [addStmt]
    cases call.base <;> rfl
  | ret value => cases value <;> rfl
  | _ => rfl

end Index

namespace Program

variable {program : Program} {parent child above below root : ClassId} {c : Class}

/-- The hierarchy in the index of a program is that of its classes. -/
theorem hierarchy_index (program : Program) :
    Index.hierarchy program.index =
      (Index.addLinks (Array.replicate program.listing.classes.size [])
          (program.listing.classes.toList.flatMap Class.superLinks),
        Index.addLinks (Array.replicate program.listing.classes.size [])
          (program.listing.classes.toList.flatMap Class.subinterfaceLinks),
        Index.addLinks (Array.replicate program.listing.classes.size [])
          (program.listing.classes.toList.flatMap Class.implementorLinks)) := by
  rw [program.index_eq, Index.ofListing, ← Array.foldl_toList,
    Index.foldl_addMethod Index.hierarchy (fun tables _ => tables) Index.hierarchy_addStmt
      (fun _ _ => rfl), List.foldl_fixed, ← Array.foldl_toList, Index.foldl_addClass_eq]
  rfl

/-- A row of a table that links of the classes fill, when every link comes from a parent of
its class. -/
theorem row_eq {table : Array (List ClassId)} {links : Class → List (ClassId × ClassId)}
    (htable : table = Index.addLinks (Array.replicate program.listing.classes.size [])
      (program.listing.classes.toList.flatMap links))
    (hlinks : ∀ c, ∀ link ∈ links c, link.1 ∈ c.superClass.toList ++ c.interfaces)
    (parent : ClassId) :
    table[parent.index]?.getD [] =
      ((program.listing.classes.toList.flatMap links).filter fun link => link.1 = parent).map
        Prod.snd := by
  rw [htable, Index.getElem?_addLinks]
  by_cases hlt : parent.index < program.listing.classes.size
  · simp [hlt]
  · have hnone : ((program.listing.classes.toList.flatMap links).filter
        fun link => link.1 = parent) = [] := by
      rw [List.filter_eq_nil_iff]
      intro link hlink hparent
      obtain ⟨c, hc, hlink⟩ := List.mem_flatMap.mp hlink
      have hclass := getClass_eq_ok_iff.mp (mem_classes_iff.mp hc)
      have hparent : link.1 = parent := by simpa using hparent
      exact hlt (hparent ▸ program.inRange.parent hclass _ (hlinks c link hlink))
    simp [hlt, hnone]

theorem subclasses_eq (program : Program) (parent : ClassId) :
    program.subclasses parent =
      ((program.listing.classes.toList.flatMap Class.superLinks).filter
        fun link => link.1 = parent).map Prod.snd := by
  apply row_eq (congrArg Prod.fst program.hierarchy_index)
  intro c link hlink
  obtain ⟨parent, hparent, rfl⟩ := List.mem_map.mp hlink
  exact List.mem_append_left _ hparent

theorem subinterfaces_eq (program : Program) (parent : ClassId) :
    program.subinterfaces parent =
      ((program.listing.classes.toList.flatMap Class.subinterfaceLinks).filter
        fun link => link.1 = parent).map Prod.snd := by
  apply row_eq (congrArg (·.2.1) program.hierarchy_index)
  intro c link hlink
  unfold Class.subinterfaceLinks at hlink
  split at hlink
  · obtain ⟨parent, hparent, rfl⟩ := List.mem_map.mp hlink
    exact List.mem_append_right _ hparent
  · cases hlink

theorem implementors_eq (program : Program) (parent : ClassId) :
    program.implementors parent =
      ((program.listing.classes.toList.flatMap Class.implementorLinks).filter
        fun link => link.1 = parent).map Prod.snd := by
  apply row_eq (congrArg (·.2.2) program.hierarchy_index)
  intro c link hlink
  unfold Class.implementorLinks at hlink
  split at hlink
  · cases hlink
  · obtain ⟨parent, hparent, rfl⟩ := List.mem_map.mp hlink
    exact List.mem_append_right _ hparent

/-- A class stands in the row of a parent when one of its links says so. -/
theorem mem_links_iff {links : Class → List (ClassId × ClassId)}
    (hchild : ∀ c, ∀ link ∈ links c, link.2 = c.id) :
    child ∈ ((program.listing.classes.toList.flatMap links).filter
        fun link => link.1 = parent).map Prod.snd ↔
      ∃ c, program.getClass child = .ok c ∧ (parent, child) ∈ links c := by
  simp only [List.mem_map, List.mem_filter, List.mem_flatMap, decide_eq_true_eq]
  constructor
  · rintro ⟨⟨_, _⟩, ⟨⟨c, hc, hlink⟩, rfl⟩, rfl⟩
    obtain rfl : _ = c.id := hchild c _ hlink
    exact ⟨c, mem_classes_iff.mp hc, hlink⟩
  · rintro ⟨c, hc, hlink⟩
    obtain rfl := id_of_getClass hc
    exact ⟨_, ⟨⟨c, mem_classes_iff.mpr hc, hlink⟩, rfl⟩, rfl⟩

theorem mem_subclasses_iff :
    child ∈ program.subclasses parent ↔
      ∃ c, program.getClass child = .ok c ∧ c.superClass = some parent := by
  rw [subclasses_eq, mem_links_iff (by simp [Class.superLinks])]
  refine exists_congr fun c => and_congr_right fun hc => ?_
  simp [Class.superLinks, id_of_getClass hc]

theorem mem_subinterfaces_iff :
    child ∈ program.subinterfaces parent ↔
      ∃ c, program.getClass child = .ok c ∧ c.isInterface = true ∧ parent ∈ c.interfaces := by
  rw [subinterfaces_eq, mem_links_iff fun c => by cases h : c.isInterface <;>
    simp [Class.subinterfaceLinks, h]]
  refine exists_congr fun c => and_congr_right fun hc => ?_
  cases h : c.isInterface <;> simp [Class.subinterfaceLinks, h, id_of_getClass hc]

theorem mem_implementors_iff :
    child ∈ program.implementors parent ↔
      ∃ c, program.getClass child = .ok c ∧ c.isInterface = false ∧ parent ∈ c.interfaces := by
  rw [implementors_eq, mem_links_iff fun c => by cases h : c.isInterface <;>
    simp [Class.implementorLinks, h]]
  refine exists_congr fun c => and_congr_right fun hc => ?_
  cases h : c.isInterface <;> simp [Class.implementorLinks, h, id_of_getClass hc]

/-- `program.Link above below`: a class or interface stands right below another one.  Below an
interface are those that name it among their interfaces, below a class those that name it as
their superclass. -/
def Link (program : Program) (above below : ClassId) : Prop :=
  ∃ c d, program.getClass above = .ok c ∧ program.getClass below = .ok d ∧
    if c.isInterface then above ∈ d.interfaces else d.superClass = some above

/-- `program.Below root c`: a walk down the hierarchy from `root` comes to `c`. -/
def Below (program : Program) : ClassId → ClassId → Prop :=
  Relation.ReflTransGen program.Link

/-- The index finds what stands right below a class. -/
theorem mem_directSubtypes_iff (hclass : program.getClass above = .ok c) :
    below ∈ program.directSubtypes c ↔ program.Link above below := by
  have hlink : program.Link above below ↔ ∃ d, program.getClass below = .ok d ∧
      if c.isInterface then above ∈ d.interfaces else d.superClass = some above := by
    simp [Link, hclass]
  rw [hlink, directSubtypes, id_of_getClass hclass]
  cases c.isInterface with
  | false => simpa using mem_subclasses_iff
  | true =>
    simp only [if_true, List.mem_append, mem_subinterfaces_iff, mem_implementors_iff]
    constructor
    · rintro (⟨d, hd, -, hparent⟩ | ⟨d, hd, -, hparent⟩) <;> exact ⟨d, hd, hparent⟩
    · rintro ⟨d, hd, hparent⟩
      cases hkind : d.isInterface with
      | false => exact .inr ⟨d, hd, hkind, hparent⟩
      | true => exact .inl ⟨d, hd, hkind, hparent⟩

theorem Below.index_lt (h : program.Below root below)
    (hroot : root.index < program.listing.classes.size) :
    below.index < program.listing.classes.size := by
  cases h with
  | refl => exact hroot
  | tail _ hlink =>
    obtain ⟨_, _, -, hbelow, -⟩ := hlink
    exact lt_of_getClass hbelow

/-- No more classes stand right below a class than the program has links. -/
theorem length_directSubtypes_le (program : Program) (c : Class) :
    (program.directSubtypes c).length ≤ program.listing.size := by
  have hsuper : ∀ classes : List Class,
      (classes.flatMap Class.superLinks).length ≤ classes.length := by
    intro classes
    induction classes with
    | nil => simp
    | cons c classes ih =>
      cases hparent : c.superClass <;> simp [Class.superLinks, hparent] at ih ⊢ <;> omega
  have hinterfaces : ∀ classes : List Class,
      (classes.flatMap Class.subinterfaceLinks).length +
          (classes.flatMap Class.implementorLinks).length =
        (classes.flatMap Class.interfaces).length := by
    intro classes
    induction classes with
    | nil => rfl
    | cons c classes ih =>
      cases hkind : c.isInterface <;>
        simp [Class.subinterfaceLinks, Class.implementorLinks, hkind] at ih ⊢ <;> omega
  have hrow : ∀ links : List (ClassId × ClassId),
      ((links.filter fun link => link.1 = c.id).map Prod.snd).length ≤ links.length := by
    intro links
    rw [List.length_map]
    exact List.length_filter_le _ _
  unfold directSubtypes
  split
  · have hsub := hrow (program.listing.classes.toList.flatMap Class.subinterfaceLinks)
    have himpl := hrow (program.listing.classes.toList.flatMap Class.implementorLinks)
    have hsum := hinterfaces program.listing.classes.toList
    rw [List.length_append, subinterfaces_eq, implementors_eq]
    unfold Listing.size
    omega
  · have hsub := hrow (program.listing.classes.toList.flatMap Class.superLinks)
    have hlength := hsuper program.listing.classes.toList
    rw [Array.length_toList] at hlength
    rw [subclasses_eq]
    exact hsub.trans (hlength.trans program.measured.classes)

end Program

end ObjectFlow
