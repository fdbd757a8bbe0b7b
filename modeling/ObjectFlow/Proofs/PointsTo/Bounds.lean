import Mathlib.Algebra.Order.Ring.Nat
import Mathlib.Data.Finset.Prod
import Mathlib.Tactic.Linarith
import Mathlib.Tactic.Ring
import ObjectFlow.Proofs.PointsTo.Coverage
import ObjectFlow.Proofs.Program.Size

/-!
# How large the tables can get

A run creates no more contexts than there are short sequences of parts, and no more
objects, pointers, reachable methods and calls than these contexts allow.  All of these
numbers are below a power of `bound`, which is itself a power of two: the loops of the
solver make fewer steps than their bounds allow.
-/

namespace ObjectFlow

/-- An interner is no larger than a finite set that holds its values, as far as their
codes tell them apart. -/
theorem Interner.size_le_card {α β : Type} [Key α] [DecidableEq β] {interner : Interner α}
    (f : α → β) (hcode : ∀ a b, f a = f b → code a = code b) {values : Finset β}
    (hmem : ∀ a ∈ interner.items, f a ∈ values) : interner.size ≤ values.card := by
  have hnodup : (interner.toList.map f).Nodup := by
    rw [List.nodup_map_iff_inj_on interner.nodup_toList]
    intro a ha b hb heq
    obtain ⟨n, hn⟩ := List.mem_iff_getElem?.mp ha
    obtain ⟨m, hm⟩ := List.mem_iff_getElem?.mp hb
    have hitem : interner.items[n]? = some a := by simpa [Interner.toList] using hn
    have hitem' : interner.items[m]? = some b := by simpa [Interner.toList] using hm
    rw [Interner.number_unique hitem hitem' (hcode a b heq), hitem'] at hitem
    exact (Option.some.inj hitem).symm
  have hvalues : ∀ b ∈ interner.toList.map f, b ∈ values := by
    intro b hb
    obtain ⟨a, ha, rfl⟩ := List.mem_map.mp hb
    exact hmem a (by simpa [Interner.toList] using ha)
  simpa [Interner.toList, Interner.size] using Program.length_le_of_forall_mem hnodup hvalues

namespace PointsTo

/-- The sequences of at most `length` letters. -/
def words {α : Type} [DecidableEq α] (letters : Finset α) : Nat → Finset (List α)
  | 0 => {[]}
  | length + 1 => insert [] ((letters ×ˢ words letters length).image fun (a, word) => a :: word)

theorem mem_words {α : Type} [DecidableEq α] {letters : Finset α} {length : Nat} {word : List α}
    (hlength : word.length ≤ length) (hletters : ∀ a ∈ word, a ∈ letters) :
    word ∈ words letters length := by
  induction length generalizing word with
  | zero =>
    rw [List.eq_nil_of_length_eq_zero (Nat.le_zero.mp hlength)]
    simp [words]
  | succ length ih =>
    cases word with
    | nil => simp [words]
    | cons a word =>
      refine Finset.mem_insert_of_mem (Finset.mem_image.mpr ⟨(a, word), ?_, rfl⟩)
      rw [Finset.mem_product]
      exact ⟨hletters a List.mem_cons_self,
        ih (Nat.le_of_succ_le_succ hlength) fun b hb => hletters b (List.mem_cons_of_mem a hb)⟩

/-- With a letter for the end, a sequence of at most `length` letters has exactly that many. -/
theorem card_words_le {α : Type} [DecidableEq α] (letters : Finset α) (length : Nat) :
    (words letters length).card ≤ (letters.card + 1) ^ length := by
  induction length with
  | zero => simp [words]
  | succ length ih =>
    calc (words letters (length + 1)).card
        ≤ (letters ×ˢ words letters length).card + 1 :=
          (Finset.card_insert_le _ _).trans (Nat.add_le_add_right Finset.card_image_le 1)
      _ ≤ letters.card * (letters.card + 1) ^ length + (letters.card + 1) ^ length := by
          rw [Finset.card_product]
          exact Nat.add_le_add (Nat.mul_le_mul_left _ ih) (Nat.one_le_pow _ _ (Nat.succ_pos _))
      _ = (letters.card + 1) ^ (length + 1) := by ring

/-- A number that is larger than any table of a run. -/
def bound (program : Program) (policy : Policy) : Nat :=
  2 ^ ((policy.strategy.depth + 2) * (program.listing.size + 2))

theorem two_pow_rounds (program : Program) (policy : Policy) :
    2 ^ rounds program policy = bound program policy ^ 16 := by
  rw [bound, rounds, ← pow_mul]
  congr 1
  ring

namespace State

variable {program : Program} {policy : Policy} {state : State} {stack : List Task}

theorem Orderly.heap_size_le (h : state.Orderly program policy) :
    state.heap.size ≤ program.listing.sites.length := by
  have hcard : state.heap.objects.size ≤ (program.listing.sites.map Prod.fst).toFinset.card := by
    refine Interner.size_le_card Obj.alloc (fun a b heq => by simp [code, heq]) ?_
    intro obj hobj
    obtain ⟨lhs, hstmt⟩ := h.objects obj hobj
    rw [List.mem_toFinset, List.mem_map]
    exact ⟨_, Program.mem_listing_sites_iff.mpr hstmt, rfl⟩
  refine hcard.trans ((List.toFinset_card_le _).trans ?_)
  rw [List.length_map]

/-- The parts that a context may have. -/
def letters (program : Program) : Finset ContextElem :=
  (program.listing.sites.map fun item => .callSite item.1).toFinset ∪
    ((handlesBelow .objects program.listing.sites.length).image .object ∪
      (handlesBelow .classes program.listing.classes.size).image .type)

theorem card_letters_le (program : Program) :
    (letters program).card ≤ 2 * program.listing.size := by
  have hsites : ((program.listing.sites.map fun item =>
      ContextElem.callSite item.1).toFinset).card ≤ program.listing.sites.length :=
    (List.toFinset_card_le _).trans (by rw [List.length_map])
  have hobjects : ((handlesBelow .objects program.listing.sites.length).image
      ContextElem.object).card ≤ program.listing.sites.length :=
    Finset.card_image_le.trans (card_handlesBelow_le _ _)
  have hclasses : ((handlesBelow .classes program.listing.classes.size).image
      ContextElem.type).card ≤ program.listing.classes.size :=
    Finset.card_image_le.trans (card_handlesBelow_le _ _)
  have hunion := Finset.card_union_le
    ((program.listing.sites.map fun item => ContextElem.callSite item.1).toFinset)
    ((handlesBelow .objects program.listing.sites.length).image ContextElem.object ∪
      (handlesBelow .classes program.listing.classes.size).image ContextElem.type)
  have hunion' := Finset.card_union_le
    ((handlesBelow .objects program.listing.sites.length).image ContextElem.object)
    ((handlesBelow .classes program.listing.classes.size).image ContextElem.type)
  have hsum : program.listing.sites.length + program.listing.classes.size ≤
      program.listing.size := by
    unfold Listing.size
    omega
  have hsize := program.measured.sites
  unfold letters
  omega

theorem Orderly.contexts_size_le (h : state.Orderly program policy) :
    state.contexts.size ≤ (2 * program.listing.size + 1) ^ policy.strategy.depth := by
  have hcard : state.contexts.table.size ≤
      (words (letters program) policy.strategy.depth).card := by
    refine Interner.size_le_card id (fun _ _ heq => congrArg code heq) ?_
    intro parts hparts
    obtain ⟨hlength, helems⟩ := h.contexts parts hparts
    refine mem_words hlength fun elem helem => ?_
    obtain ⟨mark, hreads, hrange⟩ := helems elem helem
    cases hreads with
    | callSite site =>
      obtain ⟨stmt, hstmt⟩ := hrange
      refine Finset.mem_union_left _ (List.mem_toFinset.mpr (List.mem_map.mpr ?_))
      exact ⟨(site, stmt), Program.mem_listing_sites_iff.mpr hstmt, rfl⟩
    | object hobj =>
      refine Finset.mem_union_right _ (Finset.mem_union_left _
        (Finset.mem_image_of_mem _ (mem_handlesBelow.mpr ?_)))
      exact Nat.lt_of_lt_of_le (Interner.lt_size_of_getElem? hobj) h.heap_size_le
    | type id =>
      exact Finset.mem_union_right _ (Finset.mem_union_right _
        (Finset.mem_image_of_mem _ (mem_handlesBelow.mpr hrange)))
  refine hcard.trans ((card_words_le _ _).trans ?_)
  exact Nat.pow_le_pow_left (Nat.add_le_add_right (card_letters_le program) 1) _

theorem Orderly.csObjects_size_le (h : state.Orderly program policy) :
    state.csObjects.size ≤ state.contexts.size * program.listing.size := by
  have hcard : state.csObjects.size ≤ (handlesBelow .contexts state.contexts.size ×ˢ
      handlesBelow .objects program.listing.sites.length).card := by
    refine Interner.size_le_card (fun object => (object.context, object.object)) ?_ ?_
    · intro a b heq
      have hcontext := congrArg Prod.fst heq
      have hobject := congrArg Prod.snd heq
      simp only at hcontext hobject
      simp [code, hcontext, hobject]
    · intro object hobject
      obtain ⟨hcontext, hheap⟩ := h.csObjects object hobject
      exact Finset.mem_product.mpr ⟨mem_handlesBelow.mpr hcontext,
        mem_handlesBelow.mpr (Nat.lt_of_lt_of_le hheap h.heap_size_le)⟩
  refine hcard.trans ?_
  rw [Finset.card_product]
  exact Nat.mul_le_mul (card_handlesBelow_le _ _)
    ((card_handlesBelow_le _ _).trans program.measured.sites)

theorem ReadsContext.index_lt {context : ContextId} {trail : Trail}
    (h : state.ReadsContext context trail) : context.index < state.contexts.size := by
  obtain ⟨parts, hparts, -⟩ := h
  exact Interner.lt_size_of_getElem? hparts

theorem ReadsObject.index_lt {object : CsObjId} {origin : Origin}
    (h : state.ReadsObject object origin) : object.index < state.csObjects.size := by
  obtain ⟨csObject, obj, hobject, -⟩ := h
  exact Interner.lt_size_of_getElem? hobject

/-- The places of a run that can be read. -/
def places (program : Program) (state : State) : Finset Pointer :=
  ((handlesBelow .contexts state.contexts.size ×ˢ handlesBelow .vars program.listing.size).image
      fun (context, v) => Place.var context v) ∪
    (((handlesBelow .fields program.listing.size).image Place.staticField) ∪
      (((handlesBelow .contextObjects state.csObjects.size ×ˢ
          handlesBelow .fields program.listing.size).image
          fun (object, field) => Place.instanceField object field) ∪
        (handlesBelow .contextObjects state.csObjects.size).image Place.arraySlots))

theorem card_places_le (program : Program) (state : State) :
    (places program state).card ≤ state.contexts.size * program.listing.size +
      (program.listing.size +
        (state.csObjects.size * program.listing.size + state.csObjects.size)) := by
  refine (Finset.card_union_le _ _).trans (Nat.add_le_add ?_ ((Finset.card_union_le _ _).trans
    (Nat.add_le_add ?_ ((Finset.card_union_le _ _).trans (Nat.add_le_add ?_ ?_))))) <;>
    refine Finset.card_image_le.trans ?_
  · rw [Finset.card_product]
    exact Nat.mul_le_mul (card_handlesBelow_le _ _) (card_handlesBelow_le _ _)
  · exact card_handlesBelow_le _ _
  · rw [Finset.card_product]
    exact Nat.mul_le_mul (card_handlesBelow_le _ _) (card_handlesBelow_le _ _)
  · exact card_handlesBelow_le _ _

theorem ReadablePlace.mem_places {p : Pointer} (h : state.ReadablePlace program p) :
    p ∈ places program state := by
  obtain ⟨place, hreads, hrange⟩ := h
  unfold places
  simp only [Finset.mem_union, Finset.mem_image, Finset.mem_product, mem_handlesBelow, Prod.exists]
  cases hreads with
  | var hcontext v =>
    exact .inl ⟨_, v, ⟨hcontext.index_lt, Nat.lt_of_lt_of_le hrange program.measured.vars⟩, rfl⟩
  | staticField field =>
    exact .inr (.inl ⟨field, Nat.lt_of_lt_of_le hrange program.measured.fields, rfl⟩)
  | instanceField hobject field =>
    exact .inr (.inr (.inl ⟨_, field, ⟨hobject.index_lt,
      Nat.lt_of_lt_of_le hrange program.measured.fields⟩, rfl⟩))
  | arraySlots hobject => exact .inr (.inr (.inr ⟨_, hobject.index_lt, rfl⟩))

theorem Orderly.pointers_size_le (h : state.Orderly program policy) :
    state.pointers.names.size ≤ (places program state).card :=
  Interner.size_le_card id (fun _ _ heq => congrArg code heq)
    fun p hp => (h.pointers p hp).mem_places

/-- The methods that can be reachable. -/
def methods (program : Program) (state : State) : Finset (ContextId × MethodId) :=
  handlesBelow .contexts state.contexts.size ×ˢ handlesBelow .methods program.listing.size

theorem card_methods_le (program : Program) (state : State) :
    (methods program state).card ≤ state.contexts.size * program.listing.size := by
  rw [methods, Finset.card_product]
  exact Nat.mul_le_mul (card_handlesBelow_le _ _) (card_handlesBelow_le _ _)

theorem Invariant.reachable_size_le (h : state.Invariant program policy stack) :
    state.calls.reachable.size ≤ state.contexts.size * program.listing.size := by
  refine (Interner.size_le_card (fun method => (method.context, method.method)) ?_ ?_).trans
    (card_methods_le program state)
  · intro a b heq
    have hcontext := congrArg Prod.fst heq
    have hmethod := congrArg Prod.snd heq
    simp only at hcontext hmethod
    simp [code, hcontext, hmethod]
  · intro method hmethod
    obtain ⟨trail, hcontext, hderives⟩ :=
      (h.justified _ (holds_reachable_iff.mpr hmethod)).reachable
    have hlt : method.method.index < program.listing.methods.size := hderives.inRange
    exact Finset.mem_product.mpr ⟨mem_handlesBelow.mpr hcontext.index_lt,
      mem_handlesBelow.mpr (Nat.lt_of_lt_of_le hlt program.measured.methods)⟩

theorem Invariant.edges_size_le (h : state.Invariant program policy stack) :
    state.calls.edges.size ≤ (state.contexts.size * program.listing.size) *
      (state.contexts.size * program.listing.size) := by
  have hcard : state.calls.edges.size ≤ ((handlesBelow .contexts state.contexts.size ×ˢ
      (program.listing.sites.map Prod.fst).toFinset) ×ˢ methods program state).card := by
    refine Interner.size_le_card (fun edge => ((edge.site.context, edge.site.site),
      (edge.callee.context, edge.callee.method))) ?_ ?_
    · rintro ⟨kind, ⟨c, s⟩, ⟨d, m⟩⟩ ⟨kind', ⟨c', s'⟩, ⟨d', m'⟩⟩ heq
      cases heq
      rfl
    · rintro ⟨kind, ⟨c, s⟩, ⟨d, m⟩⟩ hedge
      obtain ⟨trail, trail', hcontext, hselected, hderives⟩ :=
        (h.justified _ (holds_calls_iff.mpr hedge)).calls
      obtain ⟨hlt, call, hstmt, -⟩ := hderives.inRange
      refine Finset.mem_product.mpr
        ⟨Finset.mem_product.mpr ⟨mem_handlesBelow.mpr hcontext.index_lt, ?_⟩,
          Finset.mem_product.mpr ⟨mem_handlesBelow.mpr hselected.index_lt,
            mem_handlesBelow.mpr (Nat.lt_of_lt_of_le hlt program.measured.methods)⟩⟩
      rw [List.mem_toFinset, List.mem_map]
      exact ⟨_, Program.mem_listing_sites_iff.mpr hstmt, rfl⟩
  refine hcard.trans ?_
  rw [Finset.card_product, Finset.card_product]
  refine Nat.mul_le_mul (Nat.mul_le_mul (card_handlesBelow_le _ _) ?_)
    (card_methods_le program state)
  refine (List.toFinset_card_le _).trans ?_
  rw [List.length_map]
  exact program.measured.sites

theorem Linked.flow_size_le (h : state.Linked) :
    state.flow.edges.size ≤ state.pointers.names.size * state.pointers.names.size := by
  have hcard : state.flow.edges.size ≤ (handlesBelow .pointers state.pointers.names.size ×ˢ
      handlesBelow .pointers state.pointers.names.size).card := by
    refine Interner.size_le_card id (fun _ _ heq => congrArg code heq) ?_
    intro edge hedge
    obtain ⟨hsource, htarget⟩ := h.edge edge hedge
    exact Finset.mem_product.mpr ⟨mem_handlesBelow.mpr hsource, mem_handlesBelow.mpr htarget⟩
  refine hcard.trans ?_
  rw [Finset.card_product]
  exact Nat.mul_le_mul (card_handlesBelow_le _ _) (card_handlesBelow_le _ _)

/-- There is room for every context with a few numbers of the size of the program. -/
theorem Orderly.contexts_mul_le_bound (h : state.Orderly program policy) :
    4 * (state.contexts.size * (program.listing.size + 2) ^ 2) ≤ bound program policy := by
  have hgrow : ∀ n : Nat, n + 2 ≤ 2 ^ (n + 1) := by
    intro n
    induction n with
    | zero => simp
    | succ n ih =>
      rw [pow_succ]
      omega
  have hcontexts : state.contexts.size ≤
      2 ^ ((program.listing.size + 2) * policy.strategy.depth) := by
    rw [pow_mul]
    refine h.contexts_size_le.trans (Nat.pow_le_pow_left ?_ _)
    have hsize := hgrow program.listing.size
    rw [pow_succ]
    omega
  have hsize : 2 * (program.listing.size + 2) ≤ 2 ^ (program.listing.size + 2) := by
    have hsize := hgrow program.listing.size
    rw [pow_succ]
    omega
  calc 4 * (state.contexts.size * (program.listing.size + 2) ^ 2)
      = state.contexts.size * (2 * (program.listing.size + 2)) ^ 2 := by ring
    _ ≤ 2 ^ ((program.listing.size + 2) * policy.strategy.depth) *
        (2 ^ (program.listing.size + 2)) ^ 2 :=
      Nat.mul_le_mul hcontexts (Nat.pow_le_pow_left hsize 2)
    _ = bound program policy := by
      rw [bound, ← pow_mul, ← pow_add]
      congr 1
      ring

/-- Every table of a run is below a power of the bound. -/
structure Bounded (program : Program) (policy : Policy) (state : State) : Prop where
  size : 4 * (program.listing.size + 2) ≤ bound program policy
  csObjects : state.csObjects.size ≤ bound program policy
  /-- Even ten tasks for each pair of an object and a statement are few. -/
  uses : 10 * (state.csObjects.size * program.listing.size) ≤ bound program policy ^ 2
  pointers : state.pointers.names.size ≤ bound program policy
  flow : state.flow.edges.size ≤ bound program policy ^ 2
  found : state.calls.reachable.size + state.calls.edges.size ≤ 2 * bound program policy ^ 2

/-- The arithmetic of the bounds, for `c` contexts and `o` objects of a program of size `n`. -/
theorem room_of_contexts {c n o b : Nat} (hroot : 1 ≤ c) (hroom : 4 * (c * (n + 2) ^ 2) ≤ b)
    (hobjects : o ≤ c * n) : 4 * (n + 2) ≤ b ∧ o ≤ b ∧ 10 * (o * n) ≤ b ^ 2 ∧
      c * n + (n + (o * n + o)) ≤ b ∧ c * n + c * n * (c * n) ≤ 2 * b ^ 2 := by
  have hsize : 4 * (n + 2) ≤ b := by nlinarith
  have hpair : c * n ≤ b := by nlinarith
  have huses : o * n ≤ c * n * n := Nat.mul_le_mul_right n hobjects
  have hsquare : c * n * (c * n) ≤ b ^ 2 := by
    rw [pow_two]
    exact Nat.mul_le_mul hpair hpair
  have hsingle : 8 * b ≤ b ^ 2 := by nlinarith
  have hall : c * n + (n + (c * n * n + c * n)) ≤ b := by nlinarith
  refine ⟨hsize, hobjects.trans hpair, ?_, ?_, ?_⟩ <;> nlinarith

theorem Invariant.bounded (h : state.Invariant program policy stack) :
    state.Bounded program policy := by
  have hroot : 1 ≤ state.contexts.size := Interner.lt_size_of_getElem? state.contexts.root_eq
  obtain ⟨hsize, hobjects, huses, hplaces, hfound⟩ := room_of_contexts hroot
    h.orderly.contexts_mul_le_bound h.orderly.csObjects_size_le
  have hpointers := (h.orderly.pointers_size_le.trans (card_places_le program state)).trans hplaces
  refine ⟨hsize, hobjects, huses, hpointers, h.orderly.linked.flow_size_le.trans ?_,
    (Nat.add_le_add h.reachable_size_le h.edges_size_le).trans hfound⟩
  rw [pow_two]
  exact Nat.mul_le_mul hpointers hpointers

end State

end PointsTo

end ObjectFlow
