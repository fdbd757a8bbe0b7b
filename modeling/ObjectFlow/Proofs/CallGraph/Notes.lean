import ObjectFlow.Proofs.CallGraph.Tables

/-!
# What a call graph records

A call graph is made by notes: methods where runs start, reachable methods, and edges.  Whatever
is noted and in which order, its lists have everything that was noted once, where it first came,
and its other tables and its answers agree with the lists.
-/

namespace ObjectFlow.CallGraph

/-- What can be noted in a call graph. -/
inductive Note (σ μ : Type) where
  | entry (method : μ)
  | reachable (method : μ)
  | edge (call : CallEdge σ μ)
  deriving DecidableEq

namespace Note

variable {σ μ : Type} {item : Note σ μ}

def entry? : Note σ μ → Option μ
  | .entry method => some method
  | _ => none

def reachable? : Note σ μ → Option μ
  | .reachable method => some method
  | _ => none

def edge? : Note σ μ → Option (CallEdge σ μ)
  | .edge call => some call
  | _ => none

theorem reachable?_eq_some_iff {method : μ} :
    item.reachable? = some method ↔ item = .reachable method := by
  cases item <;> simp [reachable?]

theorem edge?_eq_some_iff {call : CallEdge σ μ} :
    item.edge? = some call ↔ item = .edge call := by
  cases item <;> simp [edge?]

end Note

variable {σ μ : Type} [Key σ] [Key μ] {graph : CallGraph σ μ} {notes : List (Note σ μ)}

/-- Takes a note, and tells whether it is new where it is about a reachable method or an edge. -/
def note (graph : CallGraph σ μ) : Note σ μ → CallGraph σ μ × Option Bool
  | .entry method => (graph.addEntry method, none)
  | .reachable method =>
    let (graph, new) := graph.noteReachable method
    (graph, some new)
  | .edge edge =>
    let (graph, new) := graph.noteEdge edge
    (graph, some new)

/-- The call graph that some notes make, taken one after another. -/
def ofNotes (notes : List (Note σ μ)) : CallGraph σ μ :=
  notes.foldl (fun graph item => (graph.note item).1) .empty

/-! ### One note -/

theorem noteReachable_eq (graph : CallGraph σ μ) (method : μ) :
    graph.noteReachable method = (graph.addReachable method, !graph.contains method) := by
  unfold noteReachable
  split
  · next hknown =>
    have hsame : graph.reachable.insert method = graph.reachable :=
      Interner.insert_of_contains hknown
    rw [addReachable, hsame, hknown]
    rfl
  · next hnew => simp [hnew]

theorem noteEdge_eq (graph : CallGraph σ μ) (edge : CallEdge σ μ) :
    graph.noteEdge edge = (graph.addEdge edge, !graph.hasEdge edge.site edge.callee) := by
  unfold noteEdge
  split
  · next hknown => simp [addEdge, hknown]
  · next hnew => simp [hnew]

theorem entries_note (graph : CallGraph σ μ) (item : Note σ μ) :
    (graph.note item).1.entries = item.entry?.elim graph.entries graph.entries.insert := by
  cases item <;> simp [note, noteReachable_eq, noteEdge_eq, Note.entry?, addEntry, addReachable]

theorem reachable_note (graph : CallGraph σ μ) (item : Note σ μ) :
    (graph.note item).1.reachable =
      item.reachable?.elim graph.reachable graph.reachable.insert := by
  cases item <;> simp [note, noteReachable_eq, noteEdge_eq, Note.reachable?, addEntry, addReachable]

theorem edges_note (graph : CallGraph σ μ) (item : Note σ μ) :
    (graph.note item).1.edges = item.edge?.elim graph.edges graph.edges.insert := by
  cases item <;> simp [note, noteReachable_eq, noteEdge_eq, Note.edge?, addEntry, addReachable]

/-- A note that is not new changes nothing. -/
theorem note_of_known {item : Note σ μ} (h : (graph.note item).2 = some false) :
    (graph.note item).1 = graph := by
  cases item with
  | entry method => cases h
  | reachable method =>
    simp only [note, noteReachable] at h ⊢
    split at h
    · next hknown => rw [if_pos hknown]
    · cases h
  | edge call =>
    simp only [note, noteEdge] at h ⊢
    split at h
    · next hknown => rw [if_pos hknown]
    · cases h

/-! ### All notes -/

/-- A table to which each note adds at most one value has in the end what all of them add. -/
theorem foldl_note {τ : Type} [Key τ] {table : CallGraph σ μ → Interner τ}
    {added : Note σ μ → Option τ} (hstep : ∀ graph item, table (graph.note item).1 =
      (added item).elim (table graph) (table graph).insert)
    (notes : List (Note σ μ)) (graph : CallGraph σ μ) :
    table (notes.foldl (fun graph item => (graph.note item).1) graph) =
      (notes.filterMap added).foldl Interner.insert (table graph) := by
  induction notes generalizing graph with
  | nil => rfl
  | cons item notes ih =>
    rw [List.foldl_cons, ih, hstep]
    cases hadded : added item with
    | none => rw [List.filterMap_cons_none hadded, Option.elim_none]
    | some value => rw [List.filterMap_cons_some hadded, Option.elim_some, List.foldl_cons]

theorem entries_ofNotes (notes : List (Note σ μ)) :
    (ofNotes notes).entries = .ofList (notes.filterMap Note.entry?) :=
  foldl_note entries_note notes .empty

theorem reachable_ofNotes (notes : List (Note σ μ)) :
    (ofNotes notes).reachable = .ofList (notes.filterMap Note.reachable?) :=
  foldl_note reachable_note notes .empty

theorem edges_ofNotes (notes : List (Note σ μ)) :
    (ofNotes notes).edges = .ofList (notes.filterMap Note.edge?) :=
  foldl_note edges_note notes .empty

theorem contains_ofNotes_iff [LawfulKey μ] {method : μ} :
    (ofNotes notes).contains method = true ↔ .reachable method ∈ notes := by
  rw [contains, reachable_ofNotes, Interner.contains_iff_exists_code,
    Interner.exists_code_ofList_iff]
  simp only [LawfulKey.code_inj, exists_eq_right, List.mem_filterMap, Note.reachable?_eq_some_iff]

/-- There is an edge between two ends when one was noted, of whatever kind. -/
theorem hasEdge_ofNotes_iff [LawfulKey σ] [LawfulKey μ] {site : σ} {callee : μ} :
    (ofNotes notes).hasEdge site callee = true ↔
      ∃ call, .edge call ∈ notes ∧ call.ends = (site, callee) := by
  rw [hasEdge, edges_ofNotes, Interner.isSome_findCode?_iff, Interner.exists_code_ofList_iff]
  simp only [CallEdge.code_eq, LawfulKey.code_inj, List.mem_filterMap, Note.edge?_eq_some_iff,
    exists_eq_right]

variable [DecidableEq σ] [DecidableEq μ]

/-- What the tables of a call graph hold after some notes, and what it answers then. -/
structure Records (notes : List (Note σ μ)) (graph : CallGraph σ μ) : Prop where
  entries : graph.entries.toList = (notes.filterMap Note.entry?).eraseDups
  reachable : graph.reachable.toList = (notes.filterMap Note.reachable?).eraseDups
  /-- Of several edges between two ends the first one stays, whatever their kinds are. -/
  edges : graph.edges.toList =
    (notes.filterMap Note.edge?).eraseDupsBy fun later first => later.ends = first.ends
  nodup_entries : graph.entries.toList.Nodup
  nodup_reachable : graph.reachable.toList.Nodup
  nodup_ends : (graph.edges.toList.map CallEdge.ends).Nodup
  contains : ∀ method, graph.contains method = true ↔ method ∈ graph.reachable.toList
  hasEdge : ∀ site callee, graph.hasEdge site callee = true ↔
    (site, callee) ∈ graph.edges.toList.map CallEdge.ends
  callees : ∀ site, graph.calleesOf site =
    (graph.edges.toList.filter fun edge => edge.site = site).map CallEdge.callee
  callers : ∀ method, graph.callersOf method =
    (graph.edges.toList.filter fun edge => edge.callee = method).map CallEdge.site
  /-- A reachable method is new until it is noted. -/
  new_reachable : ∀ method, (graph.noteReachable method).2 = true ↔ .reachable method ∉ notes
  /-- An edge is new until one with its ends is noted. -/
  new_edge : ∀ edge, (graph.noteEdge edge).2 = true ↔
    ∀ call, .edge call ∈ notes → call.ends ≠ edge.ends
  /-- What is told not to be new leaves all tables as they are. -/
  known : ∀ item, (graph.note item).2 = some false → (graph.note item).1 = graph

/-- Whatever is noted and in which order, the tables of a call graph stay consistent. -/
theorem ofNotes_records [LawfulKey σ] [LawfulKey μ] (notes : List (Note σ μ)) :
    Records notes (ofNotes notes) where
  entries := by
    rw [entries_ofNotes, Interner.toList_ofList_of_lawful]
  reachable := by
    rw [reachable_ofNotes, Interner.toList_ofList_of_lawful]
  edges := by
    rw [edges_ofNotes, Interner.toList_ofList]
    congr
    funext later first
    rw [Bool.eq_iff_iff, beq_iff_eq, decide_eq_true_eq, CallEdge.code_inj]
  nodup_entries := Interner.nodup_toList _
  nodup_reachable := Interner.nodup_toList _
  nodup_ends := nodup_ends _
  contains method := by
    rw [CallGraph.contains, Interner.contains_iff, Interner.toList, Array.mem_toList_iff]
  hasEdge _ _ := hasEdge_iff_mem_ends
  callees := calleesOf_eq _
  callers := callersOf_eq _
  new_reachable method := by
    rw [noteReachable_eq, Bool.not_eq_true', ← Bool.not_eq_true, contains_ofNotes_iff]
  new_edge edge := by
    rw [noteEdge_eq, Bool.not_eq_true', ← Bool.not_eq_true, hasEdge_ofNotes_iff]
    push Not
    rfl
  known _ := note_of_known

/-- Two sites with a common callee, one of which has a second callee.  Some methods and ends are
noted again, the ends also with another kind. -/
def fanNotes : List (Note Nat Nat) :=
  [.entry 0, .edge ⟨.static, 1, 10⟩, .reachable 5, .edge ⟨.virtual, 1, 10⟩,
    .edge ⟨.special, 2, 10⟩, .entry 9, .edge ⟨.virtual, 1, 11⟩, .reachable 0, .entry 0,
    .reachable 5, .edge ⟨.special, 2, 10⟩]

theorem ofNotes_records_fan :
    (ofNotes fanNotes).edges.toList =
        [⟨.static, 1, 10⟩, ⟨.special, 2, 10⟩, ⟨.virtual, 1, 11⟩] ∧
      (ofNotes fanNotes).calleesOf 1 = [10, 11] ∧ (ofNotes fanNotes).callersOf 10 = [1, 2] ∧
      ((ofNotes fanNotes).noteEdge ⟨.interface, 1, 11⟩).2 = false ∧
      ((ofNotes fanNotes).noteEdge ⟨.interface, 2, 11⟩).2 = true := by
  have hrecords := ofNotes_records fanNotes
  have hedges : (ofNotes fanNotes).edges.toList =
      [⟨.static, 1, 10⟩, ⟨.special, 2, 10⟩, ⟨.virtual, 1, 11⟩] :=
    hrecords.edges.trans (by decide)
  refine ⟨hedges, ?_, ?_, ?_, (hrecords.new_edge _).mpr (by simp [fanNotes, CallEdge.ends])⟩
  · rw [hrecords.callees, hedges]
    decide
  · rw [hrecords.callers, hedges]
    decide
  · rw [Bool.eq_false_iff, Ne, hrecords.new_edge]
    exact fun hnone => hnone ⟨.virtual, 1, 11⟩ (by decide) rfl

end ObjectFlow.CallGraph
