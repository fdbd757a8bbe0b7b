import Mathlib.Data.List.Nodup
import ObjectFlow.Json.Decoder
import ObjectFlow.Proofs.Json.Printer

/-!
# What was read is read again

A decoder accepts several spellings of a value, and an encoder writes one of them.  The encoder
is right for the decoder when whatever the decoder has read, it also reads from what the encoder
writes, and without opening more containers one inside the other.
-/

namespace ObjectFlow.Json

variable {α β : Type}

section Lists

theorem mapM_eq_some_map {f : α → Option β} {g : α → β} {items : List α}
    (h : ∀ item ∈ items, f item = some (g item)) : items.mapM f = some (items.map g) := by
  induction items with
  | nil => rfl
  | cons item items ih =>
    obtain ⟨hitem, hrest⟩ := List.forall_mem_cons.mp h
    simp [List.mapM_cons, hitem, ih hrest]

theorem exists_of_mem_mapM {f : α → Option β} {items : List α} {values : List β}
    (h : items.mapM f = some values) {value : β} (hvalue : value ∈ values) :
    ∃ item ∈ items, f item = some value := by
  induction items generalizing values with
  | nil =>
    cases h
    cases hvalue
  | cons item items ih =>
    simp only [List.mapM_cons, Option.bind_eq_bind, Option.bind_eq_some_iff, Option.pure_def,
      Option.some.injEq] at h
    obtain ⟨first, hfirst, rest, hrest, rfl⟩ := h
    rcases List.mem_cons.mp hvalue with rfl | hvalue
    · exact ⟨item, List.mem_cons_self, hfirst⟩
    · obtain ⟨other, hother, hread⟩ := ih hrest hvalue
      exact ⟨other, List.mem_cons_of_mem item hother, hread⟩

end Lists

namespace Decoder

/-- Whatever the decoder has read, it reads again from what the encoder writes. -/
def Rereads (decoder : Decoder α) (encode : α → Json) : Prop :=
  ∀ ⦃levels json value⦄, decoder levels json = some value →
    decoder levels (encode value) = some value

/-- The same for the reader of a field of a record. -/
def FieldRereads (read : (levels : Nat) → Option Json → Option α) (encode : α → Json) : Prop :=
  ∀ ⦃levels held value⦄, read levels held = some value →
    read levels (some (encode value)) = some value

/-- The same for a decoder of a part: whatever it has read is written with some part under
`wrap`, and the decoder reads it again from that part. -/
def RereadsUnder (wrap : Json → Json) (decoder : Decoder α) (encode : α → Json) : Prop :=
  ∀ ⦃levels json value⦄, decoder levels json = some value →
    ∃ held, encode value = wrap held ∧ decoder levels held = some value

variable {decoder : Decoder α} {encode : α → Json} {levels : Nat}

section Scalars

theorem rereads_natBelow (bound : Nat) : Rereads (natBelow bound) .nat := by
  intro levels json value h
  unfold natBelow at h
  split at h
  · split at h
    · next hlt =>
      cases h
      exact if_pos hlt
    · cases h
  · cases h

/-- Every number of 32 bits is read from its digits. -/
theorem rereads_int32 : Rereads int32 fun value => .integer value.toInt := by
  intro levels json value _
  have hrange : -0x80000000 ≤ value.toInt ∧ value.toInt < 0x80000000 :=
    ⟨value.le_toInt, value.toInt_lt⟩
  simp only [int32, if_pos hrange, Int32.ofInt_toInt]

theorem rereads_bool : Rereads bool .bool := fun _ _ _ _ => rfl

theorem rereads_text : Rereads text .str := fun _ _ _ _ => rfl

end Scalars

section Containers

theorem Rereads.map {f : α → β} {encode : β → Json}
    (h : Rereads decoder fun value => encode (f value)) : Rereads (decoder.map f) encode := by
  intro levels json value hread
  obtain ⟨inner, hinner, rfl⟩ := Option.map_eq_some_iff.mp hread
  simp only [Decoder.map, h hinner, Option.map_some]

theorem Rereads.optional (h : Rereads decoder encode) (hnull : ∀ value, encode value ≠ .null) :
    Rereads (optional decoder) (ofOption encode) := by
  intro levels json value hread
  cases value with
  | none => rfl
  | some value =>
    unfold Decoder.optional at hread ⊢
    split at hread
    · cases hread
    · obtain ⟨inner, hinner, hsome⟩ := Option.map_eq_some_iff.mp hread
      cases hsome
      split
      · next heq => exact absurd heq (hnull value)
      · simp only [ofOption, h hinner, Option.map_some]

theorem Rereads.list (h : Rereads decoder encode) : Rereads (list decoder) (ofList encode) := by
  intro levels json values hread
  unfold Decoder.list at hread
  split at hread
  · next levels items =>
    have hvalues : ∀ value ∈ values, decoder levels (encode value) = some value := by
      intro value hvalue
      obtain ⟨item, -, hitem⟩ := exists_of_mem_mapM hread hvalue
      exact h hitem
    have hagain := mapM_eq_some_map (g := id) hvalues
    simpa [Decoder.list, ofList, List.mapM_map, Function.comp_def] using hagain
  · cases hread

theorem Rereads.array (h : Rereads decoder encode) : Rereads (array decoder) (ofArray encode) :=
  Rereads.map h.list

theorem Rereads.pair {second : Decoder β} {encode' : β → Json} (h : Rereads decoder encode)
    (h' : Rereads second encode') :
    Rereads (pair decoder second) fun value => .array [encode value.1, encode' value.2] := by
  intro levels json value hread
  unfold Decoder.pair at hread
  split at hread
  · simp only [Option.bind_eq_bind, Option.bind_eq_some_iff, Option.pure_def,
      Option.some.injEq] at hread
    obtain ⟨a, ha, b, hb, rfl⟩ := hread
    simp [Decoder.pair, h ha, h' hb]
  · cases hread

end Containers

section Records

theorem Rereads.field (h : Rereads decoder encode) : FieldRereads (field decoder) encode := by
  intro levels held value hread
  obtain ⟨json, -, hjson⟩ := Option.bind_eq_some_iff.mp hread
  exact h hjson

theorem Rereads.optionalField (h : Rereads decoder encode)
    (hnull : ∀ value, encode value ≠ .null) :
    FieldRereads (optionalField decoder) (ofOption encode) := by
  intro levels held value hread
  cases held with
  | none =>
    cases hread
    rfl
  | some json => exact h.optional hnull hread

theorem valuesOf_cons (name key : String) (value : Json)
    (members : List (Option String × Json)) :
    valuesOf name ((some key, value) :: members) =
      if key = name then value :: valuesOf name members else valuesOf name members := by
  by_cases hkey : key = name <;> simp [valuesOf, hkey]

theorem valuesOf_of_notMem {name : String} {members : List (String × Json)}
    (h : name ∉ members.map Prod.fst) :
    valuesOf name (members.map fun (key, value) => (some key, value)) = [] := by
  induction members with
  | nil => rfl
  | cons first members ih =>
    simp only [List.map_cons, List.mem_cons, not_or] at h
    rw [List.map_cons, valuesOf_cons, if_neg (Ne.symm h.1), ih h.2]

/-- A key that stands once in an object has one value there. -/
theorem valuesOf_of_mem {members : List (String × Json)} (hnodup : (members.map Prod.fst).Nodup)
    {member : String × Json} (hmember : member ∈ members) :
    valuesOf member.1 (members.map fun (key, value) => (some key, value)) = [member.2] := by
  induction members with
  | nil => cases hmember
  | cons first members ih =>
    obtain ⟨hfirst, hrest⟩ := List.nodup_cons.mp hnodup
    rw [List.map_cons, valuesOf_cons]
    rcases List.mem_cons.mp hmember with rfl | hmember
    · rw [if_pos rfl, valuesOf_of_notMem hfirst]
    · have hne : first.1 ≠ member.1 := fun heq => hfirst (heq ▸ List.mem_map_of_mem hmember)
      rw [if_neg hne, ih hrest hmember]

/-- A record that is written with its fields in order is read from their values. -/
theorem record_obj {names : List String} {members : List (String × Json)}
    (hnames : members.map Prod.fst = names) (hnodup : names.Nodup)
    {read : (levels : Nat) → List (Option Json) → Option α} :
    record names read (levels + 1) (.obj members) =
      read levels (members.map fun member => some member.2) := by
  subst hnames
  have hfields : (members.map Prod.fst).mapM (fun name =>
      atMostOnce (valuesOf name (members.map fun (key, value) => (some key, value)))) =
        some (members.map fun member => some member.2) := by
    rw [List.mapM_map]
    apply mapM_eq_some_map
    intro member hmember
    simp only [Function.comp_apply, valuesOf_of_mem hnodup hmember, atMostOnce]
  simp [record, recordWith, obj, fields?, hfields, keyAllowed, Freedom.usual]

variable {wrap : Json → Json}

/-- A record is read again from its fields in order when its reader reads them again. -/
theorem rereadsUnder_record {names : List String} (hnodup : names.Nodup)
    {read : (levels : Nat) → List (Option Json) → Option α}
    (hread : ∀ levels fields value, read levels fields = some value →
      ∃ members : List (String × Json), encode value = wrap (.obj members) ∧
        members.map Prod.fst = names ∧
        read levels (members.map fun member => some member.2) = some value) :
    RereadsUnder wrap (record names read) encode := by
  intro levels json value h
  cases levels with
  | zero => cases h
  | succ inner =>
    obtain ⟨fields, -, hfields⟩ := Option.bind_eq_some_iff.mp h
    obtain ⟨members, hencode, hnames, hagain⟩ := hread inner fields value hfields
    exact ⟨_, hencode, by rw [record_obj hnames hnodup, hagain]⟩

theorem RereadsUnder.rereads (h : RereadsUnder id decoder encode) : Rereads decoder encode := by
  intro levels json value hread
  obtain ⟨held, hencode, hagain⟩ := h hread
  rw [hencode]
  exact hagain

variable {γ δ : Type} {a : String} {readA : (levels : Nat) → Option Json → Option α}
  {encodeA : α → Json} {b : String} {readB : (levels : Nat) → Option Json → Option β}
  {encodeB : β → Json} {c : String} {readC : (levels : Nat) → Option Json → Option γ}
  {encodeC : γ → Json} {encode : δ → Json}

/-- A record with one field. -/
theorem rereadsUnder_one (hA : FieldRereads readA encodeA) {make : α → δ}
    (hencode : ∀ x, encode (make x) = wrap (.obj [(a, encodeA x)])) :
    RereadsUnder wrap (record [a] fun levels fields =>
      match fields with
      | [x] => do return make (← readA levels x)
      | _ => none) encode := by
  refine rereadsUnder_record (List.nodup_singleton a) fun levels fields value h => ?_
  split at h
  · obtain ⟨x, hx, hvalue⟩ := Option.bind_eq_some_iff.mp h
    cases hvalue
    exact ⟨_, hencode x, rfl, by simp [hA hx]⟩
  · cases h

/-- A record with two fields. -/
theorem rereadsUnder_two (hA : FieldRereads readA encodeA) (hB : FieldRereads readB encodeB)
    (hnodup : [a, b].Nodup) {make : α → β → δ}
    (hencode : ∀ x y, encode (make x y) = wrap (.obj [(a, encodeA x), (b, encodeB y)])) :
    RereadsUnder wrap (record [a, b] fun levels fields =>
      match fields with
      | [x, y] => do return make (← readA levels x) (← readB levels y)
      | _ => none) encode := by
  refine rereadsUnder_record hnodup fun levels fields value h => ?_
  split at h
  · obtain ⟨x, hx, h⟩ := Option.bind_eq_some_iff.mp h
    obtain ⟨y, hy, hvalue⟩ := Option.bind_eq_some_iff.mp h
    cases hvalue
    exact ⟨_, hencode x y, rfl, by simp [hA hx, hB hy]⟩
  · cases h

/-- A record with three fields. -/
theorem rereadsUnder_three (hA : FieldRereads readA encodeA) (hB : FieldRereads readB encodeB)
    (hC : FieldRereads readC encodeC) (hnodup : [a, b, c].Nodup) {make : α → β → γ → δ}
    (hencode : ∀ x y z, encode (make x y z) =
      wrap (.obj [(a, encodeA x), (b, encodeB y), (c, encodeC z)])) :
    RereadsUnder wrap (record [a, b, c] fun levels fields =>
      match fields with
      | [x, y, z] => do return make (← readA levels x) (← readB levels y) (← readC levels z)
      | _ => none) encode := by
  refine rereadsUnder_record hnodup fun levels fields value h => ?_
  split at h
  · obtain ⟨x, hx, h⟩ := Option.bind_eq_some_iff.mp h
    obtain ⟨y, hy, h⟩ := Option.bind_eq_some_iff.mp h
    obtain ⟨z, hz, hvalue⟩ := Option.bind_eq_some_iff.mp h
    cases hvalue
    exact ⟨_, hencode x y z, rfl, by simp [hA hx, hB hy, hC hz]⟩
  · cases h

end Records

section Variants

variable {read : (levels : Nat) → String → Option Json → Option α} {json : Json} {value : α}

theorem variant_str (name : String) : variant read levels (.str name) = read levels name none := by
  cases levels <;> rfl

theorem variant_obj (name : String) (held : Json) :
    variant read (levels + 1) (.obj [(name, held)]) = read levels name (some held) := rfl

/-- A variant was read from its name alone or from an object that it is the only key of. -/
theorem variant_cases (h : variant read levels json = some value) :
    (∃ name, read levels name none = some value) ∨
      ∃ inner name held, levels = inner + 1 ∧ read inner name (some held) = some value := by
  unfold variant at h
  split at h
  · next name => exact .inl ⟨name, h⟩
  · next inner name held => exact .inr ⟨inner, name, held, rfl, h⟩
  · cases h

end Variants

end Decoder

end ObjectFlow.Json
