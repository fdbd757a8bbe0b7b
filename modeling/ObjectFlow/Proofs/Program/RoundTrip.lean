import ObjectFlow.Program.Codec
import ObjectFlow.Proofs.Json.Decoder
import ObjectFlow.Proofs.Table

/-!
# Programs are read as they are written

Every piece of a listing is read again from what is written for it, however it was spelled when
it was read first.  No spelling opens fewer containers than the one that is written, so that the
limit on nested containers is kept.  A program that was read from a text is therefore read again
from its own text.
-/

namespace ObjectFlow

open Json (Decoder Written)
open Json.Decoder

section Parts

theorem Handle.rereads {kind : Kind} : Rereads (@Decoder.handle kind) toJson :=
  Rereads.map (rereads_natBelow _)

theorem Handle.toJson_ne_null {kind : Kind} (handle : Handle kind) : handle.toJson ≠ .null := nofun

/-- A handle that may be absent. -/
theorem Handle.rereads_optional {kind : Kind} :
    FieldRereads (optionalField (@Decoder.handle kind)) (Json.ofOption toJson) :=
  Handle.rereads.optionalField toJson_ne_null

theorem CallKind.rereads : Rereads decode toJson := by
  intro levels json kind _
  cases kind <;> cases levels <;> rfl

theorem BinaryOp.rereads : Rereads decode toJson := by
  intro levels json op _
  cases op <;> cases levels <;> rfl

theorem MethodRef.rereads : Rereads decode toJson := by
  apply RereadsUnder.rereads
  exact rereadsUnder_two Handle.rereads.field rereads_text.field (by decide) fun _ _ => rfl

namespace Ty

/-- How a type was read: as an array, as a class, or by its name. -/
theorem decode_cases {levels : Nat} {json : Json} {type : Ty} (h : decode levels json = some type) :
    (∃ inner element held, levels = inner + 1 ∧ type = array element ∧
        decode inner held = some element) ∨
      (∃ inner c held, levels = inner + 1 ∧ type = object c ∧
        Decoder.handle inner held = some c) ∨
      ∃ name, (name, type) ∈ primitives := by
  unfold decode at h
  split at h
  · next inner held =>
    obtain ⟨element, helement, rfl⟩ := Option.map_eq_some_iff.mp h
    exact .inl ⟨inner, element, held, rfl, rfl, helement⟩
  · rcases variant_cases h with ⟨name, hread⟩ | ⟨inner, name, held, rfl, hread⟩
    · split at hread
      · cases hread
      · exact .inr (.inr ⟨name, mem_of_lookup hread⟩)
    · split at hread
      · obtain ⟨c, hc, rfl⟩ := Option.map_eq_some_iff.mp hread
        exact .inr (.inl ⟨inner, c, held, rfl, rfl, hc⟩)
      · split at hread
        · exact .inr (.inr ⟨name, mem_of_lookup hread⟩)
        · cases hread

theorem decode_array (levels : Nat) (element : Ty) :
    decode (levels + 1) (array element).toJson = (decode levels element.toJson).map array := rfl

theorem decode_object (levels : Nat) (c : ClassId) :
    decode (levels + 1) (object c).toJson = (Decoder.handle levels c.toJson).map object := rfl

theorem decode_primitive : ∀ entry ∈ primitives, ∀ levels,
    decode levels entry.2.toJson = some entry.2 := by
  simp only [primitives, List.forall_mem_cons]
  refine ⟨?_, ?_, ?_, ?_, ?_, ?_, ?_, ?_, by simp⟩ <;> intro levels <;> cases levels <;> rfl

theorem rereads : Rereads decode toJson := by
  intro levels json type h
  -- Each array that a type is nested in has used up one level.
  induction levels using Nat.strongRecOn generalizing json type with
  | ind levels ih =>
    rcases decode_cases h with ⟨inner, element, held, rfl, rfl, helement⟩ |
      ⟨inner, c, held, rfl, rfl, hc⟩ | ⟨name, hname⟩
    · rw [decode_array, ih inner (Nat.lt_succ_self inner) helement, Option.map_some]
    · rw [decode_object, Handle.rereads hc, Option.map_some]
    · exact decode_primitive _ hname levels

end Ty

theorem Call.rereads : Rereads decode toJson := by
  refine (rereadsUnder_record (by decide) fun levels fields call h => ?_).rereads
  split at h
  · simp only [Option.bind_eq_bind, Option.bind_eq_some_iff, Option.pure_def,
      Option.some.injEq] at h
    obtain ⟨kind, hkind, target, htarget, base, hbase, args, hargs, result, hresult, rfl⟩ := h
    refine ⟨_, rfl, rfl, ?_⟩
    simp [CallKind.rereads.field hkind, MethodRef.rereads.field htarget,
      Handle.rereads_optional hbase, Handle.rereads.list.field hargs,
      Handle.rereads_optional hresult]
  · cases h

namespace Exp

theorem rereads_decodeBinary :
    RereadsUnder (fun held => .obj [("Binary", held)]) decodeBinary toJson :=
  rereadsUnder_three BinaryOp.rereads.field Handle.rereads.field Handle.rereads.field (by decide)
    fun _ _ _ => rfl

theorem rereads : Rereads decode toJson := by
  intro levels json exp h
  rcases variant_cases h with ⟨name, hread⟩ | ⟨inner, name, held, rfl, hread⟩
  · -- A name alone holds no expression.
    simp [field] at hread
  · split at hread
    · obtain ⟨value, hvalue, rfl⟩ := Option.map_eq_some_iff.mp hread
      rw [decode, toJson, variant_obj]
      simp [rereads_int32.field hvalue]
    · split at hread
      · obtain ⟨v, hv, rfl⟩ := Option.map_eq_some_iff.mp hread
        rw [decode, toJson, variant_obj]
        simp [Handle.rereads.field hv]
      · split at hread
        · obtain ⟨again, hencode, hagain⟩ := rereads_decodeBinary hread
          rw [hencode]
          exact hagain
        · cases hread

end Exp

namespace Stmt

/-- What a statement holds is read again from what is written under its name. -/
theorem rereads_decoders : ∀ entry ∈ decoders,
    RereadsUnder (fun held => .obj [(entry.1, held)]) entry.2 toJson := by
  have hhandle := fun {kind} => (@Handle.rereads kind).field
  have htarget := (rereads_natBelow UInt64.size).field
  have hcases := (rereads_int32.pair (rereads_natBelow UInt64.size)).list.field
  simp only [decoders, List.forall_mem_cons]
  refine ⟨?_, ?_, ?_, ?_, ?_, ?_, ?_, ?_, ?_, ?_, ?_, ?_, by simp⟩
  · exact rereadsUnder_two hhandle Ty.rereads.field (by decide) fun _ _ => rfl
  · exact rereadsUnder_two hhandle hhandle (by decide) fun _ _ => rfl
  · exact rereadsUnder_two hhandle Exp.rereads.field (by decide) fun _ _ => rfl
  · exact rereadsUnder_three hhandle Handle.rereads_optional hhandle (by decide) fun _ _ _ => rfl
  · exact rereadsUnder_three Handle.rereads_optional hhandle hhandle (by decide) fun _ _ _ => rfl
  · exact rereadsUnder_three hhandle hhandle hhandle (by decide) fun _ _ _ => rfl
  · exact rereadsUnder_three hhandle hhandle hhandle (by decide) fun _ _ _ => rfl
  · intro levels json stmt h
    obtain ⟨call, hcall, rfl⟩ := Option.map_eq_some_iff.mp h
    exact ⟨call.toJson, rfl, by simp [Decoder.map, Call.rereads hcall]⟩
  · exact rereadsUnder_two Exp.rereads.field htarget (by decide) fun _ _ => rfl
  · exact rereadsUnder_one htarget fun _ => rfl
  · exact rereadsUnder_three hhandle hcases htarget (by decide) fun _ _ _ => rfl
  · exact rereadsUnder_one Handle.rereads_optional fun _ => rfl

theorem rereads : Rereads decode toJson := by
  intro levels json stmt h
  rcases variant_cases h with ⟨name, hread⟩ | ⟨inner, name, held, rfl, hread⟩
  · split at hread
    · cases hread
      exact variant_str "Nop"
    · -- A name alone holds no other statement.
      simp [field] at hread
  · split at hread
    · split at hread
      · cases hread
        exact variant_str "Nop"
      · cases hread
    · next hname =>
      obtain ⟨decoder, hlookup, hfield⟩ := Option.bind_eq_some_iff.mp hread
      obtain ⟨again, hencode, hagain⟩ := rereads_decoders _ (mem_of_lookup hlookup) hfield
      rw [hencode, decode, variant_obj, if_neg hname, hlookup]
      exact hagain

end Stmt

theorem Class.rereads : Rereads decode toJson := by
  refine (rereadsUnder_record (by decide) fun levels fields c h => ?_).rereads
  split at h
  · simp only [Option.bind_eq_bind, Option.bind_eq_some_iff, Option.pure_def,
      Option.some.injEq] at h
    obtain ⟨id, hid, name, hname, superClass, hsuper, interfaces, hinterfaces, isInterface,
      hisInterface, isAbstract, hisAbstract, methods, hmethods, rfl⟩ := h
    refine ⟨_, rfl, rfl, ?_⟩
    simp [Handle.rereads.field hid, rereads_text.field hname, Handle.rereads_optional hsuper,
      Handle.rereads.list.field hinterfaces, rereads_bool.field hisInterface,
      rereads_bool.field hisAbstract, Handle.rereads.list.field hmethods]
  · cases h

theorem Field.rereads : Rereads decode toJson := by
  refine (rereadsUnder_record (by decide) fun levels fields f h => ?_).rereads
  split at h
  · simp only [Option.bind_eq_bind, Option.bind_eq_some_iff, Option.pure_def,
      Option.some.injEq] at h
    obtain ⟨id, hid, name, hname, declaringClass, hdeclaring, type, htype, isStatic, hstatic,
      rfl⟩ := h
    refine ⟨_, rfl, rfl, ?_⟩
    simp [Handle.rereads.field hid, rereads_text.field hname, Handle.rereads.field hdeclaring,
      Ty.rereads.field htype, rereads_bool.field hstatic]
  · cases h

theorem Var.rereads : Rereads decode toJson := by
  refine (rereadsUnder_record (by decide) fun levels fields v h => ?_).rereads
  split at h
  · simp only [Option.bind_eq_bind, Option.bind_eq_some_iff, Option.pure_def,
      Option.some.injEq] at h
    obtain ⟨id, hid, name, hname, type, htype, method, hmethod, rfl⟩ := h
    refine ⟨_, rfl, rfl, ?_⟩
    simp [Handle.rereads.field hid, rereads_text.field hname, Ty.rereads.field htype,
      Handle.rereads.field hmethod]
  · cases h

theorem Method.rereads : Rereads decode toJson := by
  refine (rereadsUnder_record (by decide) fun levels fields m h => ?_).rereads
  split at h
  · simp only [Option.bind_eq_bind, Option.bind_eq_some_iff, Option.pure_def,
      Option.some.injEq] at h
    obtain ⟨id, hid, name, hname, declaringClass, hdeclaring, subsignature, hsubsignature,
      isStatic, hstatic, isAbstract, habstract, this, hthis, params, hparams, stmts, hstmts,
      rfl⟩ := h
    refine ⟨_, rfl, rfl, ?_⟩
    simp [Handle.rereads.field hid, rereads_text.field hname, Handle.rereads.field hdeclaring,
      rereads_text.field hsubsignature, rereads_bool.field hstatic, rereads_bool.field habstract,
      Handle.rereads_optional hthis, Handle.rereads.list.field hparams,
      Stmt.rereads.array.field hstmts]
  · cases h

theorem Listing.rereads : Rereads decode toJson := by
  refine (rereadsUnder_record (by decide) fun levels fields listing h => ?_).rereads
  split at h
  · simp only [Option.bind_eq_bind, Option.bind_eq_some_iff, Option.pure_def,
      Option.some.injEq] at h
    obtain ⟨classes, hclasses, methods, hmethods, members, hmembers, vars, hvars, entries,
      hentries, rfl⟩ := h
    refine ⟨_, rfl, rfl, ?_⟩
    simp [Class.rereads.array.field hclasses, Method.rereads.array.field hmethods,
      Field.rereads.array.field hmembers, Var.rereads.array.field hvars,
      Handle.rereads.list.field hentries]
  · cases h

end Parts

section Written

@[simp]
theorem Handle.written_toJson {kind : Kind} (handle : Handle kind) : Written handle.toJson :=
  Json.written_nat handle.index

@[simp]
theorem Ty.written_toJson (type : Ty) : Written type.toJson := by
  induction type with
  | array element ih => simp [toJson, ih]
  | _ => simp [toJson]

@[simp]
theorem CallKind.written_toJson (kind : CallKind) : Written kind.toJson := by
  cases kind <;> exact .str _

@[simp]
theorem MethodRef.written_toJson (target : MethodRef) : Written target.toJson := by
  simp [toJson]

@[simp]
theorem Call.written_toJson (call : Call) : Written call.toJson := by
  simp [toJson]

@[simp]
theorem BinaryOp.written_toJson (op : BinaryOp) : Written op.toJson := .str op.name

@[simp]
theorem Exp.written_toJson (exp : Exp) : Written exp.toJson := by
  cases exp <;> simp [toJson]

@[simp]
theorem Stmt.written_caseToJson (c : Int32 × Nat) : Written (caseToJson c) := by
  simp [caseToJson]

@[simp]
theorem Stmt.written_toJson (stmt : Stmt) : Written stmt.toJson := by
  cases stmt with
  | nop => exact .str "Nop"
  | _ => exact .obj (by simp)

@[simp]
theorem Class.written_toJson (c : Class) : Written c.toJson := by
  simp [toJson]

@[simp]
theorem Field.written_toJson (f : Field) : Written f.toJson := by
  simp [toJson]

@[simp]
theorem Var.written_toJson (v : Var) : Written v.toJson := by
  simp [toJson]

@[simp]
theorem Method.written_toJson (m : Method) : Written m.toJson := by
  simp [toJson]

theorem Listing.written_toJson (listing : Listing) : Written listing.toJson := by
  simp [toJson]

end Written

namespace Program

theorem listing_of_ofListing {listing : Listing} {program : Program}
    (h : ofListing listing = .ok program) : program.listing = listing := by
  unfold ofListing at h
  split at h
  · cases h
  · cases h
    rfl

/-- A program was read from the JSON form of its own listing, in some spelling. -/
theorem exists_decode_of_ofText {text : String} {program : Program}
    (h : ofText text = .ok program) :
    ∃ json, Listing.decode Json.maxLevels json = some program.listing ∧
      ofListing program.listing = .ok program := by
  unfold ofText at h
  split at h
  · cases h
  · next json _ =>
    unfold ofJson at h
    split at h
    · cases h
    · next listing hdecode =>
      cases hlisting : ofListing listing with
      | error defect =>
        rw [hlisting] at h
        cases h
      | ok made =>
        rw [hlisting] at h
        cases h
        rw [listing_of_ofListing hlisting]
        exact ⟨json, hdecode, hlisting⟩

/-- A program that was read from a text is read again from its own text: with the same listing
and the same index, and written once more as the same text. -/
theorem ofText_toText {text : String} {program : Program} (h : ofText text = .ok program) :
    ofText program.toText = .ok program := by
  obtain ⟨json, hdecode, hprogram⟩ := exists_decode_of_ofText h
  have hparse : Json.parse? program.toText = some program.listing.toJson :=
    (Listing.written_toJson program.listing).parse?_pretty
  rw [ofText, hparse]
  simp only [ofJson, Listing.rereads hdecode, hprogram, Except.mapError]

/-- A text in other spellings than the one that is written: records as arrays, a statement that
holds nothing as an object, a value that is left out, and an escape that is not needed. -/
def terseText : String :=
  "[[[0,\"\\u0041\",null,[],false,false,[0]]]," ++
  "[[0,\"m\",0,\"m()\",true,false,null,[],[\x7b\"Nop\":null\x7d,\x7b\"Return\":\x7b\x7d\x7d]]]," ++
  "[],[[0,\"\\\"\",\x7b\"Array\":\"Int\"\x7d,0]],[0]]"

/-- What `terseText` spells. -/
def terseListing : Listing where
  classes := #[{ id := ⟨0⟩, name := "A", superClass := none, interfaces := [],
                 isInterface := false, isAbstract := false, methods := [⟨0⟩] }]
  methods := #[
    { id := ⟨0⟩, name := "m", declaringClass := ⟨0⟩, subsignature := "m()",
      isStatic := true, isAbstract := false, this := none, params := [],
      stmts := #[.nop, .ret none] }]
  vars := #[⟨⟨0⟩, "\"", .array .int, ⟨0⟩⟩]
  entries := [⟨0⟩]

theorem ofText_toText_terse : ∃ program, ofText terseText = .ok program ∧
    program.listing = terseListing ∧ program.toText ≠ terseText ∧
    ofText program.toText = .ok program := by
  have hread : (ofText terseText).toOption.map (fun program => program.listing) =
      some terseListing := by
    decide +kernel
  cases hprogram : ofText terseText with
  | error error =>
    rw [hprogram] at hread
    cases hread
  | ok program =>
    rw [hprogram] at hread
    have hlisting : program.listing = terseListing := Option.some.inj hread
    refine ⟨program, rfl, hlisting, ?_, ofText_toText hprogram⟩
    rw [toText, hlisting]
    decide +kernel

end Program

end ObjectFlow
