import ObjectFlow.Proofs.Json.Scalar

/-!
# Values are read as they are written

The printer writes a value from the outside to the inside, and the reader moves over its tokens
one by one.  Wherever the reader expects a value, it reads what was written for a value as that
value and goes on with what stands behind it.  That holds for every way to lay out containers
with blanks.
-/

namespace ObjectFlow.Json

open Token (Delimited delimits isBlank scanOne scanAll scan)

/-- Values that are written without loss: no decimals, and no texts that are absent. -/
inductive Written : Json → Prop where
  | null : Written .null
  | bool (value : Bool) : Written (.bool value)
  | integer (value : Int) : Written (.integer value)
  | str (content : String) : Written (.str content)
  | array {items : List Json} (hitems : ∀ item ∈ items, Written item) : Written (.array items)
  | obj {members : List (String × Json)} (hmembers : ∀ member ∈ members, Written member.2) :
    Written (.obj members)

section Written

attribute [simp] Written.null Written.bool Written.integer Written.str Written.array Written.obj

variable {α : Type} {encode : α → Json}

@[simp]
theorem written_nat (value : Nat) : Written (.nat value) := .integer value

@[simp]
theorem written_ofOption (h : ∀ value, Written (encode value)) (value : Option α) :
    Written (ofOption encode value) := by
  cases value with
  | none => exact .null
  | some value => exact h value

@[simp]
theorem written_ofList (h : ∀ value, Written (encode value)) (values : List α) :
    Written (ofList encode values) :=
  .array (List.forall_mem_map.mpr fun value _ => h value)

@[simp]
theorem written_ofArray (h : ∀ value, Written (encode value)) (values : Array α) :
    Written (ofArray encode values) :=
  written_ofList h values.toList

end Written

section Reading

/-- `Spells chars cursor json`: a reader that stands at `cursor` reads `chars` to the end, and
then has read `json`. -/
inductive Spells : List Char → Cursor → Json → Prop where
  | finish {json : Json} : Spells [] (.complete json) json
  | blank {c : Char} {chars : List Char} {cursor : Cursor} {json : Json}
    (hblank : isBlank c = true) (h : Spells chars cursor json) : Spells (c :: chars) cursor json
  | token {chars rest : List Char} {token : Token} {cursor next : Cursor} {json : Json}
    (hscan : scanOne chars = some (token, rest)) (hlength : rest.length < chars.length)
    (hadvance : cursor.advance token = some next) (h : Spells rest next json) :
    Spells chars cursor json

variable {chars rest : List Char} {cursor next : Cursor} {json : Json} {token : Token}

/-- A token starts with no blank. -/
theorem exists_cons_of_scanOne (h : scanOne chars = some (token, rest)) :
    ∃ c more, chars = c :: more ∧ isBlank c = false := by
  cases chars with
  | nil => cases h
  | cons c more =>
    refine ⟨c, more, rfl, Bool.eq_false_iff.mpr fun hblank => ?_⟩
    simp only [isBlank, Bool.or_eq_true, beq_iff_eq, or_assoc] at hblank
    rcases hblank with rfl | rfl | rfl | rfl <;> cases h

/-- The tokens of a text that is read to its end. -/
theorem Spells.exists_tokens (h : Spells chars cursor json) :
    ∃ tokens : List Token, (∀ bound scanned, chars.length < bound →
        scanAll bound scanned chars = some (tokens.reverse ++ scanned)) ∧
      tokens.foldlM Cursor.advance cursor = some (.complete json) := by
  induction h with
  | finish =>
    refine ⟨[], fun bound scanned hbound => ?_, rfl⟩
    cases bound with
    | zero => omega
    | succ bound => rfl
  | blank hblank _ ih =>
    obtain ⟨tokens, hscan, hfold⟩ := ih
    refine ⟨tokens, fun bound scanned hbound => ?_, hfold⟩
    rw [List.length_cons] at hbound
    rw [← hscan bound scanned (by omega)]
    cases bound with
    | zero => omega
    | succ bound => simp only [scanAll, List.dropWhile_cons_of_pos hblank]
  | @token chars rest token cursor next json hscan hlength hadvance _ ih =>
    obtain ⟨tokens, hrest, hfold⟩ := ih
    refine ⟨token :: tokens, fun bound scanned hbound => ?_, ?_⟩
    · obtain ⟨c, more, rfl, hblank⟩ := exists_cons_of_scanOne hscan
      have hstart : (c :: more).dropWhile isBlank = c :: more :=
        List.dropWhile_cons_of_neg (by simp [hblank])
      cases bound with
      | zero => omega
      | succ bound =>
        simp only [scanAll, hstart, hscan]
        rw [hrest bound _ (by omega)]
        simp
    · simpa [List.foldlM_cons, hadvance] using hfold

theorem parse?_of_spells {text : String} (h : Spells text.toList (.value []) json) :
    parse? text = some json := by
  obtain ⟨tokens, hscan, hfold⟩ := h.exists_tokens
  have htokens : scan text.toList = some tokens := by
    simp [scan, hscan _ [] (Nat.lt_succ_self _)]
  simp [parse?, htokens, ofTokens?, hfold, Cursor.result?]

theorem Spells.blanks {blanks : List Char} (hblanks : ∀ c ∈ blanks, isBlank c = true)
    (h : Spells chars cursor json) : Spells (blanks ++ chars) cursor json := by
  induction blanks with
  | nil => exact h
  | cons c blanks ih =>
    obtain ⟨hc, hrest⟩ := List.forall_mem_cons.mp hblanks
    exact .blank hc (ih hrest)

/-- A bracket or a separator is read. -/
theorem Spells.mark {c : Char} (hscan : scanOne (c :: rest) = some (token, rest))
    (hadvance : cursor.advance token = some next) (h : Spells rest next json) :
    Spells (c :: rest) cursor json :=
  .token hscan (Nat.lt_succ_self _) hadvance h

theorem Spells.quote {content : String}
    (hadvance : cursor.advance (.text (some content)) = some next) (h : Spells rest next json) :
    Spells (quote (some content) ++ rest) cursor json := by
  refine .token (Token.scanOne_quote content rest) ?_ hadvance h
  simp [Json.quote]
  omega

/-- The reader expects a value, for the container on top of `stack`. -/
def Cursor.Expects (cursor : Cursor) (stack : List Frame) : Prop :=
  ∀ token, token ≠ .closeBracket → cursor.advance token = startValue stack token

theorem expects_value (stack : List Frame) : (Cursor.value stack).Expects stack :=
  fun _ _ => rfl

theorem expects_firstItem (stack : List Frame) :
    (Cursor.firstItem stack).Expects (.array [] :: stack) := by
  intro token htoken
  cases token with
  | closeBracket => exact absurd rfl htoken
  | _ => rfl

end Reading

section Printing

/-- Containers are laid out with blanks only. -/
structure Layout.Blank (layout : Layout) : Prop where
  beforeItem : ∀ level, ∀ c ∈ layout.beforeItem level, isBlank c = true
  afterColon : ∀ c ∈ layout.afterColon, isBlank c = true

theorem Layout.blank_lines : Layout.lines.Blank where
  beforeItem level c hc := by
    rcases List.mem_cons.mp hc with rfl | hc
    · rfl
    · rw [List.eq_of_mem_replicate hc]
      rfl
  afterColon c hc := by
    rw [List.mem_singleton.mp hc]
    rfl

variable {layout : Layout} {level : Nat} {rest : List Char} {stack : List Frame}
  {cursor : Cursor} {json result : Json}

theorem delimited_blanks {blanks : List Char} (hblanks : ∀ c ∈ blanks, isBlank c = true)
    (h : Delimited rest) : Delimited (blanks ++ rest) := by
  cases blanks with
  | nil => exact h
  | cons c blanks => exact Token.delimited_cons (by simp [delimits, hblanks c List.mem_cons_self]) _

theorem delimited_renderItems {items : List Json} (h : Delimited rest) :
    Delimited (renderItems layout level items rest) := by
  cases items with
  | nil => exact h
  | cons item items => exact Token.delimited_cons rfl _

theorem delimited_renderMembers {members : List (Option String × Json)} (h : Delimited rest) :
    Delimited (renderMembers layout level members rest) := by
  cases members with
  | nil => exact h
  | cons member members => exact Token.delimited_cons rfl _

/-- Wherever a value is expected, what is written for `json` is read as `json`. -/
def Legible (layout : Layout) (json : Json) : Prop :=
  ∀ (level : Nat) (rest : List Char) (cursor : Cursor) (stack : List Frame) (result : Json),
    cursor.Expects stack → Delimited rest → Spells rest (.plug json stack) result →
      Spells (render layout level json rest) cursor result

/-- A value that is written as one token, from which it is read back. -/
theorem legible_of_scanOne {token : Token}
    (hrender : ∀ level rest, render layout level json rest = scalarChars json ++ rest)
    (hchars : scalarChars json ≠ [])
    (hscan : ∀ rest, Delimited rest → scanOne (scalarChars json ++ rest) = some (token, rest))
    (htoken : token ≠ .closeBracket)
    (hstart : ∀ stack, Cursor.startValue stack token = some (.plug json stack)) :
    Legible layout json := by
  intro level rest cursor stack result hexpects hrest h
  rw [hrender]
  refine .token (hscan rest hrest) ?_ ?_ h
  · have hpos := List.length_pos_iff.mpr hchars
    rw [List.length_append]
    omega
  · rw [hexpects token htoken, hstart]

theorem legible_null : Legible layout .null :=
  legible_of_scanOne (fun _ _ => by simp only [render]) (by decide) (fun _ _ => rfl) nofun
    fun _ => rfl

theorem legible_bool (value : Bool) : Legible layout (.bool value) := by
  cases value with
  | true =>
    exact legible_of_scanOne (fun _ _ => by simp only [render]) (by decide) (fun _ _ => rfl) nofun
      fun _ => rfl
  | false =>
    exact legible_of_scanOne (fun _ _ => by simp only [render]) (by decide) (fun _ _ => rfl) nofun
      fun _ => rfl

theorem legible_integer (value : Int) : Legible layout (.integer value) := by
  have hscan : ∀ rest, Delimited rest →
      scanOne (scalarChars (.integer value) ++ rest) = some (.scalar (.integer value), rest) :=
    fun rest hrest => Token.scanOne_integer value hrest
  refine legible_of_scanOne (fun _ _ => by simp only [render]) ?_ hscan nofun fun _ => rfl
  -- A scan of no characters at all gives no token.
  intro hnil
  have hnone := hscan [] Token.delimited_nil
  rw [hnil] at hnone
  cases hnone

theorem legible_str (content : String) : Legible layout (.str content) := by
  apply legible_of_scanOne (fun _ _ => by simp only [str, render])
  · simp [str, scalarChars, quote]
  · exact fun rest _ => Token.scanOne_quote content rest
  · simp
  · exact fun _ => rfl

section Containers

variable (hblank : layout.Blank)

include hblank

/-- The items after the first one are read into the array that waits for them. -/
theorem spells_renderItems {items items' : List Json}
    (hitems : ∀ item ∈ items, Legible layout item) (hrest : Delimited rest)
    (h : Spells rest (.afterItem (items.reverse ++ items') stack) result) :
    Spells (renderItems layout level items rest) (.afterItem items' stack) result := by
  induction items generalizing items' with
  | nil => exact h
  | cons item items ih =>
    obtain ⟨hitem, htail⟩ := List.forall_mem_cons.mp hitems
    rw [List.reverse_cons, List.append_assoc] at h
    rw [renderItems]
    refine .mark rfl rfl (.blanks (hblank.beforeItem level) ?_)
    apply hitem level _ _ _ result (expects_value (.array items' :: stack))
    · exact delimited_renderItems hrest
    · exact ih htail h

theorem legible_array {items : List Json} (hitems : ∀ item ∈ items, Legible layout item) :
    Legible layout (.array items) := by
  intro level rest cursor stack result hexpects hrest h
  have hopen := hexpects .openBracket nofun
  cases items with
  | nil =>
    rw [render]
    exact .mark rfl hopen (.mark rfl rfl h)
  | cons item items =>
    obtain ⟨hitem, htail⟩ := List.forall_mem_cons.mp hitems
    have hclose : Delimited (layout.beforeItem level ++ ']' :: rest) :=
      delimited_blanks (hblank.beforeItem level) (Token.delimited_cons rfl rest)
    rw [render]
    refine .mark rfl hopen (.blanks (hblank.beforeItem (level + 1)) ?_)
    apply hitem (level + 1) _ _ _ result (expects_firstItem stack)
    · exact delimited_renderItems hclose
    · apply spells_renderItems hblank htail hclose
      refine .blanks (hblank.beforeItem level) (.mark rfl rfl ?_)
      simpa using h

/-- A member is a key, a colon and a value. -/
theorem spells_member {key : String} {members : List (Option String × Json)}
    (hjson : Legible layout json) (hrest : Delimited rest)
    (hkey : cursor.advance (.text (some key)) = some (.colon members (some key) stack))
    (h : Spells rest (.afterMember ((some key, json) :: members) stack) result) :
    Spells (quote (some key) ++ ':' :: (layout.afterColon ++ render layout level json rest))
      cursor result := by
  refine .quote hkey (.mark rfl rfl (.blanks hblank.afterColon ?_))
  exact hjson level rest _ _ result (expects_value (.object members (some key) :: stack)) hrest h

/-- The members after the first one are read into the object that waits for them. -/
theorem spells_renderMembers {members : List (String × Json)}
    {members' : List (Option String × Json)}
    (hmembers : ∀ member ∈ members, Legible layout member.2) (hrest : Delimited rest)
    (h : Spells rest (.afterMember ((members.map fun (key, value) => (some key, value)).reverse ++
      members') stack) result) :
    Spells (renderMembers layout level (members.map fun (key, value) => (some key, value)) rest)
      (.afterMember members' stack) result := by
  induction members generalizing members' with
  | nil => exact h
  | cons member members ih =>
    obtain ⟨hmember, htail⟩ := List.forall_mem_cons.mp hmembers
    rw [List.map_cons, List.reverse_cons, List.append_assoc] at h
    simp only [List.map_cons, renderMembers, List.cons_append, List.append_assoc]
    refine .mark rfl rfl (.blanks (hblank.beforeItem level) ?_)
    exact spells_member hblank hmember (delimited_renderMembers hrest) rfl (ih htail h)

theorem legible_obj {members : List (String × Json)}
    (hmembers : ∀ member ∈ members, Legible layout member.2) : Legible layout (.obj members) := by
  intro level rest cursor stack result hexpects hrest h
  have hopen := hexpects .openBrace nofun
  cases members with
  | nil =>
    rw [obj, List.map_nil, render]
    exact .mark rfl hopen (.mark rfl rfl h)
  | cons member members =>
    obtain ⟨hmember, htail⟩ := List.forall_mem_cons.mp hmembers
    have hclose : Delimited (layout.beforeItem level ++ '\x7d' :: rest) :=
      delimited_blanks (hblank.beforeItem level) (Token.delimited_cons rfl rest)
    simp only [obj, List.map_cons, render, List.cons_append, List.append_assoc]
    refine .mark rfl hopen (.blanks (hblank.beforeItem (level + 1)) ?_)
    apply spells_member hblank hmember (delimited_renderMembers hclose) rfl
    apply spells_renderMembers hblank htail hclose
    refine .blanks (hblank.beforeItem level) (.mark rfl rfl ?_)
    simpa [obj] using h

/-- What is written for a value is read as that value. -/
theorem Written.legible (h : Written json) : Legible layout json := by
  induction h with
  | null => exact legible_null
  | bool value => exact legible_bool value
  | integer value => exact legible_integer value
  | str content => exact legible_str content
  | array _ ih => exact legible_array hblank ih
  | obj _ ih => exact legible_obj hblank ih

end Containers

/-- The text of a value, with one item a line, is read as that value. -/
theorem Written.parse?_pretty (h : Written json) : parse? json.pretty = some json := by
  apply parse?_of_spells
  rw [pretty, String.toList_ofList]
  exact h.legible Layout.blank_lines 0 [] (.value []) [] json (expects_value []) Token.delimited_nil
    .finish

end Printing

end ObjectFlow.Json
