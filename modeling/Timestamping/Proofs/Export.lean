import Timestamping.Export
import Timestamping.Proofs.Json.Value

/-!
The JSON form of an attestation loses nothing. Every attestation is read back from its own text, and
from every text that says the same: with white space between the tokens, with the members in another
order and among others, or as an array. Where a name that is needed is missing, or stands twice,
nothing is read.
-/

namespace Timestamping

/-! ### Plain values -/

namespace Json

theorem isPlain_natural {value : Nat} (h : value < UInt64.size) (limit : Nat) :
    (natural value).isPlain limit = true := by
  rw [natural, isPlain, Scalar.isPlain]
  exact Number.isFinite_natural h

theorem isPlain_encode (characters : Text) (limit : Nat) :
    (Json.scalar (.string (Utf16.encode characters))).isPlain limit = true := by
  rw [isPlain, Scalar.isPlain, Utf16.isText_encode]

theorem isPlain_bytes (content : Bytes) (limit : Nat) :
    (bytes content).isPlain (limit + 1) = true := by
  rw [bytes, isPlain, List.all_map, List.all_eq_true]
  intro byte _
  exact isPlain_natural (Nat.lt_trans byte.toNat_lt (by decide)) limit

/-! ### Fields -/

theorem byte?_natural (byte : UInt8) : (natural byte.toNat).byte? = some byte := by
  have small : byte.toNat < 256 := byte.toNat_lt
  simp [byte?, natural?, natural, small]

theorem bytes?_bytes (content : Bytes) : (bytes content).bytes? = some content := by
  have hByte : byte? ∘ (fun byte : UInt8 => natural byte.toNat) = pure := funext byte?_natural
  rw [bytes, bytes?, List.mapM_map, hByte]
  exact (List.mapM_pure (f := id)).trans (congrArg some content.map_id)

/-! ### Members -/

theorem valuesOf_perm {members others : List Member} (h : members.Perm others) (name : String) :
    (valuesOf name members).Perm (valuesOf name others) :=
  (h.filter _).map Prod.snd

theorem valuesOf_append (name : String) (front back : List Member) :
    valuesOf name (front ++ back) = valuesOf name front ++ valuesOf name back := by
  rw [valuesOf, List.filter_append, List.map_append]
  rfl

theorem valuesOf_eq_nil {name : String} {members : List Member}
    (h : ∀ member ∈ members, member.1 ≠ Utf16.encode name.toList) : valuesOf name members = [] := by
  rw [valuesOf, List.map_eq_nil_iff, List.filter_eq_nil_iff]
  intro member inside
  simpa using h member inside

theorem mem_valuesOf {name : String} {value : Json} {members : List Member}
    (h : (Utf16.encode name.toList, value) ∈ members) : value ∈ valuesOf name members := by
  refine List.mem_map.mpr ⟨_, List.mem_filter.mpr ⟨h, ?_⟩, rfl⟩
  exact decide_eq_true rfl

theorem valueOf?_eq_some_iff {name : String} {members : List Member} {value : Json} :
    valueOf? name members = some value ↔ valuesOf name members = [value] := by
  rw [valueOf?]
  split
  case h_1 only h => rw [h, Option.some_inj, List.singleton_inj]
  case h_2 h => simpa using h value

theorem valueOf?_eq_none {name : String} {members : List Member}
    (h : (valuesOf name members).length ≠ 1) : valueOf? name members = none := by
  rw [Option.eq_none_iff_forall_ne_some]
  intro value found
  rw [valueOf?_eq_some_iff.mp found] at h
  exact h rfl

/-- Members of other names make no difference, and neither does the order. -/
theorem valueOf?_of_perm {name : String} {members front others : List Member}
    (h : members.Perm (front ++ others))
    (hOthers : ∀ other ∈ others, other.1 ≠ Utf16.encode name.toList) :
    valueOf? name members = valueOf? name front := by
  have hValues := valuesOf_perm h name
  rw [valuesOf_append, valuesOf_eq_nil hOthers, List.append_nil] at hValues
  refine Option.ext fun value => ?_
  rw [valueOf?_eq_some_iff, valueOf?_eq_some_iff]
  constructor
  · intro same
    rw [same] at hValues
    exact List.perm_singleton.mp hValues.symm
  · intro same
    rw [same] at hValues
    exact List.perm_singleton.mp hValues

theorem mapM_congr {α β : Type} {first second : α → Option β} {items : List α}
    (h : ∀ item ∈ items, first item = second item) : items.mapM first = items.mapM second := by
  induction items with
  | nil => rfl
  | cons item items ih =>
      obtain ⟨hItem, hItems⟩ := List.forall_mem_cons.mp h
      rw [List.mapM_cons, List.mapM_cons, hItem, ih hItems]

theorem mapM_eq_none {α β : Type} {read : α → Option β} {items : List α} {item : α}
    (hMem : item ∈ items) (h : read item = none) : items.mapM read = none := by
  induction items with
  | nil => cases hMem
  | cons first items ih =>
      rw [List.mapM_cons]
      cases hMem with
      | head =>
          rw [h]
          rfl
      | tail _ hMem =>
          rw [ih hMem]
          cases read first with
          | none => rfl
          | some value => rfl

/-! ### Bare values -/

/-- A value of one token, and its text, in which nothing is escaped. -/
inductive IsBare : Json → Text → Prop
  | null : IsBare (.scalar .null) "null".toList
  | bool (value : Bool) :
      IsBare (.scalar (.bool value)) (if value then "true".toList else "false".toList)
  | natural (value : UInt64) : IsBare (.natural value.toNat) (Nat.toDigits 10 value.toNat)
  | string {text : Text} : (∀ character ∈ text, Quoted.IsBare character) →
      IsBare (.scalar (.string (Utf16.encode text))) ('"' :: text ++ ['"'])

theorem render_scalar (value : Scalar) : (Json.scalar value).render = value.render := by
  rw [render, tokens, List.flatMap_singleton, Token.render]

theorem IsBare.render_eq {value : Json} {text : Text} (h : value.IsBare text) :
    value.render = text := by
  cases h with
  | null => exact render_scalar _
  | bool value =>
      cases value with
      | _ => exact render_scalar _
  | natural value => exact render_scalar _
  | string hText => exact (render_scalar _).trans (Quoted.render_encode_of_isBare hText)

theorem IsBare.isPlain {value : Json} {text : Text} (h : value.IsBare text) (limit : Nat) :
    value.isPlain limit = true := by
  cases h with
  | null => rw [Json.isPlain, Scalar.isPlain]
  | bool value => rw [Json.isPlain, Scalar.isPlain]
  | natural value => exact isPlain_natural value.toNat_lt limit
  | string _ => exact isPlain_encode _ limit

end Json

/-! ### Forms -/

/-- The names that an object of this form needs. -/
def Form.names (form : Form) : List String :=
  "type" :: form.fieldNames

/-- Members that say nothing about an attestation of this form. -/
structure Form.PassesOver (form : Form) (member : Json.Member) : Prop where
  nameIsText : Utf16.isText member.1 = true
  notNeeded : ∀ name ∈ form.names, member.1 ≠ Utf16.encode name.toList
  isPlain : member.2.isPlain (Attestation.nestingLimit - 1) = true

theorem Form.ofJson?_name (form : Form) : ofJson? (.text form.name) = some form := by
  cases form with
  | _ => rfl

theorem Tag.ofJson?_toJson (tag : Tag) : ofJson? tag.toJson = some tag := by
  have hTag : ofBytes tag.bytes = .ok tag := dif_pos tag.bytesLength
  rw [ofJson?, toJson, Json.bytes?_bytes, Option.bind_eq_bind, Option.bind_some, hTag]
  rfl

namespace Attestation

/-- What stands in the JSON form of an attestation, a name and its value after the other. -/
def values (attestation : Attestation) : List Json :=
  .text attestation.form.name :: attestation.fieldValues

def members (attestation : Attestation) : List Json.Member :=
  (attestation.form.names.zip attestation.values).map fun member =>
    (Utf16.encode member.1.toList, member.2)

theorem toJson_eq (attestation : Attestation) : attestation.toJson = .object attestation.members :=
  rfl

/-- What is read of a text. -/
def ofText? (text : Text) : Option Attestation :=
  Json.parse? text >>= ofJson?

theorem build?_fieldValues (attestation : Attestation) :
    attestation.form.build? attestation.fieldValues = some attestation := by
  cases attestation with
  | pending uri =>
      change (Attestation.pending <$> (Json.bytes uri).bytes?) = _
      rw [Json.bytes?_bytes]
      rfl
  | bitcoin height =>
      change (if height.toNat < UInt64.size then _ else _) = _
      rw [if_pos height.toNat_lt, UInt64.ofNat_toNat]
  | unknown tag payload =>
      change (Tag.ofJson? tag.toJson >>= fun tag => Form.payload? (.bytes payload) >>= _) = _
      rw [Tag.ofJson?_toJson, Form.payload?, Json.bytes?_bytes]
      rfl

/-! ### The members of a form -/

theorem valueOf?_type (attestation : Attestation) :
    Json.valueOf? "type" attestation.members = some (.text attestation.form.name) := by
  cases attestation with
  | _ => simp [Json.valueOf?, Json.valuesOf, members, values, Form.names, Form.fieldNames,
      fieldValues, form]

theorem mapM_valueOf?_fieldNames (attestation : Attestation) :
    (attestation.form.fieldNames.mapM fun name => Json.valueOf? name attestation.members) =
      some attestation.fieldValues := by
  cases attestation with
  | _ => simp [Json.valueOf?, Json.valuesOf, members, values, Form.names, Form.fieldNames,
      fieldValues, form]

theorem length_valuesOf_members (attestation : Attestation) {name : String}
    (h : name ∈ attestation.form.names) :
    (Json.valuesOf name attestation.members).length = 1 := by
  revert name
  cases attestation with
  | _ => simp [Json.valuesOf, members, values, Form.names, Form.fieldNames, fieldValues, form]

theorem type_mem_members (attestation : Attestation) :
    (Utf16.encode "type".toList, .text attestation.form.name) ∈ attestation.members :=
  List.mem_cons_self

/-! ### Values that stand for an attestation -/

theorem isPlain_of_mem_values {attestation : Attestation} {value : Json}
    (h : value ∈ attestation.values) : value.isPlain (nestingLimit - 1) = true := by
  rcases List.mem_cons.mp h with rfl | hField
  · exact Json.isPlain_encode _ _
  · cases attestation with
    | pending uri =>
        rw [fieldValues, List.mem_singleton] at hField
        rw [hField]
        exact Json.isPlain_bytes uri _
    | bitcoin height =>
        rw [fieldValues, List.mem_singleton] at hField
        rw [hField]
        exact Json.isPlain_natural height.toNat_lt _
    | unknown tag payload =>
        rw [fieldValues, List.mem_pair] at hField
        rcases hField with rfl | rfl
        · exact Json.isPlain_bytes tag.bytes _
        · exact Json.isPlain_bytes payload _

theorem isPlain_of_mem_members {attestation : Attestation} {member : Json.Member}
    (h : member ∈ attestation.members) :
    Utf16.isText member.1 = true ∧ member.2.isPlain (nestingLimit - 1) = true := by
  rcases List.mem_map.mp h with ⟨⟨name, value⟩, hPair, rfl⟩
  exact ⟨Utf16.isText_encode _, isPlain_of_mem_values (List.of_mem_zip hPair).2⟩

/-- Once the type is known, the fields decide. -/
theorem ofJson?_of_type {form : Form} {members : List Json.Member}
    (hPlain : (Json.object members).isPlain nestingLimit = true)
    (hType : Json.valueOf? "type" members = some (.text form.name)) :
    ofJson? (.object members) =
      (form.fieldNames.mapM fun name => Json.valueOf? name members) >>= form.build? := by
  have hForm : (Json.valueOf? "type" members >>= Form.ofJson?) = some form := by
    rw [hType]
    exact form.ofJson?_name
  rw [ofJson?, if_pos hPlain, hForm]
  rfl

theorem ofJson?_object {attestation : Attestation} {members others : List Json.Member}
    (h : members.Perm (attestation.members ++ others))
    (hOthers : ∀ other ∈ others, attestation.form.PassesOver other) :
    ofJson? (.object members) = some attestation := by
  have hPlain : (Json.object members).isPlain nestingLimit = true := by
    rw [nestingLimit, Json.isPlain, List.all_eq_true]
    intro member hMember
    rw [Bool.and_eq_true]
    rcases List.mem_append.mp (h.mem_iff.mp hMember) with own | other
    · exact isPlain_of_mem_members own
    · exact ⟨(hOthers member other).nameIsText, (hOthers member other).isPlain⟩
  have hValue : ∀ name ∈ attestation.form.names,
      Json.valueOf? name members = Json.valueOf? name attestation.members := fun name hName =>
    Json.valueOf?_of_perm h fun other hOther => (hOthers other hOther).notNeeded name hName
  obtain ⟨hType, hFields⟩ := List.forall_mem_cons.mp hValue
  rw [ofJson?_of_type hPlain (hType.trans attestation.valueOf?_type), Json.mapM_congr hFields,
    mapM_valueOf?_fieldNames]
  exact attestation.build?_fieldValues

theorem ofJson?_array (attestation : Attestation) :
    ofJson? (.array attestation.values) = some attestation := by
  have hPlain : (Json.array attestation.values).isPlain nestingLimit = true := by
    rw [nestingLimit, Json.isPlain, List.all_eq_true]
    exact fun value hValue => isPlain_of_mem_values hValue
  rw [values] at hPlain ⊢
  rw [ofJson?, if_pos hPlain, Form.ofJson?_name, Option.bind_eq_bind, Option.bind_some,
    build?_fieldValues]

/-- A name that is needed must stand exactly once. -/
theorem ofJson?_object_eq_none {form : Form} {name : String} {members : List Json.Member}
    (hName : name ∈ form.names)
    (hType : name ≠ "type" → (Utf16.encode "type".toList, .text form.name) ∈ members)
    (hCount : (Json.valuesOf name members).length ≠ 1) : ofJson? (.object members) = none := by
  have missing := Json.valueOf?_eq_none hCount
  by_cases hPlain : (Json.object members).isPlain nestingLimit = true
  · by_cases isType : name = "type"
    · rw [ofJson?, if_pos hPlain, ← isType, missing]
      rfl
    · have isField : name ∈ form.fieldNames := (List.mem_cons.mp hName).resolve_left isType
      cases hFound : Json.valueOf? "type" members with
      | none =>
          rw [ofJson?, if_pos hPlain, hFound]
          rfl
      | some value =>
          have inside := Json.mem_valuesOf (hType isType)
          rw [Json.valueOf?_eq_some_iff.mp hFound, List.mem_singleton] at inside
          rw [← inside] at hFound
          rw [ofJson?_of_type hPlain hFound, Json.mapM_eq_none isField missing]
          rfl
  · rw [ofJson?, if_neg hPlain]

/-! ### Texts that stand for an attestation -/

theorem ofText?_of_spelledBy {value : Json} {text : Text} (h : value.SpelledBy text) :
    ofText? text = ofJson? value := by
  rw [ofText?, h.parse?_eq, Option.bind_eq_bind, Option.bind_some]

/-- A name is taken out of an object, and nothing else is put in its place. -/
theorem ofJson?_of_removed {attestation : Attestation} {name : String}
    (hName : name ∈ attestation.form.names) {members others : List Json.Member}
    (hOthers : ∀ other ∈ others, other.1 ≠ Utf16.encode name.toList)
    (h : members.Perm
      ((attestation.members.filter fun member => member.1 ≠ Utf16.encode name.toList) ++ others)) :
    ofJson? (.object members) = none := by
  have gone : Json.valuesOf name members = [] := by
    refine Json.valuesOf_eq_nil fun member hMember => ?_
    rcases List.mem_append.mp (h.mem_iff.mp hMember) with own | other
    · exact of_decide_eq_true (List.mem_filter.mp own).2
    · exact hOthers member other
  refine ofJson?_object_eq_none hName (fun notType => ?_) (by rw [gone]; decide)
  refine h.mem_iff.mpr (List.mem_append_left _ (List.mem_filter.mpr ⟨type_mem_members _, ?_⟩))
  refine decide_eq_true fun same => notType ?_
  exact (String.toList_inj.mp (Utf16.encode_injective same)).symm

/-- A name that is needed is put in again, with whatever value. -/
theorem ofJson?_of_repeated {attestation : Attestation} {name : String}
    (hName : name ∈ attestation.form.names) {members others : List Json.Member} {again : Json}
    (h : members.Perm (attestation.members ++ (Utf16.encode name.toList, again) :: others)) :
    ofJson? (.object members) = none := by
  refine ofJson?_object_eq_none hName (fun _ => ?_) ?_
  · exact h.mem_iff.mpr (List.mem_append_left _ (type_mem_members _))
  · have hLength := (Json.valuesOf_perm h name).length_eq
    have hAgain := List.length_pos_of_mem
      (Json.mem_valuesOf (@List.mem_cons_self _ (Utf16.encode name.toList, again) others))
    rw [Json.valuesOf_append, List.length_append, length_valuesOf_members _ hName] at hLength
    omega

/-- Nothing is lost in the text of an attestation, not even what no record can hold. -/
theorem json_forms_read_back (attestation : Attestation) :
    ofText? attestation.toJson.render = some attestation ∧
    (∀ text, (Json.array attestation.values).SpelledBy text → ofText? text = some attestation) ∧
    (∀ members others text, members.Perm (attestation.members ++ others) →
      (∀ other ∈ others, attestation.form.PassesOver other) →
      (Json.object members).SpelledBy text → ofText? text = some attestation) ∧
    (∀ name value text, (∀ character ∈ name, Quoted.IsBare character) →
      (∀ needed ∈ attestation.form.names, name ≠ needed.toList) → value.IsBare text →
      attestation.form.PassesOver (Utf16.encode name, value) ∧
        Quoted.render (Utf16.encode name) = '"' :: name ++ ['"'] ∧ value.render = text) ∧
    ∀ name ∈ attestation.form.names,
      (∀ members others text, members.Perm
          ((attestation.members.filter fun member => member.1 ≠ Utf16.encode name.toList) ++
            others) →
        (∀ other ∈ others, other.1 ≠ Utf16.encode name.toList) →
        (Json.object members).SpelledBy text → ofText? text = none) ∧
      (∀ members others again text, members.Perm
          (attestation.members ++ (Utf16.encode name.toList, again) :: others) →
        (Json.object members).SpelledBy text → ofText? text = none) := by
  refine ⟨?own, ?array, ?object, ?bare, ?needed⟩
  case own =>
    have hMembers : attestation.members.Perm (attestation.members ++ []) := by
      rw [List.append_nil]
    rw [ofText?_of_spelledBy attestation.toJson.spelledBy_render, toJson_eq]
    exact ofJson?_object hMembers (List.forall_mem_nil _)
  case array =>
    intro text hText
    rw [ofText?_of_spelledBy hText, ofJson?_array]
  case object =>
    intro members others text hMembers hOthers hText
    rw [ofText?_of_spelledBy hText, ofJson?_object hMembers hOthers]
  case bare =>
    intro name value text hName notNeeded hValue
    refine ⟨⟨Utf16.isText_encode name, ?_, hValue.isPlain _⟩,
      Quoted.render_encode_of_isBare hName, hValue.render_eq⟩
    exact fun needed hNeeded same => notNeeded needed hNeeded (Utf16.encode_injective same)
  case needed =>
    intro name hName
    constructor
    · intro members others text hMembers hOthers hText
      rw [ofText?_of_spelledBy hText, ofJson?_of_removed hName hOthers hMembers]
    · intro members others again text hMembers hText
      rw [ofText?_of_spelledBy hText, ofJson?_of_repeated hName hMembers]

/-- A location that is no text, with a note: as an array, with the members in the reverse order, and
with its own member left out and put in twice. -/
theorem json_forms_read_back_not_text :
    let attestation := Attestation.pending [0xFF]
    let note : Json.Member := (Utf16.encode "note".toList, .scalar .null)
    let again : Json.Member := (Utf16.encode "uri".toList, .scalar .null)
    let members := attestation.members ++ [note]
    let missing := (attestation.members.filter fun member =>
      member.1 ≠ Utf16.encode "uri".toList) ++ [note]
    let repeated := attestation.members ++ [again, note]
    let arrayText := "[ \"pending\" ,[255 ]]\n".toList
    let objectText := "\t\x7b\"note\": null,\"uri\":[255],\r\n\"type\":\"pending\"\x7d".toList
    let missingText := "\x7b \"note\":null,\"type\":\"pending\"\x7d".toList
    let repeatedText :=
      "\x7b\"note\":null,\"uri\":null,\"uri\":[255],\"type\":\"pending\"\x7d ".toList
    ofText? attestation.toJson.render = some attestation ∧
    ((Json.array attestation.values).SpelledBy arrayText ∧ ofText? arrayText = some attestation) ∧
    (members.reverse.Perm (attestation.members ++ [note]) ∧
      (∀ other ∈ [note], attestation.form.PassesOver other) ∧
      (Json.object members.reverse).SpelledBy objectText ∧
      ofText? objectText = some attestation) ∧
    ((∀ character ∈ "note".toList, Quoted.IsBare character) ∧
      (∀ needed ∈ attestation.form.names, "note".toList ≠ needed.toList) ∧
      (Json.scalar .null).IsBare "null".toList ∧ attestation.form.PassesOver note ∧
      Quoted.render note.1 = "\"note\"".toList ∧ note.2.render = "null".toList) ∧
    "uri" ∈ attestation.form.names ∧
    (missing.reverse.Perm missing ∧ (∀ other ∈ [note], other.1 ≠ Utf16.encode "uri".toList) ∧
      (Json.object missing.reverse).SpelledBy missingText ∧ ofText? missingText = none) ∧
    repeated.reverse.Perm repeated ∧ (Json.object repeated.reverse).SpelledBy repeatedText ∧
      ofText? repeatedText = none := by
  intro attestation note again members missing repeated arrayText objectText missingText repeatedText
  obtain ⟨own, array, object, bare, needed⟩ := json_forms_read_back (.pending [0xFF])
  have hArray : (Json.array attestation.values).SpelledBy arrayText := by decide
  have hName : ∀ character ∈ "note".toList, Quoted.IsBare character := by simp [Quoted.IsBare]
  have notNeeded : ∀ needed ∈ attestation.form.names, "note".toList ≠ needed.toList := by decide
  obtain ⟨passesOver, hKey, hValue⟩ := bare "note".toList (.scalar .null) _ hName notNeeded .null
  have hMembers : members.reverse.Perm (attestation.members ++ [note]) := List.reverse_perm members
  have hOthers : ∀ other ∈ [note], attestation.form.PassesOver other :=
    List.forall_mem_singleton.mpr passesOver
  have hObject : (Json.object members.reverse).SpelledBy objectText := by decide
  have isNeeded : "uri" ∈ attestation.form.names := by decide
  obtain ⟨removed, duplicated⟩ := needed "uri" isNeeded
  have hMissing : missing.reverse.Perm missing := List.reverse_perm missing
  have notUri : ∀ other ∈ [note], other.1 ≠ Utf16.encode "uri".toList := by decide
  have missingSpelled : (Json.object missing.reverse).SpelledBy missingText := by decide
  have hRepeated : repeated.reverse.Perm repeated := List.reverse_perm repeated
  have repeatedSpelled : (Json.object repeated.reverse).SpelledBy repeatedText := by decide
  exact ⟨own, ⟨hArray, array arrayText hArray⟩,
    ⟨hMembers, hOthers, hObject, object _ _ objectText hMembers hOthers hObject⟩,
    ⟨hName, notNeeded, .null, passesOver, hKey, hValue⟩, isNeeded,
    ⟨hMissing, notUri, missingSpelled, removed _ [note] missingText hMissing notUri missingSpelled⟩,
    hRepeated, repeatedSpelled, duplicated _ [note] again.2 repeatedText hRepeated repeatedSpelled⟩

example : ofText? "\x7b \"height\":7,\"note\":null, \"type\":\"bitcoin\"\x7d".toList =
    some (.bitcoin 7) := by cbv

end Attestation

end Timestamping
