import TemporalGraph.Document.File
import TemporalGraph.Proofs.Json.RoundTrip
import TemporalGraph.Proofs.Outcome
import TemporalGraph.Proofs.Schema.Registry
/-!
Registries that are written as JSON and read back. Main statement: a registry comes back from its
text with all its definitions, if its whole numbers have 64 bits and its JSON form nests no more
containers than a reader allows.
-/

namespace TemporalGraph.Schema

open Document (Slot)
open Json (Value memberDocuments membersWhole)

variable {α : Type} {read : Document → Option α} {toJson : α → Value} {v : Value} {a : α}

structure Carries (read : Document → Option α) (v : Value) (a : α) : Prop where
  whole : v.isWhole
  read : read v.document = some a

theorem Carries.list {items : List α} (h : ∀ a ∈ items, Carries read (toJson a) a) :
    Carries (Document.list? read) (.array (items.map toJson)) items := by
  constructor
  · refine Json.areWhole_iff.2 fun v hv => ?_
    obtain ⟨a, ha, rfl⟩ := List.mem_map.1 hv
    exact (h a ha).whole
  · have hread : ∀ a ∈ items, (read ∘ Value.document ∘ toJson) a = some (id a) :=
      fun a ha => (h a ha).read
    rw [Value.document, Json.documents_eq_map, Document.list?, List.map_map, List.mapM_map,
      Option.mapM_eq_some_map hread, List.map_id]

theorem Carries.table {entries : List (String × α)}
    (h : ∀ e ∈ entries, Carries read (toJson e.2) e.2) :
    Carries (Document.table? read) (.object (entries.map fun e => (e.1, toJson e.2))) entries := by
  constructor
  · refine Json.membersWhole_iff.2 fun m hm => ?_
    obtain ⟨e, he, rfl⟩ := List.mem_map.1 hm
    exact (h e he).whole
  · have hread : ∀ e ∈ entries,
        (read (toJson e.2).document).map (fun v => (e.1, v)) = some (id e) := by
      intro e he
      rw [(h e he).read]
      rfl
    rw [Value.document, Json.memberDocuments_eq_map, Document.table?, List.map_map, List.mapM_map]
    exact (Option.mapM_eq_some_map hread).trans (by rw [List.map_id])

/- A part that is left out when it is empty. -/

def partSlot (isEmpty : Bool) (v : Value) : Slot := if isEmpty then .absent else .given v.document

theorem Carries.default?_partSlot {isEmpty : Bool} {fallback : α} (h : Carries read v a)
    (he : isEmpty → a = fallback) : (partSlot isEmpty v).default? fallback read = some a := by
  cases isEmpty with
  | false => exact h.read
  | true => exact congrArg some (he rfl).symm

theorem Carries.membersWhole_part (isEmpty : Bool) (key : String) (h : Carries read v a) :
    membersWhole (if isEmpty then [] else [(key, v)]) := by
  cases isEmpty with
  | false => exact Bool.and_eq_true_iff.2 ⟨h.whole, rfl⟩
  | true => rfl

/- The parts of a definition, from the inside out. -/

theorem TypeRef.carries (t : TypeRef) : Carries ofDocument? t.toJson t := by
  induction t with
  | named name => exact ⟨rfl, rfl⟩
  | list t ih =>
    refine ⟨Bool.and_eq_true_iff.2 ⟨ih.whole, rfl⟩, ?_⟩
    exact congrArg (Option.map list) ih.read
  | nonNull t ih =>
    refine ⟨Bool.and_eq_true_iff.2 ⟨ih.whole, rfl⟩, ?_⟩
    exact congrArg (Option.map nonNull) ih.read

theorem TypeKind.carries (k : TypeKind) : Carries ofDocument? (.string k.text) k := by
  refine ⟨rfl, ?_⟩
  have hread : ofDocument? (.text k.text) = some ((ofText? k.text).getD .unknown) := rfl
  rw [Value.document, hread, ofText?_text, Option.getD_some]

def DirectiveValue.isInt64 : DirectiveValue → Bool
  | .int i => Decimal.isInt64 i
  | _ => true

theorem DirectiveValue.carries {v : DirectiveValue} (h : v.isInt64) :
    Carries ofDocument? v.toJson v := by
  cases v with
  | bool b => exact ⟨rfl, rfl⟩
  | int i =>
    have hi : Decimal.isInt64 i = true := h
    exact ⟨hi, by simp [toJson, Value.document, ofDocument?, Document.int64?, hi]⟩
  | string s => exact ⟨rfl, rfl⟩

def Directive.isInt64 (d : Directive) : Bool := d.arguments.values.all DirectiveValue.isInt64

theorem Directive.slots?_toJson (d : Directive) :
    d.toJson.document.slots? ["name", "arguments"] =
      some [.given (.text d.name), partSlot d.arguments.isEmpty
        (.object (d.arguments.entries.map fun e => (e.1, e.2.toJson)))] := by
  obtain ⟨name, ⟨es, hs⟩⟩ := d
  cases es <;> rfl

theorem Directive.carries {d : Directive} (h : d.isInt64) : Carries ofDocument? d.toJson d := by
  have harguments : Carries (Document.table? DirectiveValue.ofDocument?)
      (.object (d.arguments.entries.map fun e => (e.1, e.2.toJson))) d.arguments.entries :=
    Carries.table fun e he =>
      DirectiveValue.carries (List.all_eq_true.1 h e.2 (List.mem_map_of_mem he))
  constructor
  · exact Bool.and_eq_true_iff.2 ⟨rfl, harguments.membersWhole_part _ "arguments"⟩
  · have hempty : d.arguments.isEmpty → d.arguments.entries = [] := List.isEmpty_iff.1
    have hslot := harguments.default?_partSlot hempty
    simp only [ofDocument?, slots?_toJson, hslot, Slot.required?, Document.text, Document.string?,
      Option.bind_eq_bind, Option.bind_some, Dictionary.ofList_entries]
    rfl

theorem InputValue.slots?_toJson (a : InputValue) :
    a.toJson.document.slots? ["name", "type", "directives"] =
      some [.given (.text a.name), .given a.type.toJson.document,
        partSlot a.directives.isEmpty (.array (a.directives.map Directive.toJson))] := by
  obtain ⟨name, type, directives⟩ := a
  cases directives <;> rfl

theorem InputValue.carries {a : InputValue} (h : ∀ d ∈ a.directives, d.isInt64) :
    Carries ofDocument? a.toJson a := by
  have htype := TypeRef.carries a.type
  have hdirectives := Carries.list fun d hd => Directive.carries (h d hd)
  constructor
  · simp only [toJson, listMember, Value.isWhole, Json.membersWhole_append, membersWhole,
      htype.whole, hdirectives.membersWhole_part, Bool.and_self]
  · simp only [ofDocument?, slots?_toJson, Slot.required?, htype.read,
      hdirectives.default?_partSlot List.isEmpty_iff.1]
    rfl

def FieldDefinition.allDirectives (f : FieldDefinition) : List Directive :=
  f.directives ++ f.arguments.flatMap InputValue.directives

theorem FieldDefinition.slots?_toJson (f : FieldDefinition) :
    f.toJson.document.slots? ["name", "type", "arguments", "directives"] =
      some [.given (.text f.name), .given f.type.toJson.document,
        partSlot f.arguments.isEmpty (.array (f.arguments.map InputValue.toJson)),
        partSlot f.directives.isEmpty (.array (f.directives.map Directive.toJson))] := by
  obtain ⟨name, type, arguments, directives⟩ := f
  cases arguments <;> cases directives <;> rfl

theorem FieldDefinition.carries {f : FieldDefinition} (h : ∀ d ∈ f.allDirectives, d.isInt64) :
    Carries ofDocument? f.toJson f := by
  obtain ⟨hown, hof⟩ := List.forall_mem_append.1 h
  have htype := TypeRef.carries f.type
  have harguments := Carries.list fun a ha => InputValue.carries (a := a) fun d hd =>
    hof d (List.mem_flatMap.2 ⟨a, ha, hd⟩)
  have hdirectives := Carries.list fun d hd => Directive.carries (hown d hd)
  constructor
  · simp only [toJson, listMember, Value.isWhole, Json.membersWhole_append, membersWhole,
      htype.whole, harguments.membersWhole_part, hdirectives.membersWhole_part, Bool.and_self]
  · simp only [ofDocument?, slots?_toJson, Slot.required?, htype.read,
      harguments.default?_partSlot List.isEmpty_iff.1,
      hdirectives.default?_partSlot List.isEmpty_iff.1]
    rfl

def TypeDefinition.allDirectives (t : TypeDefinition) : List Directive :=
  t.directives ++ t.fields.flatMap FieldDefinition.allDirectives

theorem TypeDefinition.slots?_toJson (t : TypeDefinition) :
    t.toJson.document.slots? ["name", "kind", "fields", "directives"] =
      some [.given (.text t.name), .given (Value.string t.kind.text).document,
        partSlot t.fields.isEmpty (.array (t.fields.map FieldDefinition.toJson)),
        partSlot t.directives.isEmpty (.array (t.directives.map Directive.toJson))] := by
  obtain ⟨name, kind, fields, directives⟩ := t
  cases fields <;> cases directives <;> rfl

theorem TypeDefinition.carries {t : TypeDefinition} (h : ∀ d ∈ t.allDirectives, d.isInt64) :
    Carries ofDocument? t.toJson t := by
  obtain ⟨hown, hof⟩ := List.forall_mem_append.1 h
  have hkind := TypeKind.carries t.kind
  have hfields := Carries.list fun f hf => FieldDefinition.carries (f := f) fun d hd =>
    hof d (List.mem_flatMap.2 ⟨f, hf, hd⟩)
  have hdirectives := Carries.list fun d hd => Directive.carries (hown d hd)
  constructor
  · simp only [toJson, listMember, Value.isWhole, Json.membersWhole_append, membersWhole,
      hfields.membersWhole_part, hdirectives.membersWhole_part, Bool.and_self]
  · simp only [ofDocument?, slots?_toJson, Slot.required?, hkind.read,
      hfields.default?_partSlot List.isEmpty_iff.1,
      hdirectives.default?_partSlot List.isEmpty_iff.1]
    rfl

namespace Registry

theorem carries {r : Registry} (h : ∀ t ∈ r.types, ∀ d ∈ t.allDirectives, d.isInt64) :
    Carries ofDocument? r.toJson (ofList r.types) := by
  have htypes := Carries.list fun t ht => TypeDefinition.carries (h t ht)
  constructor
  · exact Bool.and_eq_true_iff.2 ⟨htypes.whole, rfl⟩
  · have hslots : r.toJson.document.slots? ["types"] =
        some [.given (Value.array (r.types.map TypeDefinition.toJson)).document] := rfl
    simp only [ofDocument?, hslots, Slot.default?, htypes.read]
    rfl

/-- A registry is written as JSON and read back: the same definitions are there, under the same
names. The numbers among the arguments of directives are whole numbers of 64 bits, and the JSON
form nests at most 127 containers. -/
theorem ofText_json_toText (r : Registry) (hd : r.toJson.depth ≤ 127)
    (hi : ∀ t ∈ r.types, ∀ d ∈ t.allDirectives, d.isInt64) :
    ∃ text back, r.toText? .json = some text ∧ ofText .json text = .ok back ∧
      r.sameTypes back ∧ back.get? = r.get? := by
  have hcarries := carries hi
  have htypes : (ofList r.types).types = r.types := types_ofList_types r
  refine ⟨r.toJson.toText, ofList r.types, rfl, ?_, ?_, get?_eq_of_types_eq htypes⟩
  · have hparse : Format.json.parse? r.toJson.toText = some r.toJson.document :=
      Json.parse?_toText hcarries.whole hd
    rw [ofText, hparse, Option.bind_some, hcarries.read]
  · exact decide_eq_true htypes.symm

/-- A registry with escapes, the least number of 64 bits, wrappers, an unknown kind and an empty
name. -/
theorem ofText_json_toText_escapes :
    let weight : DirectiveValue := .int (-9223372036854775808)
    let note : DirectiveValue := .string "a \"quote\"\\\n\t\x01 é 😀"
    let link : Directive :=
      ⟨"relation", .ofList [("weight", weight), ("note", note), ("lazy", .bool true)]⟩
    let film : FieldDefinition :=
      ⟨"film", .nonNull (.list (.nonNull (.named "Фильм"))), [⟨"first", .named "Int", [link]⟩],
        [link]⟩
    let r : Registry := .ofList [⟨"Person", .unknown, [film], []⟩, ⟨"", .object, [], [link]⟩]
    r.toJson.depth ≤ 127 ∧ (∀ t ∈ r.types, ∀ d ∈ t.allDirectives, d.isInt64) ∧
      ∃ text back,
        r.toText? .json = some text ∧ ofText .json text = .ok back ∧ r.sameTypes back := by
  intro weight note link film r
  have hd : r.toJson.depth ≤ 127 := by decide +kernel
  have hi : ∀ t ∈ r.types, ∀ d ∈ t.allDirectives, d.isInt64 := by decide +kernel
  obtain ⟨text, back, htext, hback, hsame, -⟩ := ofText_json_toText r hd hi
  exact ⟨hd, hi, text, back, htext, hback, hsame⟩

end Registry

end TemporalGraph.Schema
