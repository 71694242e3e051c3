import TemporalGraph.Compiler.Basic
import TemporalGraph.Text.Search
/-!
Compiled fields given as templates. In the query of a template `<key>` stands for the result of the
call; the parameters are fixed, or those of the call under other names.
-/

namespace TemporalGraph

/-- A text with every occurrence of `needle` replaced, from left to right. `skip` characters still
belong to the last occurrence. -/
def Text.replaceAll (needle replacement : List Char) (skip : Nat) : List Char → List Char
  | [] => []
  | c :: cs =>
    match skip with
    | skip + 1 => replaceAll needle replacement skip cs
    | 0 =>
      if (Text.afterLiteral? needle (c :: cs)).isSome then
        replacement ++ replaceAll needle replacement (needle.length - 1) cs
      else c :: replaceAll needle replacement 0 cs

structure Template where
  name : String
  type : Schema.TypeRef
  kind : ResolverKind
  query : String
  /-- The parameters, if they do not come from the call. -/
  params : Option Params
  rename : List (String × String)
  failure : Option Error

namespace Template

def newName (t : Template) (key : String) : String :=
  ((t.rename.find? fun r => r.1 == key).map Prod.snd).getD key

def resolve (t : Template) (call : Call) : Except Error Statement :=
  match t.failure with
  | some e => .error e
  | none =>
    let query := Text.replaceAll "<key>".toList call.resultKey.toList 0 t.query.toList
    let renamed := call.params.entries.map fun e => (t.newName e.1, e.2)
    .ok ⟨String.ofList query, t.params.getD (.ofList renamed)⟩

def field (t : Template) : CompiledField := ⟨t.name, t.type, t.kind, t.resolve⟩

def compiler (queries mutations : List Template) (failure : Option Error) : Compiler := fun _ =>
  match failure with
  | some e => .error e
  | none => .ok ⟨queries.map field, mutations.map field⟩

end Template

end TemporalGraph
