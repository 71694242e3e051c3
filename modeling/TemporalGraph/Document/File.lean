import TemporalGraph.Config
import TemporalGraph.Document.Format
import TemporalGraph.Error
import TemporalGraph.Schema.Document
/-!
Registries and configurations from texts and files. The content of a file is looked at before its
name: a file that is not there or is not text is reported first.
-/

namespace TemporalGraph

def fileText (content : Option ByteArray) : Except Error String :=
  match content with
  | none => .error (.file "the file does not exist")
  | some bytes =>
    match String.fromUTF8? bytes with
    | some text => .ok text
    | none => .error (.file "the file is not text")

namespace Schema.Registry

def ofText (f : Format) (text : String) : Except Error Registry :=
  match (f.parse? text).bind ofDocument? with
  | some r => .ok r
  | none =>
    if f = .json then .error (.malformed "the document is not a registry")
    else .error (.configuration "the document is not a registry")

def toText? (f : Format) (r : Registry) : Option String := f.render? r.toJson

def comesBack (f : Format) (r : Registry) : Bool :=
  match r.toText? f with
  | some text =>
    match ofText f text with
    | .ok back => r.sameTypes back
    | .error _ => false
  | none => false

def ofFile (name : String) (content : Option ByteArray) : Except Error Registry := do
  let text ← fileText content
  match Format.ofFileName? name with
  | some f => ofText f text
  | none =>
    .error (.configuration "Unsupported registry file format. Use .toml, .json, or .yaml")

end Schema.Registry

namespace Config

def ofFile (name : String) (content : Option ByteArray) : Except Error Config := do
  let text ← fileText content
  match Format.ofFileName? name with
  | some f =>
    match (f.parse? text).bind ofDocument? with
    | some c => .ok c
    | none => .error (.configuration "the document is not a configuration")
  | none =>
    .error (.configuration "Unsupported config file format. Use .toml, .json, or .yaml")

end Config

def ofJson {α : Type} (read? : Document → Option α) (text : String) : Except Error α :=
  match (Json.parse? text).bind read? with
  | some a => .ok a
  | none => .error (.malformed "the document has another shape")

end TemporalGraph
