import TemporalGraph.Json.Printer
import TemporalGraph.Json.Reader
import TemporalGraph.Toml.Printer
import TemporalGraph.Toml.Reader
import TemporalGraph.Yaml.Printer
import TemporalGraph.Yaml.Reader
/-! The formats of documents, and which format a file has by its name. -/

namespace TemporalGraph

inductive Format where
  | json
  | yaml
  | toml
  deriving Repr, DecidableEq

namespace Format

/-- What stands behind the last point of a file name. A point at the start of the name begins no
extension. -/
def extension? (fileName : String) : Option String :=
  let name := (fileName.toList.reverse.takeWhile (· != '/')).reverse
  let behind := (name.reverse.takeWhile (· != '.')).reverse
  if behind.length + 1 < name.length then some (String.ofList behind) else none

def ofFileName? (fileName : String) : Option Format :=
  match extension? fileName with
  | some "toml" => some .toml
  | some "json" => some .json
  | some "yaml" | some "yml" => some .yaml
  | _ => none

def parse? (f : Format) (text : String) : Option Document :=
  match f with
  | json => Json.parse? text
  | yaml => Yaml.parse? text
  | toml => Toml.parse? text

def render? (f : Format) (v : Json.Value) : Option String :=
  match f with
  | json => some v.toText
  | yaml => some (Yaml.render v)
  | toml => Toml.render? v

end Format

end TemporalGraph
