import ClusterMetadata.Document.Config
import ClusterMetadata.Yaml.Reading

/-!
Settings as they are written in a file. A structure is a record there.
-/

namespace ClusterMetadata.Document

instance : Source Yaml.Tree where
  text? := Yaml.Tree.text?
  bool? := Yaml.Tree.bool?
  nat? := Yaml.Tree.nat?
  items? := Yaml.Tree.items?
  fields? names t := do names.mapM (field? (← t.record?))

-- The path of the file is not known here.
def readConfig (b : Bytes) : Except ConfigError Config := do
  match Utf8.decode? b with
  | none   => throw (.unreadable "" .notText)
  | some s =>
    match Yaml.tree? s >>= Source.config? with
    | none   => throw .malformed
    | some c =>
      c.validate.mapError ConfigError.invalid
      return c

end ClusterMetadata.Document
