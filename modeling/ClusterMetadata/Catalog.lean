/-!
The names of the keyspaces and tables that the cluster keeps about itself.
-/

namespace ClusterMetadata.Catalog

-- Local to each node.
def system : String := "system"

def keyspaces : String := "schema_keyspaces"
def tables : String := "schema_columnfamilies"
def columns : String := "schema_columns"

-- The tables that hold the schema, in the order in which they are digested and sent.
def schema : List String := [keyspaces, tables, columns]

def isSchema (table : String) : Bool := schema.contains table

def registry : String := "metadata_registry"
def tags : String := "metadata_tags"

-- Replicated like user data.
def metadata : String := "system_metadata"

def log : String := "log"

end ClusterMetadata.Catalog
