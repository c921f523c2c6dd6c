import ClusterMetadata.Schema.Rows
import ClusterMetadata.Storage

/-!
Reading a keyspace back from the schema tables. A row exists while a live cell stands under its
marker; of several cells under one leaf the last in name order counts. Values that cannot be read
are refused, also in rows that do not exist, as long as the keyspace does.
-/

namespace ClusterMetadata.Stored

def cells (s : Storage) (table keyspace : String) : List Cell :=
  s.read ⟨Catalog.system, table, Utf8.encode keyspace⟩ .all

def under (cells : List Cell) (path : CellName) : List Cell :=
  cells.filter (path.isPrefixOf ·.name)

def present (cells : List Cell) (row : CellName) : Bool :=
  !(under cells (row.child Row.marker)).isEmpty

def value? (cells : List Cell) (path : CellName) : Option Bytes :=
  (under cells path).getLast?.map (·.value)

def text (cells : List Cell) (path : CellName) : String :=
  Utf8.lossy ((value? cells path).getD [])

-- The rows under `path` that exist, by the component that follows it.
def rowNames (cells : List Cell) (path : CellName) : List String :=
  let names := (under cells path).filterMap (·.name[path.length]?)
  names.eraseDups.filter fun name => present cells (path.child name)

def readOptions? (value : Bytes) : Option (SortedMap String String) :=
  Utf8.decode? value >>= OptionMap.parse?

def readId? (value : Bytes) : Option Uuid :=
  Uuid.parse? (Utf8.lossy value)

def readKind? (value : Bytes) : Option ColumnKind :=
  ColumnKind.parse? (Utf8.lossy value)

-- The options in `cells`, provided that whatever stands there can be read.
def options (keyspace : String) (cells : List Cell) :
    Except StorageError (SortedMap String String) := do
  let values ← (under cells [Row.strategyOptions]).mapM fun c =>
    match readOptions? c.value with
    | some options => pure options
    | none         => throw (.malformed Catalog.keyspaces (.strategyOptions keyspace))
  return values.getLast?.getD ∅

def checkId (keyspace : String) (c : Cell) : Except StorageError Unit :=
  match c.name with
  | table :: leaf :: _ =>
    if leaf = Row.id ∧ (readId? c.value).isNone then
      .error (.malformed Catalog.tables (.tableId keyspace table))
    else .ok ()
  | _ => .ok ()

def checkKind (keyspace : String) (c : Cell) : Except StorageError Unit :=
  match c.name with
  | table :: column :: leaf :: _ =>
    if leaf = Row.kind ∧ (readKind? c.value).isNone then
      .error (.malformed Catalog.columns (.columnKind keyspace table column))
    else .ok ()
  | _ => .ok ()

def column (cells : List Cell) (table name : String) : Column where
  name := name
  validator := text cells [table, name, Row.validator]
  kind := (value? cells [table, name, Row.kind]).bind readKind? |>.getD .regular

def columns (cells : List Cell) (table : String) : SortedMap String Column :=
  .ofList ((rowNames cells [table]).map fun name => (name, column cells table name))

-- `fresh` is the id of a table that has none stored.
def table (tableCells columnCells : List Cell) (keyspace name : String) (fresh : Uuid) : Table where
  keyspace := keyspace
  name := name
  id := (value? tableCells [name, Row.id]).bind readId? |>.getD fresh
  comment := text tableCells [name, Row.comment]
  columns := columns columnCells name

def tables (s : Storage) (keyspace : String) (fresh : Nat → Uuid) :
    Except StorageError (SortedMap String Table) := do
  let tableCells := cells s Catalog.tables keyspace
  let columnCells := cells s Catalog.columns keyspace
  tableCells.forM (checkId keyspace)
  columnCells.forM (checkKind keyspace)
  return .ofList ((rowNames tableCells []).zipIdx.map fun (name, i) =>
    (name, table tableCells columnCells keyspace name (fresh i)))

-- The keyspace of that name, if it exists. The `i`th table takes `fresh i` for an id that is not
-- stored.
def keyspace (s : Storage) (name : String) (fresh : Nat → Uuid) :
    Except StorageError (Option Keyspace) := do
  let attributes := cells s Catalog.keyspaces name
  let options ← options name attributes
  if !present attributes [] then return none
  let tables ← tables s name fresh
  return some {
    name
    strategyClass := text attributes [Row.strategyClass]
    strategyOptions := options
    durableWrites := (value? attributes [Row.durableWrites]).all (· == Utf8.encode "true")
    tables }

end ClusterMetadata.Stored
