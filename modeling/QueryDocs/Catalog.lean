import QueryDocs.Import.Operations
import QueryDocs.Request

/-! # Catalogs of operations

A `Catalog` holds the operations of many files, file by file, in the order in which the files and
the operations were added. -/

namespace QueryDocs

/-- The operations of the files of one name. -/
structure FileOperations where
  /-- The name of the files. -/
  name : String
  /-- The operations in the order in which they were added. -/
  records : List OperationRecord
deriving DecidableEq, Repr

/-- Operations by file. -/
structure Catalog where
  /-- The files in the order in which they were first added. -/
  groups : List FileOperations
deriving DecidableEq, Repr

namespace Catalog

/-- The catalog without operations. -/
def empty : Catalog := ⟨[]⟩

/-- Adds an operation to the file it belongs to, or as a new file behind the others. -/
def insertInto (r : OperationRecord) : List FileOperations → List FileOperations
  | [] => [⟨r.file, [r]⟩]
  | g :: gs => if g.name = r.file then ⟨g.name, g.records ++ [r]⟩ :: gs else g :: insertInto r gs

/-- Adds an operation. -/
def insert (c : Catalog) (r : OperationRecord) : Catalog := ⟨insertInto r c.groups⟩

/-- Adds operations in order. -/
def extend (c : Catalog) (rs : List OperationRecord) : Catalog := rs.foldl insert c

/-- The catalog of the given operations. -/
def ofList (rs : List OperationRecord) : Catalog := empty.extend rs

/-- Adds the operations of a file; also says how many there are. -/
def load (c : Catalog) (store : FileStore) (path : String) (options : ImportOptions) :
    Except ImportError (Catalog × Nat) :=
  (store.importFile path options).map fun rs => (c.extend rs, rs.length)

/-! ### Observations -/

/-- The names of the files, in order. -/
def files (c : Catalog) : List String := c.groups.map (·.name)

/-- All operations, file by file. -/
def toList (c : Catalog) : List OperationRecord := c.groups.flatMap (·.records)

/-- The number of operations. -/
def size (c : Catalog) : Nat := c.groups.foldl (fun n g => n + g.records.length) 0

/-- Whether there are no operations. -/
def isEmpty (c : Catalog) : Bool := c.groups.all (·.records.isEmpty)

/-- The operations of a file. -/
def inFile (c : Catalog) (file : String) : List OperationRecord :=
  match c.groups.find? (·.name == file) with
  | some g => g.records
  | none => []

/-- The first operation of a file. -/
def find? (c : Catalog) (file : String) : Option OperationRecord := (c.inFile file).head?

/-- The first operation of a name in a file. -/
def findInFile? (c : Catalog) (file name : String) : Option OperationRecord :=
  (c.inFile file).find? (·.hasName name)

/-- The first operation of a name and a type in a file. -/
def findExact? (c : Catalog) (file name : String) (type : OperationType) :
    Option OperationRecord :=
  (c.inFile file).find? fun r => r.hasName name && r.type == type

/-- The first operation of a name. -/
def findNamed? (c : Catalog) (name : String) : Option OperationRecord :=
  c.toList.find? (·.hasName name)

/-- The first operation of a name and a type. -/
def findTyped? (c : Catalog) (name : String) (type : OperationType) : Option OperationRecord :=
  c.toList.find? fun r => r.hasName name && r.type == type

/-- All operations of a name. -/
def findAll (c : Catalog) (name : String) : List OperationRecord := c.toList.filter (·.hasName name)

theorem size_eq_length_toList (c : Catalog) : c.size = c.toList.length := by
  have (gs : List FileOperations) (n : Nat) :
      gs.foldl (fun n g => n + g.records.length) n = n + (gs.flatMap (·.records)).length := by
    induction gs generalizing n with
    | nil => simp
    | cons g gs ih => simp [ih, Nat.add_assoc]
  simpa [size, toList] using this c.groups 0

theorem isEmpty_iff {c : Catalog} : c.isEmpty = true ↔ c.toList = [] := by
  simp [isEmpty, toList]

end Catalog

/-! ### Records as JSON -/

/-- The word for a type of operations in a record. -/
def OperationType.title : OperationType → String
  | .query => "Query"
  | .mutation => "Mutation"
  | .subscription => "Subscription"

/-- A record as a JSON value. -/
def OperationRecord.toJson (r : OperationRecord) : Json :=
  .object [("fileName", .string r.file),
    ("operationName", match r.name with
      | some name => .string name
      | none => .null),
    ("operationType", .string r.type.title), ("source", .string r.source)]

/-- The request that runs an operation. -/
def OperationRecord.toRequest (r : OperationRecord) (values : Option Json) : Request :=
  ⟨r.source, r.name, values⟩

/-- A catalog as a JSON value. -/
def Catalog.toJson (c : Catalog) : Json :=
  .object [("files", .object (c.groups.map fun g =>
    (g.name, .array (g.records.map OperationRecord.toJson))))]

end QueryDocs
