import ParallelLint.Toml.Value

set_option autoImplicit false

namespace ParallelLint.Toml

namespace Fields

def replace (key : String) (value : Value) : Fields → Fields
  | [] => []
  | (k, v) :: rest => if k = key then (k, value) :: rest else (k, v) :: replace key value rest

def remove (key : String) (fields : Fields) : Fields := fields.filter fun field => field.1 ≠ key

/-- Changes the table that a path leads to. Missing tables on the way are implied ones, and of an
array of tables the last one is meant. Keys with dots go through implied tables only, which no
header can define any more after that, and nothing goes through braces from outside. -/
def update (dotted inline : Bool) (change : Origin → Fields → Option Fields) (origin : Origin)
    (path : List String) (fields : Fields) : Option Fields :=
  match path with
  | [] => change origin fields
  | key :: path =>
    match fields.lookup key with
    | none => do
      let origin : Origin := ⟨true, dotted, inline⟩
      let child ← update dotted inline change origin path []
      pure (fields ++ [(key, .table origin child)])
    | some (.table origin child) =>
      if (origin.inline && !inline) || (dotted && !origin.implied) then none
      else
        let origin := { origin with dotted := origin.dotted || dotted }
        (update dotted inline change origin path child).map fun child =>
          replace key (.table origin child) fields
    | some (.tables items) =>
      match items.getLast? with
      | some last =>
        (update dotted inline change .header path last).map fun last =>
          replace key (.tables (items.dropLast ++ [last])) fields
      | none => none
    | some _ => none

/-- Adds one new key. With dots in front of it the table must be one that such keys go through. -/
def insertKey (inline : Bool) (origin : Origin) (path : List String) (key : String)
    (value : Value) (fields : Fields) : Option Fields :=
  let dotted := !path.isEmpty
  update dotted inline
    (fun origin fields =>
      if origin.dotted != dotted || (fields.lookup key).isSome then none
      else some (fields ++ [(key, value)]))
    origin path fields

end Fields

/-- The header that is in force: the path to its table, the last key, and whether it adds to an
array of tables. -/
structure Header where
  path : List String
  key : String
  isArray : Bool

/-- A document that is being built. The table of the current header is put in its place when the
next header comes. -/
structure Draft where
  root : Fields
  header : Option Header
  current : Fields

namespace Draft

def empty : Draft := ⟨[], none, []⟩

def addTable (key : String) (table : Fields) (fields : Fields) : Option Fields :=
  match fields.lookup key with
  | none => some (fields ++ [(key, .tables [table])])
  | some (.tables items) => some (fields.replace key (.tables (items ++ [table])))
  | some _ => none

def finish (d : Draft) : Option Fields :=
  match d.header with
  | none => some d.current
  | some h =>
    Fields.update false false
      (fun _ fields =>
        if h.isArray then addTable h.key d.current fields
        else some (fields ++ [(h.key, .table .header d.current)]))
      .header h.path d.root

/-- The content that a header finds: nothing, or what an implied table holds. -/
def found? (key : String) (fields : Fields) : Option Fields :=
  match fields.lookup key with
  | none => some []
  | some (.table origin child) => if origin.implied && !origin.dotted then some child else none
  | some _ => none

def at? (path : List String) (fields : Fields) : Fields :=
  match path with
  | [] => fields
  | key :: path =>
    match fields.lookup key with
    | some (.table _ child) => at? path child
    | some (.tables items) => at? path (items.getLast?.getD [])
    | _ => []

/-- Starts the table of a header. An implied table is taken out, and comes last in its parent when
it is put back. -/
def start (d : Draft) (h : Header) : Option Draft := do
  let root ← d.finish
  if h.isArray then pure ⟨root, some h, []⟩
  else
    let current ← found? h.key (at? h.path root)
    let root ← Fields.update false false (fun _ fields => some (fields.remove h.key))
      .header h.path root
    pure ⟨root, some h, current⟩

def insert (d : Draft) (path : List String) (key : String) (value : Value) : Option Draft :=
  (Fields.insertKey false .header path key value d.current).map fun current =>
    { d with current }

end Draft
end ParallelLint.Toml
