/-!
TOML documents as trees of named items. Headers and dotted keys may add to a table in several
places, but no key is given twice and no table is defined twice.
-/
namespace FlowGraph.Toml

/-- How a table came to be: by its header, by the header of a table below it, or by a dotted key. -/
inductive Origin where
  | header
  | implied
  | dotted
deriving DecidableEq, Repr

/-- The scalars that are no texts: a date or a time is a moment, a number is unreadable if it is too
large for every type of numbers or is not written in digits throughout, and all else is plain. -/
inductive Scalar where
  | plain
  | moment
  | unreadable
deriving DecidableEq, Repr

/-- `inline` is a table written as a value, `tables` an array whose elements have headers. -/
inductive Item where
  | text (value : String)
  | scalar (kind : Scalar)
  | array (items : List Item)
  | inline (fields : List (String × Item))
  | table (origin : Origin) (fields : List (String × Item))
  | tables (elements : List (List (String × Item)))

/-- The items of a table, by name. -/
abbrev Fields : Type := List (String × Item)

namespace Fields

/-- Puts an item in the place of the one of that name. -/
def put (fields : Fields) (name : String) (item : Item) : Fields :=
  fields.map fun (n, old) => (n, if n = name then item else old)

/-- Changes the table at the end of a path of header names, creating the tables that are missing.
In an array of tables the last one is meant. -/
def descend (change : Fields → Option Fields) : List String → Fields → Option Fields
  | [], fields => change fields
  | name :: path, fields =>
    match fields.lookup name with
    | none => do return fields ++ [(name, .table .implied (← descend change path []))]
    | some (.table origin inner) => do
      return put fields name (.table origin (← descend change path inner))
    | some (.tables elements) =>
      match elements.getLast? with
      | none => none
      | some last => do
        return put fields name (.tables (elements.dropLast ++ [← descend change path last]))
    | some _ => none

/-- Gives a value to a dotted key. Only tables that dotted keys created can be added to. The way to
them may also lead through tables that headers imply and through the last table of an array. -/
def assign (value : Item) : List String → Fields → Option Fields
  | [], _ => none
  | [name], fields =>
    if (fields.lookup name).isSome then none else some (fields ++ [(name, value)])
  | name :: next :: path, fields =>
    match fields.lookup name with
    | none => do return fields ++ [(name, .table .dotted (← assign value (next :: path) []))]
    | some (.table .dotted inner) => do
      return put fields name (.table .dotted (← assign value (next :: path) inner))
    | some (.table .implied inner) =>
      if path.isEmpty then none
      else do return put fields name (.table .implied (← assign value (next :: path) inner))
    | some (.tables elements) =>
      match elements.getLast? with
      | none => none
      | some last =>
        if path.isEmpty then none
        else do
          let last ← assign value (next :: path) last
          return put fields name (.tables (elements.dropLast ++ [last]))
    | some _ => none

/-- Defines a table by its header. -/
def define (name : String) (fields : Fields) : Option Fields :=
  match fields.lookup name with
  | none => some (fields ++ [(name, .table .header [])])
  | some (.table .implied inner) => some (put fields name (.table .header inner))
  | some _ => none

/-- Appends a table to an array of tables. -/
def extend (name : String) (fields : Fields) : Option Fields :=
  match fields.lookup name with
  | none => some (fields ++ [(name, .tables [[]])])
  | some (.tables elements) => some (put fields name (.tables (elements ++ [[]])))
  | some _ => none

end Fields

mutual

/-- Whether an item has no number that is unreadable. -/
def Item.isReadable : Item → Bool
  | .text _ => true
  | .scalar kind => kind != .unreadable
  | .array items => allReadable items
  | .inline fields | .table _ fields => fieldsReadable fields
  | .tables elements => tablesReadable elements

def allReadable : List Item → Bool
  | [] => true
  | item :: rest => item.isReadable && allReadable rest

def fieldsReadable : List (String × Item) → Bool
  | [] => true
  | (_, item) :: rest => item.isReadable && fieldsReadable rest

def tablesReadable : List (List (String × Item)) → Bool
  | [] => true
  | fields :: rest => fieldsReadable fields && tablesReadable rest

end

/-- One entry of a document. -/
inductive Entry where
  | header (path : List String) (name : String)
  | arrayHeader (path : List String) (name : String)
  | assignment (key : List String) (value : Item)

/-- The table that a list of entries amounts to, if they fit together. Assignments belong to the
header before them. -/
def Fields.ofEntries? : List Entry → List String → Fields → Option Fields
  | [], _, root => some root
  | .header path name :: rest, _, root => do
    ofEntries? rest (path ++ [name]) (← descend (define name) path root)
  | .arrayHeader path name :: rest, _, root => do
    ofEntries? rest (path ++ [name]) (← descend (extend name) path root)
  | .assignment key value :: rest, here, root => do
    ofEntries? rest here (← descend (assign value key) here root)

end FlowGraph.Toml
