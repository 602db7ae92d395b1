import TaggedSum.Schema.Basic
import TaggedSum.Schema.Error

namespace TaggedSum.Schema

/-- The part of a path that starts at a name, closed by that name. -/
def cycleFrom (name : String) (path : List String) : List String :=
  path.dropWhile (· != name) ++ [name]

theorem length_eraseP_lt {ds : List Definition} {p : Definition → Bool} {d : Definition}
    (h : ds.find? p = some d) : (ds.eraseP p).length < ds.length := by
  have hd := List.mem_of_find?_eq_some h
  have := List.length_pos_of_mem hd
  rw [List.length_eraseP_of_mem hd (List.find?_some h)]
  omega

mutual

/-- Adds a definition to the ordered ones, behind those that it refers to. The definitions that are
not on the path to it are `unopened`. -/
def visit (unopened : List Definition) (path : List String) (ordered : List Definition)
    (name : String) : Except SchemaError (List Definition) :=
  if ordered.any (·.name == name) then .ok ordered
  else
    match _h : unopened.find? (·.name == name) with
    | some d =>
      match visitAll (unopened.eraseP (·.name == name)) (path ++ [name]) ordered d.references with
      | .ok ordered => .ok (ordered ++ [d])
      | .error e => .error e
    | none =>
      if path.contains name then .error (.circularReference (cycleFrom name path)) else .ok ordered
termination_by (unopened.length, 0)
decreasing_by exact Prod.Lex.left _ _ (length_eraseP_lt _h)

def visitAll (unopened : List Definition) (path : List String) (ordered : List Definition) :
    List String → Except SchemaError (List Definition)
  | [] => .ok ordered
  | name :: names =>
    match visit unopened path ordered name with
    | .ok ordered => visitAll unopened path ordered names
    | .error e => .error e
termination_by names => (unopened.length, names.length + 1)
decreasing_by
  · exact Prod.Lex.right _ (by omega)
  · exact Prod.Lex.right _ (by simp)

end

/-- The definitions, each behind all that it refers to, and otherwise in the order of declaration.
The search goes depth first from each definition in turn, and fails where a reference leads back to
a definition that is still being searched. -/
def dependencyOrder (s : Schema) : Except SchemaError (List Definition) :=
  visitAll s.definitions [] [] (s.definitions.map Definition.name)

end TaggedSum.Schema
