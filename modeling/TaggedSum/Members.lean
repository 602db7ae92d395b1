namespace TaggedSum.Members

variable {α : Type}

/-- The first member of a name. -/
def get? (name : String) : List (String × α) → Option α
  | [] => none
  | (k, v) :: rest => if k = name then some v else get? name rest

/-- Sets a member: a repeated name keeps its place and takes the new value. -/
def set (name : String) (value : α) : List (String × α) → List (String × α)
  | [] => [(name, value)]
  | (k, v) :: rest => if k = name then (k, value) :: rest else (k, v) :: set name value rest

/-- Each name once, at the place where it first stands, with the value given last. -/
def merge (members : List (String × α)) : List (String × α) :=
  members.foldl (fun ms m => set m.1 m.2 ms) []

/-- Sets a member of a list sorted by name. -/
def insert (name : String) (value : α) : List (String × α) → List (String × α)
  | [] => [(name, value)]
  | (k, v) :: rest =>
    if name < k then (name, value) :: (k, v) :: rest
    else if k = name then (k, value) :: rest
    else (k, v) :: insert name value rest

/-- The members sorted by name, each name with the value given last. -/
def sorted (members : List (String × α)) : List (String × α) :=
  members.foldl (fun ms m => insert m.1 m.2 ms) []

def names (members : List (String × α)) : List String := members.map Prod.fst

end TaggedSum.Members
