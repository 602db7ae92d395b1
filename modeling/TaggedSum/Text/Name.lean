import TaggedSum.Text.Character

namespace TaggedSum.Text

def startsName (c : Char) : Bool := c.isAlpha || c == '_'

def continuesName (c : Char) : Bool := c.isAlphanum || c == '_'

/-- An ASCII letter or underscore, then letters, digits and underscores; a lone underscore is no
name. -/
def isIdentifier (s : String) : Bool :=
  match s.toList with
  | [] => false
  | c :: cs => startsName c && cs.all continuesName && s != "_"

/-- Variants and fields are named by identifiers that start with a letter. -/
def isMemberName (s : String) : Bool := isIdentifier s && s.toList.head? != some '_'

/-- Snake case of the rest of a name, behind the written character `last`. -/
def snakeFrom (last : Char) : List Char → List Char
  | [] => []
  | c :: cs =>
    if isUppercase c && last != '_' then '_' :: c.toLower :: snakeFrom c.toLower cs
    else c.toLower :: snakeFrom c.toLower cs

/-- An underscore goes before every capital that starts a new word, and ASCII capitals are lowered.
A capital at the start, or behind an underscore, gets none. -/
def snake : List Char → List Char
  | [] => []
  | c :: cs => c.toLower :: snakeFrom c.toLower cs

def snakeCase (s : String) : String := .ofList (snake s.toList)

end TaggedSum.Text
