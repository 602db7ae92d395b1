import TaggedSum.Text.Basic
import TaggedSum.Wire.Tagged

namespace TaggedSum.Emit

def tab : String := "    "

/-- Lines moved to the right by one step; an empty line stays empty. -/
def indented (ls : List String) : List String := ls.map fun l => if l.isEmpty then l else tab ++ l

/-- A head with lines between braces. -/
def block (head : String) (body : List String) : List String :=
  (head ++ " \x7b") :: indented body ++ ["\x7d"]

/-- The lines with a text behind the last. -/
def closedBy (suffix : String) : List String → List String
  | [] => []
  | [l] => [l ++ suffix]
  | l :: ls => l :: closedBy suffix ls

def joined (ls : List String) : String := String.join (ls.map (· ++ "\n"))

def commaList (ss : List String) : String := String.intercalate ", " ss

/-- Documentation has a comment line for each of its lines, without the white space around it. -/
def docLines (indent docs : String) : List String :=
  (Text.lines docs.toList).map fun l =>
    let l := Text.trim l
    if l.isEmpty then indent ++ "///" else indent ++ "/// " ++ String.ofList l

def docComment (indent docs : String) : String := joined (docLines indent docs)

structure Config where
  runtimePath : String
  derives : List String
  docs : Bool
  constructors : Bool
  dispatch : Bool
  extraKeys : ExtraKeys
  deriving DecidableEq

namespace Config

def standard : Config :=
  ⟨"sumgen_core", ["Debug", "Clone", "PartialEq", "Eq"], true, true, true, .reject⟩

/-- The comment lines of a documentation, if documentation is emitted. -/
def docLines (c : Config) : Option String → List String
  | some docs => if c.docs then Emit.docLines "" docs else []
  | none => []

end Config

end TaggedSum.Emit
