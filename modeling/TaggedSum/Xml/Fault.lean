import TaggedSum.Xml.Attribute

namespace TaggedSum.Xml

inductive Fault where
  | unknownMarkup
  | commentNotClosed
  | cdataNotClosed
  | doctypeNotClosed
  | instructionNotClosed
  | declarationNotClosed
  | tagNotClosed
  | valueNotClosed (quote : Char)
  | doctypeWithoutName
  | unmatchedEnd (name : String)
  | mismatchedEnd (expected found : String)
  | referenceNotClosed
  | value (e : ValueError)
  deriving DecidableEq

namespace Fault

def notClosed (what terminator : String) : String :=
  what ++ " not closed: `" ++ terminator ++ "` not found before end of input"

def message : Fault → String
  | unknownMarkup => "syntax error: unknown or missed symbol in markup"
  | commentNotClosed => "syntax error: " ++ notClosed "comment" "-->"
  | cdataNotClosed => "syntax error: " ++ notClosed "CDATA" "]]>"
  | doctypeNotClosed => "syntax error: " ++ notClosed "DOCTYPE" ">"
  | instructionNotClosed => "syntax error: " ++ notClosed "processing instruction" "?>"
  | declarationNotClosed => "syntax error: " ++ notClosed "XML declaration" "?>"
  | tagNotClosed => "syntax error: " ++ notClosed "tag" ">"
  | valueNotClosed quote =>
    "syntax error: " ++ notClosed "attribute value" (String.singleton quote)
  | doctypeWithoutName =>
    "ill-formed document: `<!DOCTYPE>` declaration does not contain a name of a document type"
  | unmatchedEnd name =>
    "ill-formed document: close tag `</" ++ name ++ ">` does not match any open tag"
  | mismatchedEnd expected found =>
    "ill-formed document: expected `</" ++ expected ++ ">`, but `</" ++ found ++ ">` was found"
  | referenceNotClosed =>
    "ill-formed document: " ++ notClosed "entity or character reference" ";"
  | value e => e.message

end Fault

end TaggedSum.Xml
