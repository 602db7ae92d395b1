import TaggedSum.Xml.Fault
/-!
XML texts as sequences of events: tags, the characters of text and of CDATA sections, and
references. Comments, instructions, declarations and document types are read over. A text is scanned
character by character, so what has been read of it never depends on what follows.
-/
namespace TaggedSum.Xml

/-- A tag without its angle brackets and slashes: its name, and what is written behind it. -/
structure Tag where
  name : String
  written : List Char
  deriving DecidableEq

namespace Tag

def items (t : Tag) : List Item := Item.ofChars t.written

/-- The attributes among the items. Faults are passed over. -/
def attributes (t : Tag) : List Attribute := t.items.filterMap Item.found?

end Tag

inductive Event where
  | start (tag : Tag)
  | empty (tag : Tag)
  | stop
  | char (c : Char)
  | reference (body : List Char)
  deriving DecidableEq

/-- A place in a document type, before, inside or behind its internal subset. A `word` is what has
been read behind `<!`, comments count the dashes at their end, and an instruction knows whether a
question mark comes last. -/
inductive DoctypePlace where
  | outside
  | outsideQuote (quote : Char)
  | subset
  | opened
  | word (cs : List Char)
  | comment (dashes : Nat)
  | instruction (question : Bool)
  | declaration
  | declarationQuote (quote : Char)
  | markup
  | behind
  deriving DecidableEq

/-- What a scan is in. Bodies so far are in reverse. -/
inductive Mode where
  | text
  | reference (body : List Char)
  | opened
  | tag (body : List Char) (quote : Option Char)
  | instruction (body : List Char)
  | bang
  | dash
  | comment (dashes : Nat)
  | cdataWord (rest : List Char)
  | cdata (brackets : Nat)
  | doctypeWord (rest : List Char)
  | doctype (named : Bool) (place : DoctypePlace)
  deriving DecidableEq

/-- A mode and the names of the elements that are open, innermost first. -/
structure Scan where
  mode : Mode
  names : List (List Char)
  deriving DecidableEq

namespace Scan

def start : Scan := ⟨.text, []⟩

def tagOf (body : List Char) : Tag :=
  ⟨.ofList (body.takeWhile (!isSpace ·)), body.dropWhile (!isSpace ·)⟩

/-- The name of an end tag; white space behind it does not count, unless there is nothing else. -/
def endName (body : List Char) : List Char :=
  let name := (body.reverse.dropWhile isSpace).reverse
  if name.isEmpty then body else name

/-- A tag is complete: it starts, is or ends an element. -/
def close (names : List (List Char)) (body : List Char) : Except Fault (Scan × List Event) :=
  match body with
  | '/' :: rest =>
    let name := endName rest
    match names with
    | [] => .error (.unmatchedEnd (.ofList name))
    | expected :: names =>
      if name = expected then .ok (⟨.text, names⟩, [.stop])
      else .error (.mismatchedEnd (.ofList expected) (.ofList name))
  | _ =>
    if body.getLast? = some '/' then .ok (⟨.text, names⟩, [.empty (tagOf body.dropLast)])
    else .ok (⟨.text, body.takeWhile (!isSpace ·) :: names⟩, [.start (tagOf body)])

/-- The tag ends at the first `>` outside quotes. -/
def stepTag (names : List (List Char)) (body : List Char) (quote : Option Char) (c : Char) :
    Except Fault (Scan × List Event) :=
  match quote with
  | some q => .ok (⟨.tag (c :: body) (if c == q then none else some q), names⟩, [])
  | none =>
    if c == '>' then close names body.reverse
    else .ok (⟨.tag (c :: body) (if isQuote c then some c else none), names⟩, [])

/-- The declarations in which quoted strings may hold an angle bracket. -/
def quotedDeclarations : List (List Char) :=
  ["ENTITY".toList, "ATTLIST".toList, "NOTATION".toList]

def commentWord : List Char := ['-', '-']

/-- The place behind a word, as long as it may grow into one that matters. -/
def behindWord (word : List Char) : DoctypePlace :=
  if word = commentWord then .comment 0
  else if quotedDeclarations.contains word then .declaration
  else if (commentWord :: quotedDeclarations).any word.isPrefixOf then .word word
  else .markup

/-- The place behind a character of a document type; none at its end. -/
def stepDoctype (place : DoctypePlace) (c : Char) : Option DoctypePlace :=
  match place with
  | .outside =>
    if c == '>' then none
    else if c == '[' then some .subset
    else if isQuote c then some (.outsideQuote c)
    else some .outside
  | .outsideQuote q => some (if c == q then .outside else .outsideQuote q)
  | .subset => some (if c == ']' then .behind else if c == '<' then .opened else .subset)
  | .opened =>
    some (if c == '!' then .word []
      else if c == '?' then .instruction false
      else if c == '>' then .subset
      else .markup)
  | .word cs => some (if c == '>' then .subset else behindWord (cs ++ [c]))
  | .comment dashes =>
    some (if c == '-' then .comment (min (dashes + 1) 2)
      else if c == '>' && dashes == 2 then .subset
      else .comment 0)
  | .instruction question =>
    some (if c == '>' && question then .subset else .instruction (c == '?'))
  | .declaration =>
    some (if c == '>' then .subset else if isQuote c then .declarationQuote c else .declaration)
  | .declarationQuote q => some (if c == q then .declaration else .declarationQuote q)
  | .markup => some (if c == '>' then .subset else .markup)
  | .behind => if c == '>' then none else some .behind

def step (s : Scan) (c : Char) : Except Fault (Scan × List Event) :=
  let names := s.names
  match s.mode with
  | .text =>
    if c == '<' then .ok (⟨.opened, names⟩, [])
    else if c == '&' then .ok (⟨.reference [], names⟩, [])
    else .ok (s, [.char c])
  | .reference body =>
    if c == ';' then .ok (⟨.text, names⟩, [.reference body.reverse])
    else if c == '&' || c == '<' then .error .referenceNotClosed
    else .ok (⟨.reference (c :: body), names⟩, [])
  | .opened =>
    if c == '!' then .ok (⟨.bang, names⟩, [])
    else if c == '?' then .ok (⟨.instruction [], names⟩, [])
    else stepTag names [] none c
  | .tag body quote => stepTag names body quote c
  | .instruction body =>
    if c == '>' && body.head? == some '?' then .ok (⟨.text, names⟩, [])
    -- the question mark that opens an instruction does not close it as well
    else if c == '>' && body.isEmpty then .error .instructionNotClosed
    else .ok (⟨.instruction (c :: body), names⟩, [])
  | .bang =>
    if c == '-' then .ok (⟨.dash, names⟩, [])
    else if c == '[' then .ok (⟨.cdataWord ['C', 'D', 'A', 'T', 'A', '['], names⟩, [])
    else if c == 'D' || c == 'd' then
      .ok (⟨.doctypeWord ['o', 'c', 't', 'y', 'p', 'e'], names⟩, [])
    else .error .unknownMarkup
  | .dash => if c == '-' then .ok (⟨.comment 0, names⟩, []) else .error .commentNotClosed
  | .comment dashes =>
    if c == '-' then .ok (⟨.comment (min (dashes + 1) 2), names⟩, [])
    else if c == '>' && dashes == 2 then .ok (⟨.text, names⟩, [])
    else .ok (⟨.comment 0, names⟩, [])
  | .cdataWord rest =>
    match rest with
    | [w] => if c == w then .ok (⟨.cdata 0, names⟩, []) else .error .cdataNotClosed
    | w :: rest => if c == w then .ok (⟨.cdataWord rest, names⟩, []) else .error .cdataNotClosed
    | [] => .error .cdataNotClosed
  | .cdata brackets =>
    -- brackets are held back until it is known that they do not close the section
    if c == ']' then
      if brackets == 2 then .ok (s, [.char ']']) else .ok (⟨.cdata (brackets + 1), names⟩, [])
    else if c == '>' && brackets == 2 then .ok (⟨.text, names⟩, [])
    else .ok (⟨.cdata 0, names⟩, List.replicate brackets (.char ']') ++ [.char c])
  | .doctypeWord rest =>
    match rest with
    | [w] =>
      if c.toLower == w then .ok (⟨.doctype false .outside, names⟩, [])
      else .error .doctypeNotClosed
    | w :: rest =>
      if c.toLower == w then .ok (⟨.doctypeWord rest, names⟩, []) else .error .doctypeNotClosed
    | [] => .error .doctypeNotClosed
  | .doctype named place =>
    match stepDoctype place c with
    | some place => .ok (⟨.doctype (named || !isSpace c) place, names⟩, [])
    | none => if named then .ok (⟨.text, names⟩, []) else .error .doctypeWithoutName

/-- Whether an instruction that starts so is an XML declaration. -/
def isDeclaration (body : List Char) : Bool :=
  match body with
  | 'x' :: 'm' :: 'l' :: rest => rest.head?.all fun c => isSpace c || c == '?'
  | _ => false

/-- What is amiss if the text ends here; open elements are not. -/
def unfinished? (s : Scan) : Option Fault :=
  match s.mode with
  | .text => none
  | .reference _ => some .referenceNotClosed
  | .opened => some .tagNotClosed
  | .tag _ none => some .tagNotClosed
  | .tag _ (some quote) => some (.valueNotClosed quote)
  | .instruction body =>
    some (if isDeclaration body.reverse then .declarationNotClosed else .instructionNotClosed)
  | .bang => some .unknownMarkup
  | .dash => some .commentNotClosed
  | .comment _ => some .commentNotClosed
  | .cdataWord _ => some .cdataNotClosed
  | .cdata _ => some .cdataNotClosed
  | .doctypeWord _ => some .doctypeNotClosed
  | .doctype _ _ => some .doctypeNotClosed

end Scan

/-- The events of a text up to its end or to a fault. -/
structure Stream where
  events : List Event
  fault : Option Fault
  deriving DecidableEq

namespace Stream

def scan (s : Scan) : List Char → Stream
  | [] => ⟨[], s.unfinished?⟩
  | c :: cs =>
    match s.step c with
    | .error fault => ⟨[], some fault⟩
    | .ok (s, events) =>
      let rest := scan s cs
      ⟨events ++ rest.events, rest.fault⟩

/-- A byte order mark at the start does not belong to the text. -/
def withoutMark : List Char → List Char
  | '\ufeff' :: cs => cs
  | cs => cs

def ofText (s : String) : Stream := scan .start (withoutMark s.toList)

end Stream

end TaggedSum.Xml
