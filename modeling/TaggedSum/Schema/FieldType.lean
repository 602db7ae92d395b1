import TaggedSum.IntWidth
import TaggedSum.Text.Basic
import TaggedSum.Text.Name

namespace TaggedSum

inductive FieldType where
  | string
  | signed (w : IntWidth)
  | unsigned (w : IntWidth)
  | bool
  | reference (name : String)
  | seq (item : FieldType)
  | map (entry : FieldType)
  deriving DecidableEq

namespace FieldType

def text : FieldType → String
  | string => "string"
  | signed w => "i" ++ toString w.bits
  | unsigned w => "u" ++ toString w.bits
  | bool => "bool"
  | reference name => name
  | seq item => "seq<" ++ item.text ++ ">"
  | map entry => "map<" ++ entry.text ++ ">"

/-- The definition that the type refers to, through sequences and mappings. -/
def reference? : FieldType → Option String
  | reference name => some name
  | seq item => item.reference?
  | map entry => entry.reference?
  | _ => none

/-- The types that are one word of their own. -/
def word? : String → Option FieldType
  | "string" => some string
  | "str" => some string
  | "bool" => some bool
  | "boolean" => some bool
  | "i8" => some (signed .w8)
  | "i16" => some (signed .w16)
  | "i32" => some (signed .w32)
  | "i64" => some (signed .w64)
  | "u8" => some (unsigned .w8)
  | "u16" => some (unsigned .w16)
  | "u32" => some (unsigned .w32)
  | "u64" => some (unsigned .w64)
  | _ => none

/-- What follows a word at the start of a text. -/
def behind? : List Char → List Char → Option (List Char)
  | [], cs => some cs
  | w :: word, c :: cs => if c = w then behind? word cs else none
  | _ :: _, [] => none

/-- What stands between the angle brackets behind a word; white space may come before the first. -/
def argument? (word cs : List Char) : Option (List Char) :=
  match behind? word cs with
  | none => none
  | some rest =>
    match Text.trimStart rest with
    | '<' :: body => if body.getLast? = some '>' then some body.dropLast else none
    | _ => none

theorem eq_append_of_behind? {word cs rest : List Char} (h : behind? word cs = some rest) :
    cs = word ++ rest := by
  fun_induction behind? word cs with
  | case1 cs => simp_all
  | case2 w word cs ih => simp [ih h]
  | case3 => simp at h
  | case4 => simp at h

theorem argument?_length {word cs body : List Char} (h : argument? word cs = some body) :
    body.length < cs.length := by
  unfold argument? at h
  split at h
  · simp at h
  · rename_i rest hp
    have h₁ : rest.length ≤ cs.length := by simp [eq_append_of_behind? hp]
    have h₂ : (Text.trimStart rest).length ≤ rest.length :=
      (List.dropWhile_sublist Text.isBlank).length_le
    split at h
    · rename_i inner hi
      rw [hi, List.length_cons] at h₂
      split at h
      · simp only [Option.some.injEq] at h
        rw [← h, List.length_dropLast]
        omega
      · simp at h
    · simp at h

theorem length_trim_le (cs : List Char) : (Text.trim cs).length ≤ cs.length := by
  have h (l : List Char) : (Text.trimStart l).length ≤ l.length :=
    (List.dropWhile_sublist Text.isBlank).length_le
  have h₁ := h (Text.trimStart cs).reverse
  have h₂ := h cs
  simp only [Text.trim, Text.trimEnd, List.length_reverse] at *
  omega

/-- A word that is no type of its own refers to the definition of that name. -/
def ofWord? (s : String) : Option FieldType :=
  match word? s with
  | some t => some t
  | none => if Text.isIdentifier s then some (reference s) else none

def ofChars? (cs : List Char) : Option FieldType :=
  match _hs : argument? ['s', 'e', 'q'] (Text.trim cs) with
  | some body => (ofChars? body).map seq
  | none =>
    match _hm : argument? ['m', 'a', 'p'] (Text.trim cs) with
    | some body => (ofChars? body).map map
    | none => ofWord? (.ofList (Text.trim cs))
termination_by cs.length
decreasing_by
  · have := argument?_length _hs
    have := length_trim_le cs
    omega
  · have := argument?_length _hm
    have := length_trim_le cs
    omega

/-- The type that a text spells. White space may surround a type, and `str` and `boolean` are other
words for `string` and `bool`. -/
def ofText? (s : String) : Option FieldType := ofChars? s.toList

end FieldType

end TaggedSum
