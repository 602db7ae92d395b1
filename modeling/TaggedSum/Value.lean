import TaggedSum.Payload

namespace TaggedSum

/-- Values of a schema. The members of a struct and the entries of a mapping are sorted by name. -/
inductive Value where
  | string (s : String)
  | signed (n : Int)
  | unsigned (n : Nat)
  | bool (b : Bool)
  | variant (choice : Choice Value)
  | record (payload : Payload Value)
  | seq (items : List Value)
  | map (entries : List (String × Value))

namespace Value

inductive Kind where
  | string
  | signed
  | unsigned
  | bool
  | variant
  | record
  | seq
  | map
  deriving DecidableEq

def Kind.name : Kind → String
  | string => "string"
  | signed => "signed"
  | unsigned => "unsigned"
  | bool => "bool"
  | variant => "variant"
  | record => "record"
  | seq => "seq"
  | map => "map"

def kind : Value → Kind
  | string _ => .string
  | signed _ => .signed
  | unsigned _ => .unsigned
  | bool _ => .bool
  | variant _ => .variant
  | record _ => .record
  | seq _ => .seq
  | map _ => .map

mutual

def same : Value → Value → Bool
  | string a, string b => a == b
  | signed a, signed b => a == b
  | unsigned a, unsigned b => a == b
  | bool a, bool b => a == b
  | variant a, variant b => sameChoice a b
  | record a, record b => samePayload a b
  | seq a, seq b => sameItems a b
  | map a, map b => sameMembers a b
  | _, _ => false

def sameChoice : Choice Value → Choice Value → Bool
  | ⟨s, a⟩, ⟨t, b⟩ => s == t && samePayload a b

def samePayload : Payload Value → Payload Value → Bool
  | .unit, .unit => true
  | .newtype a, .newtype b => a.same b
  | .tuple a, .tuple b => sameItems a b
  | .struct a, .struct b => sameMembers a b
  | _, _ => false

def sameItems : List Value → List Value → Bool
  | [], [] => true
  | a :: as, b :: bs => a.same b && sameItems as bs
  | _, _ => false

def sameMembers : List (String × Value) → List (String × Value) → Bool
  | [], [] => true
  | (k, a) :: as, (l, b) :: bs => k == l && a.same b && sameMembers as bs
  | _, _ => false

end

mutual

theorem same_iff_eq : ∀ a b : Value, a.same b = true ↔ a = b
  | string a, b => by cases b <;> simp [same]
  | signed a, b => by cases b <;> simp [same]
  | unsigned a, b => by cases b <;> simp [same]
  | bool a, b => by cases b <;> simp [same]
  | variant a, b => by cases b <;> simp [same, sameChoice_iff_eq a]
  | record a, b => by cases b <;> simp [same, samePayload_iff_eq a]
  | seq a, b => by cases b <;> simp [same, sameItems_iff_eq a]
  | map a, b => by cases b <;> simp [same, sameMembers_iff_eq a]

theorem sameChoice_iff_eq : ∀ a b : Choice Value, sameChoice a b = true ↔ a = b
  | ⟨s, a⟩, ⟨t, b⟩ => by simp [sameChoice, samePayload_iff_eq a]

theorem samePayload_iff_eq : ∀ a b : Payload Value, samePayload a b = true ↔ a = b
  | .unit, b => by cases b <;> simp [samePayload]
  | .newtype a, b => by cases b <;> simp [samePayload, same_iff_eq a]
  | .tuple a, b => by cases b <;> simp [samePayload, sameItems_iff_eq a]
  | .struct a, b => by cases b <;> simp [samePayload, sameMembers_iff_eq a]

theorem sameItems_iff_eq : ∀ a b : List Value, sameItems a b = true ↔ a = b
  | [], b => by cases b <;> simp [sameItems]
  | a :: as, b => by cases b <;> simp [sameItems, same_iff_eq a, sameItems_iff_eq as]

theorem sameMembers_iff_eq : ∀ a b : List (String × Value), sameMembers a b = true ↔ a = b
  | [], b => by cases b <;> simp [sameMembers]
  | (k, a) :: as, [] => by simp [sameMembers]
  | (k, a) :: as, (l, b) :: bs => by
    simp [sameMembers, same_iff_eq a, sameMembers_iff_eq as, Prod.ext_iff]

end

instance : DecidableEq Value := fun a b => decidable_of_iff _ (same_iff_eq a b)

end Value

end TaggedSum
