import TriStore.Json.Codec
import TriStore.Proofs.Json.Syntax

/-!
# The texts of values

Which JSON texts give a value of a kind. A structure is given by an object with its fields in any
order and other fields among them, or by an array of its first fields. A field that is not given keeps
what it is without a text, so only a field that has this value may be left out.
-/

namespace TriStore.Json

section Values
variable {α : Type}

/-- A natural number below 2^64 is given by its decimal numeral. -/
def NaturalText (n : Nat) (text : List Char) : Prop := n < 1 <<< 64 ∧ text = Text.decimal n

inductive OptionalText (T : α → List Char → Prop) : Option α → List Char → Prop where
  | null : OptionalText T none ['n', 'u', 'l', 'l']
  | value {x : α} {text : List Char} : T x text → OptionalText T (some x) text

/-- A name stands alone, or in an object with null as its value. -/
inductive NameText (name : α → String) : α → List Char → Prop where
  | alone {x : α} {text : List Char} : Quoted (name x) text → NameText name x text
  | member {x : α} {before quoted between front after : List Char} : Space before →
      Quoted (name x) quoted → Space between → Space front → Space after →
      NameText name x ('{' :: (before ++ (quoted ++ (between ++ ':' ::
        (front ++ 'n' :: 'u' :: 'l' :: 'l' :: (after ++ ['}']))))))

inductive Commas (T : α → List Char → Prop) : List α → List Char → Prop where
  | one {x : α} {text : List Char} : T x text → Commas T [x] text
  | cons {x : α} {xs : List α} {text more : List Char} : T x text → Commas T xs more →
      Commas T (x :: xs) (text ++ ',' :: more)

inductive Bracketed (b : Bracket) (T : α → List Char → Prop) : List α → List Char → Prop where
  | empty {space : List Char} : Space space →
      Bracketed b T [] (b.opening :: (space ++ [b.closing]))
  | items {xs : List α} {text : List Char} : Commas T xs text →
      Bracketed b T xs (b.opening :: (text ++ [b.closing]))

end Values

/-- The name of a member of an object, and the text of its value. -/
abbrev Member := String × List Char

inductive MemberText : Member → List Char → Prop where
  | parts {name : String} {value before quoted between front after : List Char} : Space before →
      Quoted name quoted → Space between → Space front → Space after →
      MemberText (name, value)
        (before ++ (quoted ++ (between ++ ':' :: (front ++ (value ++ after)))))

inductive ItemText : List Char → List Char → Prop where
  | parts {value before after : List Char} : Space before → Space after →
      ItemText value (before ++ (value ++ after))

/-- A field of a structure, told from the texts that give it. -/
structure Form (σ : Type) where
  name : String
  gives : σ → List Char → Prop
  /-- Without a text for the field the structure is what it is. -/
  absent : σ → Prop
  /-- Two structures agree in the field. -/
  same : σ → σ → Prop

namespace Form
variable {σ α : Type}

/-- A field without which there is no structure. -/
def required (name : String) (T : α → List Char → Prop) (get : σ → α) : Form σ :=
  ⟨name, fun x => T (get x), fun _ => False, fun x y => get x = get y⟩

/-- A field that has a value where none is given. -/
def optional (name : String) (T : α → List Char → Prop) (get : σ → α) (default : α) : Form σ :=
  ⟨name, fun x => T (get x), fun x => get x = default, fun x y => get x = get y⟩

end Form

section Structures
variable {σ : Type}

/-- The value of a known field is of a kind that depends on the field, that of another field is any
well-formed one. -/
structure Member.Fits (forms : List (Form σ)) (kind : Form σ → List Char → Prop) (m : Member) :
    Prop where
  known : ∀ f ∈ forms, f.name = m.1 → kind f m.2
  unknown : (∀ f ∈ forms, f.name ≠ m.1) → Formed none m.2

/-- The members give a structure: each field at most once, and those that are not given may be left
out. -/
structure Given (forms : List (Form σ)) (x : σ) (members : List Member) : Prop where
  fits : ∀ m ∈ members, m.Fits forms (·.gives x)
  once : ∀ f ∈ forms, (members.map Prod.fst).count f.name ≤ 1
  lacking : ∀ f ∈ forms, f.name ∉ members.map Prod.fst → f.absent x

/-- The values of the first fields give a structure: all others may be left out. -/
inductive Listed (x : σ) : List (Form σ) → List (List Char) → Prop where
  | stop {forms : List (Form σ)} : (∀ f ∈ forms, f.absent x) → Listed x forms []
  | item {f : Form σ} {forms : List (Form σ)} {value : List Char} {values : List (List Char)} :
      f.gives x value → Listed x forms values → Listed x (f :: forms) (value :: values)

inductive StructureText (forms : List (Form σ)) (x : σ) : List Char → Prop where
  | object {members : List Member} {text : List Char} : Bracketed .curly MemberText members text →
      Given forms x members → StructureText forms x text
  | array {values : List (List Char)} {text : List Char} : Bracketed .square ItemText values text →
      Listed x forms values → StructureText forms x text

/-- An object with a known field a second time. The members in front of it are as they should be;
its value, and what follows, may be anything. -/
inductive RepeatedText (forms : List (Form σ)) : List Char → Prop where
  | object {before after : List Member} {name : String} {value text : List Char} :
      Bracketed .curly MemberText (before ++ (name, value) :: after) text →
      (∀ m ∈ before, m.Fits forms fun f value => ∃ x, f.gives x value) →
      (∃ f ∈ forms, f.name = name) → name ∈ before.map Prod.fst → RepeatedText forms text

end Structures

def Document (T : List Char → Prop) (text : String) : Prop :=
  ∃ before body after, Space before ∧ Space after ∧ text.toList = before ++ (body ++ after) ∧ T body

/-- Texts that give a structure are read as it, and those with a field a second time are not read. -/
structure Codec.ReadsDocuments {σ : Type} (c : Codec σ) (forms : List (Form σ)) : Prop where
  given : ∀ (x : σ) (text : String), Document (StructureText forms x) text → c.decode text = .ok x
  repeated : ∀ text : String, Document (RepeatedText forms) text → c.decode text = .error .mismatch

end TriStore.Json
