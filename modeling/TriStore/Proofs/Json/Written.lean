import Mathlib.Data.List.Nodup
import TriStore.Proofs.Json.Structures

/-!
# Reading back what was written

What a codec writes for a value is one of the texts of the value, so a codec that reads these returns
the value. For a structure it is an object of the fields in order, less those that are left out.
-/

namespace TriStore.Json

namespace Codec
variable {α : Type} {c : Codec α} {T : α → List Char → Prop} {x : α}

/-- A value is read off the front of every text that starts with what is written for it. -/
def Returns (c : Codec α) (x : α) : Prop :=
  ∀ rest, Ends rest → c.read (c.write x ++ rest) = .ok (x, rest)

theorem Reads.returns (h : c.Reads T) (hx : T x (c.write x)) : c.Returns x :=
  fun _ hrest => h.read hx space_nil hrest

theorem Returns.decode_encode (h : c.Returns x) : c.decode (c.encode x) = .ok x := by
  have hread := h [] ends_nil
  rw [List.append_nil] at hread
  rw [decode, encode, String.toList_ofList, Reader.all, hread]
  rfl

theorem optional_written {x : Option α} (h : ∀ a, x = some a → T a (c.write a)) :
    OptionalText T x (c.optional.write x) := by
  cases x with
  | none => exact .null
  | some a => exact .value (h a rfl)

end Codec

section Fields
variable {σ α : Type} {x : σ} {name : String} {c : Codec α} {T : α → List Char → Prop}

structure Field.Writes (x : σ) (f : Field σ) (g : Form σ) : Prop where
  name_eq : f.name = g.name
  gives : ∀ value, f.write x = some value → g.gives x value
  absent : f.write x = none → g.absent x

theorem Field.writes_mandatory {get : σ → α} {set : α → σ → σ} (h : T (get x) (c.write (get x))) :
    Field.Writes x (.mandatory name c get set) (.required name T get) where
  name_eq := rfl
  gives := by
    rintro _ ⟨⟩
    exact h
  absent := nofun

theorem Field.writes_defaulted {get : σ → α} {set : α → σ → σ} (h : T (get x) (c.write (get x)))
    (default : α) :
    Field.Writes x (.defaulted name c get set) (.optional name T get default) where
  name_eq := rfl
  gives := by
    rintro _ ⟨⟩
    exact h
  absent := nofun

theorem Field.writes_omitted {get : σ → Option α} {set : Option α → σ → σ}
    (h : ∀ a, get x = some a → T a (c.write a)) :
    Field.Writes x (.omitted name c get set) (.optional name (OptionalText T) get none) where
  name_eq := rfl
  gives := by
    intro value hvalue
    obtain ⟨a, ha, rfl⟩ := Option.map_eq_some_iff.mp hvalue
    have htext : OptionalText T (get x) (c.write a) := by
      rw [ha]
      exact .value (h a ha)
    exact htext
  absent := Option.map_eq_none_iff.mp

end Fields

namespace Shape
variable {σ : Type} {shape : Shape σ} {fields : List (Field σ)} {forms : List (Form σ)} {x : σ}

def members (fields : List (Field σ)) (x : σ) : List Member :=
  fields.filterMap fun f => (f.write x).map (Prod.mk f.name)

theorem mem_members {m : Member} :
    m ∈ members fields x ↔ ∃ f ∈ fields, f.name = m.1 ∧ f.write x = some m.2 := by
  obtain ⟨name, value⟩ := m
  simp only [members, List.mem_filterMap, Option.map_eq_some_iff, Prod.mk.injEq]
  constructor
  · rintro ⟨f, hf, value, hwrite, rfl, rfl⟩
    exact ⟨f, hf, rfl, hwrite⟩
  · rintro ⟨f, hf, rfl, hwrite⟩
    exact ⟨f, hf, value, hwrite, rfl, rfl⟩

theorem members_sublist (h : List.Forall₂ (Field.Writes x) fields forms) :
    ((members fields x).map Prod.fst).Sublist (forms.map Form.name) := by
  induction h with
  | nil => exact List.nil_sublist _
  | @cons f g fields forms hwrites _ ih =>
    rw [List.map_cons]
    cases hwrite : f.write x with
    | none =>
      rw [members, List.filterMap_cons_none (by rw [hwrite]; rfl)]
      exact ih.cons _
    | some value =>
      rw [members, List.filterMap_cons_some (by rw [hwrite]; rfl), List.map_cons, hwrites.name_eq]
      exact ih.cons_cons _

theorem given_members (h : List.Forall₂ (Field.Writes x) fields forms)
    (hnames : (forms.map Form.name).Nodup) : Given forms x (members fields x) where
  fits := by
    intro m hm
    obtain ⟨f, hf, hname, hwrite⟩ := mem_members.mp hm
    obtain ⟨g, hg, hwrites⟩ := exists_related h hf
    have hname' : g.name = m.1 := hwrites.name_eq.symm.trans hname
    refine ⟨fun g' hg' heq => ?_, fun hother => absurd hname' (hother g hg)⟩
    obtain rfl := List.inj_on_of_nodup_map hnames hg' hg (heq.trans hname'.symm)
    exact hwrites.gives _ hwrite
  once := fun g _ => List.nodup_iff_count_le_one.mp (hnames.sublist (members_sublist h)) g.name
  lacking := by
    intro g hg hname
    obtain ⟨f, hf, hwrites⟩ := exists_related (R := fun g f => Field.Writes x f g) h.flip hg
    refine hwrites.absent (Option.eq_none_iff_forall_ne_some.mpr fun value hwrite => hname ?_)
    exact List.mem_map.mpr ⟨(f.name, value), mem_members.mpr ⟨f, hf, rfl, hwrite⟩, hwrites.name_eq⟩

theorem writeField_written (m : Member) : MemberText m (writeField m.1 m.2) := by
  have htext : MemberText m ([] ++ (writeQuoted m.1 ++ ([] ++ ':' :: ([] ++ (m.2 ++ []))))) :=
    .parts space_nil (quoted_written m.1) space_nil space_nil space_nil
  rwa [List.append_nil] at htext

theorem commas_intercalate {α : Type} {T : α → List Char → Prop} {write : α → List Char}
    (h : ∀ a, T a (write a)) (a : α) (as : List α) :
    Commas T (a :: as) (List.intercalate [','] ((a :: as).map write)) := by
  induction as generalizing a with
  | nil =>
    rw [List.map_singleton, List.intercalate_singleton]
    exact .one (h a)
  | cons b as ih =>
    rw [List.map_cons, List.map_cons, List.intercalate_cons_cons, List.append_assoc, ← List.map_cons]
    exact .cons (h a) (ih b)

theorem written (h : List.Forall₂ (Field.Writes x) shape.fields forms)
    (hnames : (forms.map Form.name).Nodup) : StructureText forms x (shape.codec.write x) := by
  have hwrite : shape.codec.write x = '{' :: (List.intercalate [',']
      ((members shape.fields x).map fun m => writeField m.1 m.2) ++ ['}']) := by
    simp only [codec, write, members, List.map_filterMap, Option.map_map, Function.comp_def]
  refine .object ?_ (given_members h hnames)
  rw [hwrite]
  cases members shape.fields x with
  | nil => exact .empty space_nil
  | cons m ms => exact .items (commas_intercalate writeField_written m ms)

end Shape

end TriStore.Json
