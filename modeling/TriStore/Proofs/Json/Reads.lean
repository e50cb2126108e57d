import TriStore.Json.Shape
import TriStore.Proofs.Json.Skip
import TriStore.Proofs.Json.Texts

/-!
# Reading the texts of values

A codec reads a value off each of its texts, with space in front and whatever may follow a value
behind. For a structure this holds whatever the order of its fields and whatever stands between them:
while it is read, it agrees with the structure that is given in all fields but those still to come.
-/

namespace TriStore.Json

/-- A text that starts neither with space nor with the end of an array. -/
def Starts (text : List Char) : Prop := ∃ c more, text = c :: more ∧ isSpace c = false ∧ c ≠ ']'

theorem Starts.skipSpace {space text : List Char} (h : Starts text) (hspace : Space space)
    (rest : List Char) : skipSpace (space ++ (text ++ rest)) = text ++ rest := by
  obtain ⟨c, more, rfl, hc, -⟩ := h
  rw [skipSpace_append hspace]
  exact skipSpace_cons hc _

namespace Codec
variable {α : Type} {c : Codec α} {T : α → List Char → Prop}

structure Reads (c : Codec α) (T : α → List Char → Prop) : Prop where
  starts : ∀ {x text}, T x text → Starts text
  read : ∀ {x text space rest}, T x text → Space space → Ends rest →
    c.read (space ++ (text ++ rest)) = .ok (x, rest)

theorem Reads.decode (h : c.Reads T) {x : α} {text : String} (htext : Document (T x) text) :
    c.decode text = .ok x := by
  obtain ⟨before, body, after, hbefore, hafter, hlist, hbody⟩ := htext
  have hends : Ends after := by
    have hends := hafter.ends ends_nil
    rwa [List.append_nil] at hends
  have hrest : skipSpace after = [] := by
    have hskip := skipSpace_append hafter []
    rwa [List.append_nil] at hskip
  rw [Codec.decode, hlist, Reader.all, h.read hbody hbefore hends]
  simp only [bind, Except.bind, hrest]
  rfl

theorem text_reads : text.Reads Quoted where
  starts := by
    rintro x _ ⟨body, -, rfl⟩
    exact ⟨'"', _, rfl, rfl, by decide⟩
  read := by
    rintro x _ space rest ⟨body, hbody, rfl⟩ hspace _
    simp only [text, readText, List.cons_append, List.append_assoc, List.nil_append,
      skipSpace_append hspace, skipSpace_cons (show isSpace '"' = false from rfl)]
    exact hbody.readQuoted rest

def NotNull (T : α → List Char → Prop) : Prop := ∀ {x text}, T x text → text.head? ≠ some 'n'

theorem text_notNull : NotNull Quoted := by
  rintro x _ ⟨body, -, rfl⟩ hnull
  cases hnull

theorem natural_reads : natural.Reads NaturalText where
  starts := by
    rintro n _ ⟨-, rfl⟩
    obtain ⟨c, more, hdecimal, -, hspace, hne⟩ := (numeralText_decimal n).exists_first
    exact ⟨c, more, hdecimal, hspace, hne ']' rfl⟩
  read := by
    rintro n _ space rest ⟨hn, rfl⟩ hspace hrest
    obtain ⟨c, more, hdecimal, hstarts, hc, -⟩ := (numeralText_decimal n).exists_first
    have hnumber := readNumber_decimal hn hrest
    rw [hdecimal, List.cons_append] at hnumber
    simp only [natural, hdecimal, List.cons_append, readNatural, skipSpace_append hspace,
      skipSpace_cons hc]
    rw [if_pos hstarts, hnumber]
    rfl

theorem natural_notNull : NotNull NaturalText := by
  rintro n _ ⟨-, rfl⟩ hnull
  obtain ⟨c, more, hdecimal, -, -, hne⟩ := (numeralText_decimal n).exists_first
  rw [hdecimal] at hnull
  exact hne 'n' rfl (Option.some.inj hnull)

theorem optional_reads (h : c.Reads T) (hnull : NotNull T) : c.optional.Reads (OptionalText T) where
  starts := by
    rintro _ _ (_ | hvalue)
    · exact ⟨'n', _, rfl, rfl, by decide⟩
    · exact h.starts hvalue
  read := by
    rintro _ _ space rest (_ | hvalue) hspace hrest
    · simp only [optional, skipSpace_append hspace, List.cons_append,
        skipSpace_cons (show isSpace 'n' = false from rfl)]
      rfl
    · have hread := h.read hvalue space_nil hrest
      have hn := hnull hvalue
      simp only [optional, (h.starts hvalue).skipSpace hspace]
      obtain ⟨d, more, rfl, -⟩ := h.starts hvalue
      simp only [List.nil_append, List.cons_append] at hread ⊢
      split
      · next heq => exact absurd (congrArg some (List.cons.inj heq).1) hn
      · rw [hread]
        rfl

theorem names_reads {all : List α} {name : α → String} (h : ∀ x, named all name (name x) = .ok x) :
    (names all name).Reads (NameText name) where
  starts := by
    rintro x _ (hquoted | _)
    · exact text_reads.starts hquoted
    · exact ⟨'{', _, rfl, rfl, by decide⟩
  read := by
    rintro x _ space rest
      (⟨body, hbody, rfl⟩ | ⟨hbefore, ⟨body, hbody, rfl⟩, hbetween, hfront, hafter⟩) hspace _
    · simp only [names, List.cons_append, List.append_assoc, List.nil_append,
        skipSpace_append hspace, skipSpace_cons (show isSpace '"' = false from rfl),
        hbody.readQuoted, h, bind, Except.bind]
      rfl
    · have hnull (s : List Char) : expect ['u', 'l', 'l'] ('u' :: 'l' :: 'l' :: s) = .ok s := rfl
      simp only [names, List.cons_append, List.append_assoc, List.nil_append,
        skipSpace_append hspace, skipSpace_cons (show isSpace '{' = false from rfl),
        expectMark_append hbefore, expectMark_cons (show isSpace '"' = false from rfl),
        hbody.readQuoted, h, bind, Except.bind, expectMark_append hbetween,
        expectMark_cons (show isSpace ':' = false from rfl), readNull, skipSpace_append hfront,
        skipSpace_cons (show isSpace 'n' = false from rfl), hnull, expectMark_append hafter,
        expectMark_cons (show isSpace '}' = false from rfl)]
      rfl

end Codec

end TriStore.Json
