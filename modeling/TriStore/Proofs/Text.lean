import Mathlib.Data.List.DropRight
import TriStore.Text

/-!
# Words and lines

Cutting a text up takes the separators out of it: a word has no blank and a line no line feed. So a
text made of words with single spaces between them stays on its line, and lines that are printed one
below the other are found again.
-/

namespace TriStore.Text

theorem splitOn_eq_splitOnP (separator : Char → Bool) (cs : List Char) :
    splitOn separator cs = cs.splitOnP separator := by
  induction cs with
  | nil => rfl
  | cons c cs ih =>
    rw [splitOn, ih, List.splitOnP_cons_eq_if_modifyHead]
    split
    · rfl
    · have hne : cs.splitOnP separator ≠ [] := List.splitOnP_ne_nil _ _
      cases hparts : cs.splitOnP separator with
      | nil => exact absurd hparts hne
      | cons part parts => rfl

theorem not_separator_of_mem {separator : Char → Bool} {cs part : List Char}
    (hpart : part ∈ splitOn separator cs) {c : Char} (hc : c ∈ part) : separator c = false := by
  induction cs generalizing part with
  | nil =>
    rw [splitOn, List.mem_singleton] at hpart
    subst hpart
    cases hc
  | cons first cs ih =>
    rw [splitOn] at hpart
    split at hpart
    · rcases List.mem_cons.mp hpart with rfl | hpart
      · cases hc
      · exact ih hpart hc
    · next hfirst =>
      split at hpart
      · rw [List.mem_singleton] at hpart
        subst hpart
        rw [List.mem_singleton] at hc
        simpa [hc] using hfirst
      · next head parts hparts =>
        rcases List.mem_cons.mp hpart with rfl | hpart
        · rcases List.mem_cons.mp hc with rfl | hc
          · simpa using hfirst
          · exact ih (hparts ▸ List.mem_cons_self) hc
        · exact ih (hparts ▸ List.mem_cons_of_mem _ hpart) hc

theorem trim_eq (s : String) :
    trim s = String.ofList ((s.toList.dropWhile isBlank).rdropWhile isBlank) := rfl

theorem trim_trim (s : String) : trim (trim s) = trim s := by
  rw [trim_eq (trim s), trim_eq s, String.toList_ofList]
  generalize hcs : s.toList.dropWhile isBlank = cs
  have hstart : (cs.rdropWhile isBlank).dropWhile isBlank = cs.rdropWhile isBlank := by
    rw [List.dropWhile_eq_self_iff]
    intro hpos
    have hinit : cs.rdropWhile isBlank <+: cs := List.rdropWhile_prefix isBlank cs
    have hlength : 0 < cs.length := Nat.lt_of_lt_of_le hpos hinit.length_le
    rw [hinit.getElem hpos]
    have hidem : cs.dropWhile isBlank = cs := by
      rw [← hcs, List.dropWhile_idempotent]
    exact List.dropWhile_eq_self_iff.mp hidem hlength
  rw [hstart, List.rdropWhile_idempotent]

/-- Whether a text has no blanks but spaces, and so no end of a line. -/
def OneLine (s : String) : Prop := ∀ c ∈ s.toList, isBlank c = true → c = ' '

instance (s : String) : Decidable (OneLine s) :=
  List.decidableBAll (fun c => isBlank c = true → c = ' ') s.toList

namespace OneLine
variable {s t : String}

theorem empty : OneLine "" := by
  intro c hc
  rw [String.toList_empty] at hc
  cases hc

theorem space : OneLine " " := by
  intro c hc _
  exact List.mem_singleton.mp hc

theorem append (hs : OneLine s) (ht : OneLine t) : OneLine (s ++ t) := by
  intro c hc
  rw [String.toList_append, List.mem_append] at hc
  rcases hc with hc | hc
  · exact hs c hc
  · exact ht c hc

theorem not_mem_lineFeed (hs : OneLine s) : '\n' ∉ s.toList := by
  intro hmem
  have hspace : '\n' = ' ' := hs '\n' hmem rfl
  cases hspace

theorem of_mem_words (h : t ∈ words s) : OneLine t := by
  intro c hc hblank
  obtain ⟨part, hpart, rfl⟩ := List.mem_map.mp h
  rw [String.toList_ofList] at hc
  have hword := not_separator_of_mem (List.mem_of_mem_filter hpart) hc
  rw [hblank] at hword
  cases hword

theorem intercalate_space {texts : List String} (h : ∀ s ∈ texts, OneLine s) :
    OneLine (" ".intercalate texts) := by
  induction texts with
  | nil =>
    rw [String.intercalate_nil]
    exact empty
  | cons s texts ih =>
    obtain ⟨hs, htexts⟩ := List.forall_mem_cons.mp h
    cases texts with
    | nil =>
      rw [String.intercalate_singleton]
      exact hs
    | cons t texts =>
      rw [String.intercalate_cons_cons]
      exact (hs.append space).append (ih htexts)

end OneLine

theorem lines_join {printed : List String} (h : ∀ line ∈ printed, '\n' ∉ line.toList) :
    lines (String.join (printed.map (· ++ "\n"))) = printed ++ [""] := by
  have hsplit : ((printed.map (· ++ "\n")).flatMap String.toList).splitOnP (· == '\n') =
      printed.map String.toList ++ [[]] := by
    induction printed with
    | nil => rfl
    | cons line printed ih =>
      obtain ⟨hline, hprinted⟩ := List.forall_mem_cons.mp h
      have hnone : ∀ c ∈ line.toList, (c == '\n') = false := by
        intro c hc
        rw [beq_eq_false_iff_ne]
        rintro rfl
        exact hline hc
      rw [List.map_cons, List.flatMap_cons, String.toList_append, List.append_assoc]
      have hfirst := List.splitOnP_append_cons_of_forall_mem hnone '\n' rfl
        ((printed.map (· ++ "\n")).flatMap String.toList)
      rw [ih hprinted] at hfirst
      exact hfirst
  rw [lines, splitOn_eq_splitOnP, String.toList_join, hsplit, List.map_append, List.map_map]
  simp [Function.comp_def]

end TriStore.Text
