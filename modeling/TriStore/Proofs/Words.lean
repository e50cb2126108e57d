import TriStore.Proofs.Text

/-!
# The words of a text

The words of a text are its longest stretches without a blank. Words that are joined by single spaces
are found again, so this is a canonical way to write a text down as far as its words go.
-/

namespace TriStore.Text

structure IsWord (s : String) : Prop where
  ne_empty : s ≠ ""
  not_blank : ∀ c ∈ s.toList, isBlank c = false

theorem isWord_iff {s : String} : IsWord s ↔ s ≠ "" ∧ ∀ c ∈ s.toList, isBlank c = false :=
  ⟨fun h => ⟨h.ne_empty, h.not_blank⟩, fun h => ⟨h.1, h.2⟩⟩

instance (s : String) : Decidable (IsWord s) :=
  have := List.decidableBAll (fun c => isBlank c = false) s.toList
  decidable_of_iff _ isWord_iff.symm

theorem IsWord.oneLine {s : String} (h : IsWord s) : OneLine s := by
  intro c hc hblank
  rw [h.not_blank c hc] at hblank
  cases hblank

/-- A text as gaps of blanks and the words between them. After a word it ends or goes on with a blank,
so a word is as long as it can be. -/
inductive Spelled : List Char → List String → Prop where
  | blank {gap : List Char} : (∀ c ∈ gap, isBlank c = true) → Spelled gap []
  | word {gap rest : List Char} {word : String} {words : List String} :
      (∀ c ∈ gap, isBlank c = true) → IsWord word → (∀ c ∈ rest.head?, isBlank c = true) →
      Spelled rest words → Spelled (gap ++ (word.toList ++ rest)) (word :: words)

variable {cs gap : List Char} {word : String} {ws : List String} {c : Char}

theorem Spelled.isWord (h : Spelled cs ws) : ∀ word ∈ ws, IsWord word := by
  induction h with
  | blank => exact nofun
  | word hgap hword hrest _ ih => exact List.forall_mem_cons.mpr ⟨hword, ih⟩

theorem Spelled.leading {rest : List Char} (hword : IsWord word)
    (hrest : ∀ c ∈ rest.head?, isBlank c = true) (h : Spelled rest ws) :
    Spelled (word.toList ++ rest) (word :: ws) :=
  @Spelled.word [] rest word ws nofun hword hrest h

theorem Spelled.cons_blank (hc : isBlank c = true) (h : Spelled cs ws) : Spelled (c :: cs) ws := by
  cases h with
  | blank hgap => exact .blank (List.forall_mem_cons.mpr ⟨hc, hgap⟩)
  | word hgap hword hrest h =>
    exact .word (List.forall_mem_cons.mpr ⟨hc, hgap⟩) hword hrest h

theorem Spelled.append_blank (h : Spelled cs ws) (hgap : ∀ c ∈ gap, isBlank c = true) :
    Spelled (cs ++ gap) ws := by
  induction h with
  | blank hcs => exact .blank (List.forall_mem_append.mpr ⟨hcs, hgap⟩)
  | @word first rest word words hfirst hword hrest _ ih =>
    have hafter : ∀ c ∈ (rest ++ gap).head?, isBlank c = true := by
      cases rest with
      | nil => exact fun c hc => hgap c (List.mem_of_mem_head? hc)
      | cons c rest => exact hrest
    rw [List.append_assoc, List.append_assoc]
    exact .word hfirst hword hafter ih

theorem isWord_ofList (hne : cs ≠ []) (h : ∀ c ∈ cs, isBlank c = false) :
    IsWord (String.ofList cs) := by
  refine ⟨fun hempty => hne ?_, ?_⟩
  · rw [← String.toList_ofList (l := cs), hempty, String.toList_empty]
  · rw [String.toList_ofList]
    exact h

/-- A character that is no blank begins a new word or the one that stands there. -/
theorem Spelled.cons_not_blank (hc : isBlank c = false) (h : Spelled cs ws) :
    ∃ ws', Spelled (c :: cs) ws' := by
  have hsingle : IsWord (String.ofList [c]) :=
    isWord_ofList (List.cons_ne_nil _ _) (List.forall_mem_singleton.mpr hc)
  have hnew (hrest : ∀ d ∈ cs.head?, isBlank d = true) : ∃ ws', Spelled (c :: cs) ws' := by
    refine ⟨String.ofList [c] :: ws, ?_⟩
    have hspelled := h.leading hsingle hrest
    rwa [String.toList_ofList] at hspelled
  cases h with
  | blank hgap =>
    apply hnew
    intro d hd
    exact hgap d (List.mem_of_mem_head? hd)
  | @word gap rest word words hgap hword hrest htail =>
    cases gap with
    | cons d gap =>
      apply hnew
      intro e he
      rw [List.cons_append, List.head?_cons, Option.mem_some_iff] at he
      exact he ▸ hgap d List.mem_cons_self
    | nil =>
      have hlonger : IsWord (String.ofList (c :: word.toList)) :=
        isWord_ofList (List.cons_ne_nil _ _) (List.forall_mem_cons.mpr ⟨hc, hword.not_blank⟩)
      refine ⟨String.ofList (c :: word.toList) :: words, ?_⟩
      have hspelled := htail.leading hlonger hrest
      rwa [String.toList_ofList] at hspelled

theorem exists_spelled (cs : List Char) : ∃ ws, Spelled cs ws := by
  induction cs with
  | nil => exact ⟨[], .blank nofun⟩
  | cons c cs ih =>
    obtain ⟨ws, h⟩ := ih
    cases hc : isBlank c with
    | true => exact ⟨ws, h.cons_blank hc⟩
    | false => exact h.cons_not_blank hc

theorem words_ofList_blank (hc : isBlank c = true) (cs : List Char) :
    words (String.ofList (c :: cs)) = words (String.ofList cs) := by
  simp only [words, String.toList_ofList, splitOn, hc, if_true]
  rfl

theorem words_ofList_append (hgap : ∀ c ∈ gap, isBlank c = true) (cs : List Char) :
    words (String.ofList (gap ++ cs)) = words (String.ofList cs) := by
  induction gap with
  | nil => rfl
  | cons c gap ih =>
    obtain ⟨hc, hgap⟩ := List.forall_mem_cons.mp hgap
    rw [List.cons_append, words_ofList_blank hc, ih hgap]

theorem words_word_append (hword : IsWord word) {rest : List Char}
    (hrest : ∀ c ∈ rest.head?, isBlank c = true) :
    words (String.ofList (word.toList ++ rest)) = word :: words (String.ofList rest) := by
  have hkept : (!word.toList.isEmpty) = true := by
    rw [Bool.not_eq_true', List.isEmpty_eq_false_iff, ne_eq, String.toList_eq_nil_iff]
    exact hword.ne_empty
  have hfirst (parts : List (List Char)) :
      ((word.toList :: parts).filter (!·.isEmpty)).map String.ofList =
        word :: (parts.filter (!·.isEmpty)).map String.ofList := by
    rw [List.filter_cons, if_pos hkept, List.map_cons, String.ofList_toList]
  cases rest with
  | nil =>
    rw [words, String.toList_ofList, List.append_nil, splitOn_eq_splitOnP,
      List.splitOnP_eq_singleton hword.not_blank, hfirst]
    rfl
  | cons c rest =>
    have hc := hrest c rfl
    rw [words_ofList_blank hc, words, words, String.toList_ofList, String.toList_ofList,
      splitOn_eq_splitOnP, splitOn_eq_splitOnP,
      List.splitOnP_append_cons_of_forall_mem hword.not_blank c hc, hfirst]

theorem words_eq (h : Spelled cs ws) : words (String.ofList cs) = ws := by
  induction h with
  | @blank gap hgap =>
    rw [← List.append_nil gap, words_ofList_append hgap]
    rfl
  | word hgap hword hrest _ ih =>
    rw [words_ofList_append hgap, words_word_append hword hrest, ih]

theorem spelled_iff {s : String} : Spelled s.toList ws ↔ words s = ws := by
  constructor
  · intro h
    rw [← words_eq h, String.ofList_toList]
  · intro h
    obtain ⟨ws', hspelled⟩ := exists_spelled s.toList
    have hwords := words_eq hspelled
    rw [String.ofList_toList, h] at hwords
    exact hwords ▸ hspelled

theorem spelled_intercalate (h : ∀ word ∈ ws, IsWord word) :
    Spelled (" ".intercalate ws).toList ws := by
  induction ws with
  | nil => exact .blank nofun
  | cons word ws ih =>
    obtain ⟨hword, hws⟩ := List.forall_mem_cons.mp h
    cases ws with
    | nil =>
      have hspelled : Spelled (word.toList ++ []) [word] := .leading hword nofun (.blank nofun)
      rwa [List.append_nil] at hspelled
    | cons next ws =>
      rw [String.intercalate_cons_cons, String.toList_append, String.toList_append,
        List.append_assoc]
      have hspace : isBlank ' ' = true := by decide
      refine .leading hword ?_ ((ih hws).cons_blank hspace)
      intro c hc
      cases hc
      exact hspace

theorem words_intercalate (h : ∀ word ∈ ws, IsWord word) : words (" ".intercalate ws) = ws :=
  spelled_iff.mp (spelled_intercalate h)

theorem words_trim (s : String) : words (trim s) = words s := by
  have hblank (c : Char) (hc : c ∈ s.toList.takeWhile isBlank) : isBlank c = true :=
    List.mem_takeWhile_imp hc
  have hblank' (c : Char) (hc : c ∈ (s.toList.dropWhile isBlank).rtakeWhile isBlank) :
      isBlank c = true := List.mem_rtakeWhile_imp hc
  have hsplit : s.toList = s.toList.takeWhile isBlank ++ ((trim s).toList ++
      (s.toList.dropWhile isBlank).rtakeWhile isBlank) := by
    rw [trim_eq, String.toList_ofList, List.rdropWhile_append_rtakeWhile,
      List.takeWhile_append_dropWhile]
  have hspelled : Spelled (trim s).toList (words (trim s)) := spelled_iff.mpr rfl
  have hwords : words (String.ofList s.toList) = words (trim s) := by
    rw [hsplit, words_ofList_append hblank, words_eq (hspelled.append_blank hblank')]
  rw [← hwords, String.ofList_toList]

theorem trim_ne_empty {s : String} (h : words s ≠ []) : trim s ≠ "" := by
  intro hempty
  rw [← words_trim, hempty] at h
  exact h rfl

theorem trim_eq_self (h : ∀ c ∈ word.toList, isBlank c = false) : trim word = word := by
  have hstart : word.toList.dropWhile isBlank = word.toList :=
    List.dropWhile_eq_self_iff.mpr fun hpos => by
      rw [h _ (List.getElem_mem hpos)]
      exact Bool.false_ne_true
  have hend : word.toList.rdropWhile isBlank = word.toList :=
    List.rdropWhile_eq_self_iff.mpr fun hne => by
      rw [h _ (List.getLast_mem hne)]
      exact Bool.false_ne_true
  rw [trim_eq, hstart, hend, String.ofList_toList]

end TriStore.Text
