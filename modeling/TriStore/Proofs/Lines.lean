import TriStore.Proofs.Grammar
import TriStore.Proofs.Words

/-!
# Requests and command lines

Of a line only the words count. Reading a line keeps all of them, so a request can be written as a line
from which it is read again, and so can every command whose texts are made of words.
-/

namespace TriStore

open Text (IsWord Spelled)

namespace Text

/-- A text that is absent, or words with single spaces between them. -/
inductive Phrase : Option String → List String → Prop where
  | absent : Phrase none []
  | present {ws : List String} : ws ≠ [] → (∀ word ∈ ws, IsWord word) →
      Phrase (some (" ".intercalate ws)) ws

theorem Phrase.of_some {s : String} {ws : List String} (h : Phrase (some s) ws) :
    ws ≠ [] ∧ (∀ word ∈ ws, IsWord word) ∧ s = " ".intercalate ws := by
  generalize htext : some s = text at h
  cases h with
  | absent => cases htext
  | present hne hwords => exact ⟨hne, hwords, Option.some.inj htext⟩

theorem intercalate_ne_empty {ws : List String} (hne : ws ≠ []) (h : ∀ word ∈ ws, IsWord word) :
    " ".intercalate ws ≠ "" := by
  intro hempty
  have hwords := words_intercalate h
  rw [hempty] at hwords
  exact hne hwords.symm

end Text

open Text (Phrase)

def Target.letter : Target → Letter
  | array => .none
  | hash => .h
  | tree => .r

theorem Target.getD_letter (target : Target) : target.letter.target?.getD .array = target := by
  cases target <;> rfl

/-- A command that can be written as a line, with the words of its value. -/
structure Command.Writable (command : Command) (values : List String) : Prop where
  key : IsWord command.key
  value : Phrase command.value? values

namespace Request

/-- What there is of a request, with single spaces between its parts. -/
def spelling (r : Request) : String := " ".intercalate (r.cmd :: (r.key.toList ++ r.value.toList))

def ofWords : List String → Request
  | [] => ⟨"", none, none, none⟩
  | [cmd] => ⟨cmd, none, none, none⟩
  | [cmd, key] => ⟨cmd, some key, none, none⟩
  | cmd :: key :: value => ⟨cmd, some key, some (" ".intercalate value), none⟩

variable {line : String} {ws : List String}

theorem ofLine_eq_ofWords (h : Spelled line.toList ws) : ofLine line = ofWords ws := by
  have hwords := Text.spelled_iff.mp h
  unfold ofLine
  rw [hwords]
  match ws with
  | [] => rfl
  | [cmd] => rfl
  | [cmd, key] => rfl
  | cmd :: key :: first :: value =>
    have hvalue : ∀ word ∈ first :: value, IsWord word := fun word hword =>
      h.isWord word (List.mem_cons_of_mem _ (List.mem_cons_of_mem _ hword))
    have hne := Text.intercalate_ne_empty (List.cons_ne_nil _ _) hvalue
    change (⟨cmd, some key, if (" ".intercalate (first :: value)).isEmpty then none else
      some (" ".intercalate (first :: value)), none⟩ : Request) = _
    rw [if_neg (mt String.isEmpty_iff.mp hne)]
    rfl

theorem phrase_ofWords (h : ∀ word ∈ ws, IsWord word) : Phrase (ofWords ws).value (ws.drop 2) := by
  match ws with
  | [] => exact .absent
  | [cmd] => exact .absent
  | [cmd, key] => exact .absent
  | cmd :: key :: first :: value =>
    refine .present (List.cons_ne_nil _ _) fun word hword => h word ?_
    exact List.mem_cons_of_mem _ (List.mem_cons_of_mem _ hword)

theorem spelling_ofWords (ws : List String) : (ofWords ws).spelling = " ".intercalate ws := by
  match ws with
  | [] => rfl
  | [cmd] => rfl
  | [cmd, key] => rfl
  | cmd :: key :: first :: value =>
    simp only [ofWords, spelling, Option.toList_some, List.cons_append, List.nil_append,
      String.intercalate_cons_cons, String.intercalate_singleton]

theorem ofWords_of_phrase {value : Option String} {values : List String} (cmd key : String)
    (h : Phrase value values) : ofWords (cmd :: key :: values) = ⟨cmd, some key, value, none⟩ := by
  cases h with
  | absent => rfl
  | present hne =>
    obtain ⟨first, values, rfl⟩ := List.exists_cons_of_ne_nil hne
    rfl

theorem required_of_isWord {missing : Malformed} {s : String} (h : IsWord s) :
    required missing (some s) = .ok s :=
  required_eq_ok_iff.mpr ⟨rfl, h.ne_empty⟩

theorem required_of_phrase {missing : Malformed} {s : String} (h : Phrase (some s) ws) :
    required missing (some s) = .ok s := by
  obtain ⟨hne, hwords, rfl⟩ := h.of_some
  exact required_eq_ok_iff.mpr ⟨rfl, Text.intercalate_ne_empty hne hwords⟩

theorem parse_of_spelled {target : Target} {command : Command} {values : List String}
    {name : VerbName} {word : String} (h : command.Writable values)
    (hname : name.verb = command.verb) (hword : Text.upper word = target.letter.text ++ name.text)
    (hline : Spelled line.toList (word :: command.key :: values)) :
    (ofLine line).parse = .ok (target, command) := by
  rw [ofLine_eq_ofWords hline, ofWords_of_phrase word command.key h.value]
  have hupper : Text.upper (Text.trim word) = target.letter.text ++ name.text := by
    rw [Text.trim_eq_self (hline.isWord word List.mem_cons_self).not_blank]
    exact hword
  have hsplit := CommandWord.split?_eq ⟨target.letter, name, hupper⟩
  rw [hname] at hsplit
  refine parse_eq_ok hsplit ?_ (required_of_isWord h.key) ?_
  · rw [resolveTarget_of_unnamed rfl, target.getD_letter]
  · intro value hvalue
    have hphrase := h.value
    rw [hvalue] at hphrase ⊢
    exact required_of_phrase hphrase

theorem writable_of_parse {target : Target} {command : Command}
    (h : (ofLine line).parse = .ok (target, command)) : ∃ values, command.Writable values := by
  have hreads := (ofLine line).parse_reads
  rw [h] at hreads
  have hline : Spelled line.toList (Text.words line) := Text.spelled_iff.mpr rfl
  cases hreads with
  | command _ _ hkey hvalue =>
    have hword : IsWord command.key :=
      hline.isWord _ (List.mem_of_getElem? (eq_some_of_required hkey))
    cases hgiven : command.value? with
    | none => exact ⟨[], hword, hgiven ▸ .absent⟩
    | some value =>
      have hphrase := phrase_ofWords hline.isWord
      rw [← ofLine_eq_ofWords hline, eq_some_of_required (hvalue value hgiven), ← hgiven] at hphrase
      exact ⟨_, hword, hphrase⟩

/-- Reading a line as a request looks at its words only, which are the longest stretches without a
blank. The request can be written as a line from which it is read again, and so can each command
whose texts are made of words, whatever the case of its verb and the blanks between the words. -/
theorem ofLine_roundTrips :
    (∀ line : String, ∃! ws, Spelled line.toList ws) ∧
      (∀ ws, (∀ word ∈ ws, IsWord word) → Spelled (" ".intercalate ws).toList ws) ∧
      (∀ (line line' : String) (ws : List String), Spelled line.toList ws → Spelled line'.toList ws →
        ofLine line = ofLine line') ∧
      (∀ line, ∃ ws, Phrase (ofLine line).value ws) ∧
      (∀ line, ofLine (ofLine line).spelling = ofLine line) ∧
      ∀ (target : Target) (command : Command) (values : List String), command.Writable values →
        ∀ name : VerbName, name.verb = command.verb →
        ∀ word, Text.upper word = target.letter.text ++ name.text →
        ∀ line : String, Spelled line.toList (word :: command.key :: values) →
          (ofLine line).parse = .ok (target, command) := by
  refine ⟨?_, fun ws h => Text.spelled_intercalate h, ?_, ?_, ?_, ?_⟩
  · intro line
    refine ⟨Text.words line, Text.spelled_iff.mpr rfl, fun ws h => ?_⟩
    exact (Text.spelled_iff.mp h).symm
  · intro line line' ws h h'
    rw [ofLine_eq_ofWords h, ofLine_eq_ofWords h']
  · intro line
    have h : Spelled line.toList (Text.words line) := Text.spelled_iff.mpr rfl
    rw [ofLine_eq_ofWords h]
    exact ⟨_, phrase_ofWords h.isWord⟩
  · intro line
    have h : Spelled line.toList (Text.words line) := Text.spelled_iff.mpr rfl
    rw [ofLine_eq_ofWords h, spelling_ofWords,
      ofLine_eq_ofWords (Text.spelled_intercalate h.isWord)]
  · intro target command values h name hname word hword line hline
    exact parse_of_spelled h hname hword hline

/-- A line whose key and value are names of verbs, with several kinds of blanks. -/
theorem ofLine_roundTrips_verbs :
    let line := "\u00a0rSet\tset  mod\u2003\n exist "
    (ofLine line).parse = .ok (.tree, .set "set" "mod exist") ∧
      ofLine (ofLine line).spelling = ofLine line := by
  intro line
  obtain ⟨-, -, -, -, hstable, hread⟩ := ofLine_roundTrips
  have hline : Spelled line.toList ["rSet", "set", "mod", "exist"] :=
    Text.spelled_iff.mpr (by decide +kernel)
  have hwords := hline.isWord
  have hvalue : " ".intercalate ["mod", "exist"] = "mod exist" := by decide
  have hwritable : (Command.set "set" "mod exist").Writable ["mod", "exist"] := by
    refine ⟨hwords _ (by decide), ?_⟩
    rw [Command.value?, ← hvalue]
    exact .present (by decide) fun word hword =>
      hwords word (List.mem_cons_of_mem _ (List.mem_cons_of_mem _ hword))
  exact ⟨hread .tree _ _ hwritable .set rfl "rSet" (by decide) line hline, hstable line⟩

end Request

end TriStore
