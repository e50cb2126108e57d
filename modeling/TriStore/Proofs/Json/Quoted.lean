import TriStore.Proofs.Json.Syntax

/-!
# Reading strings

A string between quotes is read as the characters it spells, however it spells them, and the reading
ends at the closing quote. Each character is written as one of its escapes or as itself, so a string
is read back whatever characters it has. Where a string is only passed over, its numbers are not
looked at.
-/

namespace TriStore.Json

theorem skipSpace_cons {c : Char} (h : isSpace c = false) (s : List Char) :
    skipSpace (c :: s) = c :: s := by
  rw [skipSpace, List.dropWhile_cons_of_neg (by simp [h])]

section Reading
variable {numbered : Reader Char} {b c l : Char} {cs s s' rest bound digits : List Char} {n : Nat}

theorem readBody_plain (hquote : c ≠ '"') (hslash : c ≠ '\\') (hcontrol : 0x20 ≤ c.toNat)
    (h : readBody numbered bound s = .ok (cs, rest)) :
    readBody numbered (b :: bound) (c :: s) = .ok (c :: cs, rest) := by
  rw [readBody, if_neg hquote, if_neg hslash, if_neg (Nat.not_lt.mpr hcontrol), h]
  rfl

theorem readBody_letter (hl : escapes.lookup l = some c)
    (h : readBody numbered bound s = .ok (cs, rest)) :
    readBody numbered (b :: bound) ('\\' :: l :: s) = .ok (c :: cs, rest) := by
  have hu : l ≠ 'u' := by
    rintro rfl
    cases hl
  rw [readBody, if_neg (by decide), if_pos rfl, readEscape, if_neg hu, hl]
  simp only [bind, Except.bind, h]
  rfl

theorem readBody_numbered (hnumber : numbered s' = .ok (c, s))
    (h : readBody numbered bound s = .ok (cs, rest)) :
    readBody numbered (b :: bound) ('\\' :: 'u' :: s') = .ok (c :: cs, rest) := by
  rw [readBody, if_neg (by decide), if_pos rfl, readEscape, if_pos rfl, hnumber]
  simp only [bind, Except.bind, h]
  rfl

theorem Hex.read (h : Hex n digits) (rest : List Char) :
    readHex (digits ++ rest) = .ok (n, rest) := by
  obtain ⟨ha, hb, hc, hd⟩ := h
  simp only [List.cons_append, List.nil_append, readHex, ha, hb, hc, hd]

theorem Numbered.read (h : Numbered c digits) (rest : List Char) :
    readNumbered (digits ++ rest) = .ok (c, rest) := by
  cases h with
  | single hhex hlow hhigh =>
    rw [readNumbered, hhex.read]
    simp only [bind, Except.bind, hlow, hhigh, Bool.false_eq_true, if_false]
    rfl
  | @pair high low digits digits' hhex hhex' hhigh hlow =>
    have hnotLow : isLowSurrogate high = false := by
      simp only [isHighSurrogate, isLowSurrogate, Bool.and_eq_true, decide_eq_true_eq,
        Bool.and_eq_false_iff, decide_eq_false_iff_not] at hhigh ⊢
      omega
    have hmark : expect ['\\', 'u'] ('\\' :: 'u' :: (digits' ++ rest)) = .ok (digits' ++ rest) := rfl
    rw [readNumbered, List.append_assoc, hhex.read]
    simp only [bind, Except.bind, hnotLow, hhigh, Bool.false_eq_true, if_false, if_true,
      List.cons_append, hmark, hhex'.read, hlow]
    rfl

/-- A string is read up to its closing quote. The bound may be any that is longer than its text. -/
theorem Spelling.readBody (h : Spelling cs s) (hbound : s.length < bound.length) (rest : List Char) :
    readBody readNumbered bound (s ++ '"' :: rest) = .ok (cs, rest) := by
  induction h generalizing bound with
  | nil =>
    obtain ⟨b, bound, rfl⟩ := List.exists_cons_of_length_pos hbound
    rw [List.nil_append, Json.readBody, if_pos rfl]
  | plain hquote hslash hcontrol _ ih =>
    obtain ⟨b, bound, rfl⟩ := List.exists_cons_of_length_pos (Nat.zero_lt_of_lt hbound)
    exact readBody_plain hquote hslash hcontrol (ih (Nat.lt_of_succ_lt_succ hbound))
  | letter hl _ ih =>
    obtain ⟨b, bound, rfl⟩ := List.exists_cons_of_length_pos (Nat.zero_lt_of_lt hbound)
    simp only [List.length_cons] at hbound
    exact readBody_letter hl (ih (by omega))
  | @numbered c cs digits s hnumbered _ ih =>
    obtain ⟨b, bound, rfl⟩ := List.exists_cons_of_length_pos (Nat.zero_lt_of_lt hbound)
    simp only [List.length_cons, List.length_append] at hbound
    have hread := hnumbered.read (s ++ '"' :: rest)
    rw [← List.append_assoc] at hread
    exact readBody_numbered hread (ih (by omega))

theorem Unread.readBody (h : Unread s) (hbound : s.length < bound.length) (rest : List Char) :
    ∃ cs, readBody (fun s => (readHex s).map fun (_, rest) => (' ', rest)) bound
      (s ++ '"' :: rest) = .ok (cs, rest) := by
  induction h generalizing bound with
  | nil =>
    obtain ⟨b, bound, rfl⟩ := List.exists_cons_of_length_pos hbound
    exact ⟨[], by rw [List.nil_append, Json.readBody, if_pos rfl]⟩
  | plain hquote hslash hcontrol _ ih =>
    obtain ⟨b, bound, rfl⟩ := List.exists_cons_of_length_pos (Nat.zero_lt_of_lt hbound)
    obtain ⟨cs, hcs⟩ := ih (Nat.lt_of_succ_lt_succ hbound)
    exact ⟨_, readBody_plain hquote hslash hcontrol hcs⟩
  | @letter l c s hl _ ih =>
    obtain ⟨b, bound, rfl⟩ := List.exists_cons_of_length_pos (Nat.zero_lt_of_lt hbound)
    simp only [List.length_cons] at hbound
    have hshorter : s.length < bound.length := by omega
    obtain ⟨cs, hcs⟩ := ih hshorter
    exact ⟨_, readBody_letter hl hcs⟩
  | @numbered n digits s hhex _ ih =>
    obtain ⟨b, bound, rfl⟩ := List.exists_cons_of_length_pos (Nat.zero_lt_of_lt hbound)
    simp only [List.length_cons, List.length_append] at hbound
    have hshorter : s.length < bound.length := by omega
    obtain ⟨cs, hcs⟩ := ih hshorter
    have hread := hhex.read (s ++ '"' :: rest)
    rw [← List.append_assoc] at hread
    refine ⟨' ' :: cs, readBody_numbered ?_ hcs⟩
    exact congrArg (Except.map _) hread

end Reading

variable {s body rest : List Char}

theorem Spelling.readQuoted {s : String} (h : Spelling s.toList body) (rest : List Char) :
    readQuoted (body ++ '"' :: rest) = .ok (s, rest) := by
  have hbound : body.length < (body ++ '"' :: rest).length := by simp
  rw [Json.readQuoted, h.readBody hbound]
  simp [bind, Except.bind, pure, Except.pure]

theorem Unread.skipQuoted (h : Unread body) (rest : List Char) :
    skipQuoted (body ++ '"' :: rest) = .ok rest := by
  have hbound : body.length < (body ++ '"' :: rest).length := by simp
  obtain ⟨cs, hcs⟩ := h.readBody hbound rest
  rw [Json.skipQuoted, hcs]
  rfl

theorem hexDigit?_digitChar {n : Nat} (h : n < 16) : hexDigit? (Nat.digitChar n) = some n := by
  have hall : ∀ n, n < 16 → hexDigit? (Nat.digitChar n) = some n := by decide
  exact hall n h

theorem hex_control {n : Nat} (h : n < 32) :
    Hex n ['0', '0', Nat.digitChar (n / 16), Nat.digitChar (n % 16)] := by
  have hzero : hexDigit? '0' = some 0 := rfl
  have hdigits := Hex.digits hzero hzero (hexDigit?_digitChar (show n / 16 < 16 by omega))
    (hexDigit?_digitChar (show n % 16 < 16 by omega))
  have hsum : 0 * 4096 + 0 * 256 + n / 16 * 16 + n % 16 = n := by omega
  rwa [hsum] at hdigits

theorem numbered_control {c : Char} (h : c.toNat < 32) :
    Numbered c ['0', '0', Nat.digitChar (c.toNat / 16), Nat.digitChar (c.toNat % 16)] := by
  have hlow : isLowSurrogate c.toNat = false := by
    rw [isLowSurrogate, decide_eq_false (by omega), Bool.false_and]
  have hhigh : isHighSurrogate c.toNat = false := by
    rw [isHighSurrogate, decide_eq_false (by omega), Bool.false_and]
  have hnumbered := Numbered.single (hex_control h) hlow hhigh
  rwa [Char.ofNat_toNat] at hnumbered

theorem Spelling.escapeChar {cs : List Char} (h : Spelling cs s) (c : Char) :
    Spelling (c :: cs) (escapeChar c ++ s) := by
  have hletter (letter : Char) {d : Char} (hc : c = d) (hlookup : escapes.lookup letter = some d) :
      Spelling (c :: cs) ('\\' :: letter :: s) := .letter (hc ▸ hlookup) h
  unfold Json.escapeChar
  split
  · next hc => exact hletter '"' hc rfl
  split
  · next hc => exact hletter '\\' hc rfl
  split
  · next hc => exact hletter 'b' hc rfl
  split
  · next hc => exact hletter 'f' hc rfl
  split
  · next hc => exact hletter 'n' hc rfl
  split
  · next hc => exact hletter 'r' hc rfl
  split
  · next hc => exact hletter 't' hc rfl
  split
  · next hcontrol => exact .numbered (numbered_control hcontrol) h
  · next hquote hslash _ _ _ _ _ hcontrol =>
    exact .plain hquote hslash (Nat.le_of_not_lt hcontrol) h

theorem spelling_escaped (cs : List Char) : Spelling cs (cs.flatMap escapeChar) := by
  induction cs with
  | nil => exact .nil
  | cons c cs ih =>
    rw [List.flatMap_cons]
    exact ih.escapeChar c

theorem quoted_written (s : String) : Quoted s (writeQuoted s) :=
  ⟨_, spelling_escaped s.toList, rfl⟩

end TriStore.Json
