import TriStore.Proofs.Json.Syntax

/-!
# Reading numerals

A numeral is read to its end if the text does not go on with more digits, a fraction or an exponent. A
number is written without superfluous zeros, so its digits are the whole part of a numeral. If it is
below 2^64 it is far from those that are beyond all double-precision ones.
-/

namespace TriStore.Json

/-- A text that does not go on with digits in front of it. -/
def EndsDigits (rest : List Char) : Prop := ∀ c ∈ rest.head?, c.isDigit = false

def EndsFraction (rest : List Char) : Prop := ∀ c ∈ rest.head?, c.isDigit = false ∧ c ≠ '.'

/-- A text that does not go on with a numeral in front of it. -/
def Ends (rest : List Char) : Prop :=
  ∀ c ∈ rest.head?, c.isDigit = false ∧ c ≠ '.' ∧ c ≠ 'e' ∧ c ≠ 'E'

theorem ends_nil : Ends [] := nofun

theorem ends_cons {c : Char} (rest : List Char)
    (h : c.isDigit = false ∧ c ≠ '.' ∧ c ≠ 'e' ∧ c ≠ 'E') : Ends (c :: rest) := by
  intro d hd
  obtain rfl := Option.some.inj hd
  exact h

section Reading
variable {rest text ds : List Char} {short : Fault}

theorem EndsDigits.takeWhile_eq (h : EndsDigits rest) : rest.takeWhile Char.isDigit = [] := by
  cases rest with
  | nil => rfl
  | cons c rest => rw [List.takeWhile_cons_of_neg (by simp [h c rfl])]

theorem EndsDigits.dropWhile_eq (h : EndsDigits rest) : rest.dropWhile Char.isDigit = rest := by
  cases rest with
  | nil => rfl
  | cons c rest => rw [List.dropWhile_cons_of_neg (by simp [h c rfl])]

theorem Digits.exists_cons (h : Digits ds) :
    ∃ c cs, ds = c :: cs ∧ c.isDigit = true ∧ ∀ d ∈ cs, d.isDigit = true := by
  obtain ⟨c, cs, rfl⟩ := List.exists_cons_of_ne_nil h.1
  exact ⟨c, cs, rfl, List.forall_mem_cons.mp h.2⟩

theorem Digits.ne_cons (h : Digits ds) {c : Char} (hc : c.isDigit = false) (more : List Char) :
    ds ++ rest ≠ c :: more := by
  obtain ⟨d, cs, rfl, hd, -⟩ := h.exists_cons
  intro heq
  rw [← (List.cons.inj heq).1, hd] at hc
  cases hc

theorem Digits.read (h : Digits ds) (hrest : EndsDigits rest) :
    readDigits short (ds ++ rest) = .ok (ds, rest) := by
  obtain ⟨c, cs, rfl, hc, hcs⟩ := h.exists_cons
  rw [List.cons_append, readDigits, if_pos hc, List.takeWhile_append_of_pos hcs,
    List.dropWhile_append_of_pos hcs, hrest.takeWhile_eq, hrest.dropWhile_eq, List.append_nil]

theorem Whole.read (h : Whole ds) (hrest : EndsDigits rest) :
    readWhole short (ds ++ rest) = .ok (ds, rest) := by
  obtain ⟨hdigits, hzero⟩ := h
  by_cases hhead : ds.head? = some '0'
  · rw [hzero hhead]
    cases rest with
    | nil => rfl
    | cons d rest => rw [List.singleton_append, readWhole, if_neg (by simp [hrest d rfl])]
  · rw [readWhole]
    · exact hdigits.read hrest
    · intro c more heq
      obtain ⟨d, cs, rfl, -, -⟩ := hdigits.exists_cons
      exact hhead (congrArg some (List.cons.inj heq).1)

theorem FractionText.read {f : Option (List Char)} (h : FractionText f text)
    (hrest : EndsFraction rest) : readFraction short (text ++ rest) = .ok (f, rest) := by
  cases h with
  | none =>
    cases rest with
    | nil => rfl
    | cons c rest =>
      rw [List.nil_append, readFraction]
      intro more heq
      exact (hrest c rfl).2 (List.cons.inj heq).1
  | some hdigits =>
    have hends : EndsDigits rest := fun c hc => (hrest c hc).1
    rw [List.cons_append, readFraction, hdigits.read hends]
    rfl

theorem FractionText.endsDigits {f : Option (List Char)} (h : FractionText f text)
    (hrest : EndsFraction rest) : EndsDigits (text ++ rest) := by
  cases h with
  | none => exact fun c hc => (hrest c hc).1
  | some _ =>
    intro c hc
    obtain rfl := Option.some.inj hc
    rfl

theorem SignText.read {negative : Bool} (h : SignText negative text) (hdigits : Digits ds) :
    readSign (text ++ (ds ++ rest)) = (negative, ds ++ rest) := by
  cases h with
  | none =>
    rw [List.nil_append, readSign]
    · exact hdigits.ne_cons rfl
    · exact hdigits.ne_cons rfl
  | plus => rfl
  | minus => rfl

theorem ExponentText.read {e : Option (Bool × List Char)} (h : ExponentText e text)
    (hrest : Ends rest) : readExponent short (text ++ rest) = .ok (e, rest) := by
  cases h with
  | none =>
    cases rest with
    | nil => rfl
    | cons c rest =>
      obtain ⟨-, -, he, hE⟩ := hrest c rfl
      rw [List.nil_append, readExponent, if_neg (by simp [he, hE])]
  | some he hsign hdigits =>
    have hends : EndsDigits rest := fun c hc => (hrest c hc).1
    rw [List.cons_append, List.append_assoc, readExponent, if_pos he, hsign.read hdigits]
    simp only [hdigits.read hends]
    rfl

theorem ExponentText.endsFraction {e : Option (Bool × List Char)} (h : ExponentText e text)
    (hrest : Ends rest) : EndsFraction (text ++ rest) := by
  cases h with
  | none =>
    intro c hc
    obtain ⟨hdigit, hpoint, -⟩ := hrest c hc
    exact ⟨hdigit, hpoint⟩
  | some he _ _ =>
    intro c hc
    obtain rfl := Option.some.inj hc
    rcases he with rfl | rfl <;> exact ⟨rfl, by decide⟩

/-- A numeral is read with its parts, and the text after it is left. -/
theorem NumeralText.read {x : Numeral} (h : NumeralText x text) (hrest : Ends rest) :
    readNumeral short (text ++ rest) = .ok (x, rest) := by
  obtain @⟨negative, whole, fraction, exponent, f, e, hwhole, hfraction, hexponent⟩ := h
  have hends := hexponent.endsFraction hrest
  have hparts : (do
      let digits ← readWhole short (whole ++ (fraction ++ (exponent ++ rest)))
      let point ← readFraction short digits.2
      let power ← readExponent short point.2
      return ((⟨negative, digits.1, point.1, power.1⟩ : Numeral), power.2)) =
        .ok (⟨negative, whole, f, e⟩, rest) := by
    rw [hwhole.read (hfraction.endsDigits hends)]
    simp only [bind, Except.bind, hfraction.read hends, hexponent.read hrest]
    rfl
  simp only [List.append_assoc]
  cases negative with
  | true => exact hparts
  | false =>
    unfold readNumeral
    split
    next negative digits heq =>
      split at heq
      · next more hminus => exact absurd hminus (hwhole.1.ne_cons rfl more)
      · cases heq
        exact hparts

/-- The first character of a numeral is no space, nor any other that starts no numeral. -/
theorem NumeralText.exists_first {x : Numeral} {text : List Char} (h : NumeralText x text) :
    ∃ c more, text = c :: more ∧ startsNumeral c = true ∧ isSpace c = false ∧
      ∀ d, startsNumeral d = false → c ≠ d := by
  obtain ⟨c, more, rfl, hc⟩ : ∃ c more, text = c :: more ∧ startsNumeral c = true := by
    obtain @⟨negative, whole, fraction, exponent, f, e, ⟨hwhole, -⟩, hfraction, hexponent⟩ := h
    cases negative with
    | true => exact ⟨'-', _, rfl, rfl⟩
    | false =>
      obtain ⟨c, cs, rfl, hc, -⟩ := hwhole.exists_cons
      exact ⟨c, _, rfl, by rw [startsNumeral, hc, Bool.or_true]⟩
  have hne (d : Char) (hd : startsNumeral d = false) : c ≠ d := by
    rintro rfl
    rw [hd] at hc
    cases hc
  refine ⟨c, more, rfl, hc, ?_, hne⟩
  simp [isSpace, hne ' ' rfl, hne '\t' rfl, hne '\n' rfl, hne '\r' rfl]

end Reading

theorem isDigit_of_mem_decimal {n : Nat} {c : Char} (h : c ∈ Text.decimal n) : c.isDigit = true :=
  Nat.isDigit_of_mem_toDigits (by decide) (by decide) h

theorem ofDecimal_decimal (n : Nat) : Text.ofDecimal (Text.decimal n) = n :=
  Nat.ofDigitChars_ten_toDigits

theorem decimal_cases (n : Nat) : (n = 0 ∧ Text.decimal n = ['0']) ∨
    ∃ c cs, c ≠ '0' ∧ Text.decimal n = c :: cs := by
  induction n using Nat.strongRecOn with
  | ind n ih =>
    rcases Nat.lt_or_ge n 10 with hlt | hge
    · have hall : ∀ n, n < 10 → n ≠ 0 → Nat.digitChar n ≠ '0' := by decide
      rcases Nat.eq_zero_or_pos n with rfl | hpos
      · exact Or.inl ⟨rfl, Nat.toDigits_zero 10⟩
      · exact Or.inr ⟨_, [], hall n hlt (by omega), Nat.toDigits_of_lt_base hlt⟩
    · rcases ih (n / 10) (by omega) with ⟨hzero, -⟩ | ⟨c, cs, hc, hdecimal⟩
      · omega
      · refine Or.inr ⟨c, cs ++ [Nat.digitChar (n % 10)], hc, ?_⟩
        rw [Text.decimal] at hdecimal ⊢
        rw [Nat.toDigits_of_base_le (by decide) hge, hdecimal]
        rfl

theorem whole_decimal (n : Nat) : Whole (Text.decimal n) := by
  refine ⟨⟨Nat.toDigits_ne_nil, fun d => isDigit_of_mem_decimal⟩, fun hhead => ?_⟩
  rcases decimal_cases n with ⟨-, hzero⟩ | ⟨c, cs, hc, hdecimal⟩
  · exact hzero
  · rw [hdecimal] at hhead
    exact absurd (Option.some.inj hhead) hc

theorem numeralText_decimal (n : Nat) :
    NumeralText ⟨false, Text.decimal n, none, none⟩ (Text.decimal n) := by
  have hparts : NumeralText ⟨false, Text.decimal n, none, none⟩
      ([] ++ (Text.decimal n ++ ([] ++ []))) := .parts (whole_decimal n) .none .none
  simpa using hparts

variable {rest : List Char}

theorem le_ofDigitChars (cs : List Char) (n : Nat) : n ≤ Nat.ofDigitChars 10 cs n := by
  induction cs generalizing n with
  | nil => exact Nat.le_refl n
  | cons c cs ih =>
    rw [Nat.ofDigitChars_cons]
    have hle := ih (10 * n + (c.toNat - '0'.toNat))
    omega

/-- Digits are all kept if they form a number below 2^64. -/
theorem appendDigits_eq {cs : List Char} {n : Nat} (h : Nat.ofDigitChars 10 cs n < 1 <<< 64) :
    appendDigits n cs = (Nat.ofDigitChars 10 cs n, 0) := by
  induction cs generalizing n with
  | nil => rfl
  | cons c cs ih =>
    rw [Nat.ofDigitChars_cons] at h ⊢
    have hle := le_ofDigitChars cs (10 * n + (c.toNat - '0'.toNat))
    rw [appendDigits, if_pos (Nat.lt_of_le_of_lt hle h), ih h]

theorem round53_le (n : Nat) : round53 n ≤ n + 1 <<< (n.log2 + 1 - 53) := by
  have hquotient := Nat.div_mul_le_self n (1 <<< (n.log2 + 1 - 53))
  rw [round53]
  split
  · rw [Nat.add_mul, Nat.one_mul]
    exact Nat.add_le_add_right hquotient _
  · exact Nat.le_trans hquotient (Nat.le_add_right _ _)

theorem not_isHuge_of_lt {n : Nat} (h : n < 1 <<< 64) :
    Numeral.isHuge ⟨false, Text.decimal n, none, none⟩ = false := by
  have hdigits : Nat.ofDigitChars 10 (Text.decimal n) 0 = n := ofDecimal_decimal n
  have hscaled : Numeral.scaled ⟨false, Text.decimal n, none, none⟩ = (n, 0) := by
    rw [Numeral.scaled]
    simp only [appendDigits_eq (hdigits.symm ▸ h), hdigits]
    rfl
  have hround : round53 n ≤ 2 ^ 64 + 2 ^ 64 := by
    have hlog : n.log2 ≤ 64 := by
      rcases Nat.eq_zero_or_pos n with rfl | hpos
      · decide
      · exact Nat.le_of_lt ((Nat.log2_lt (by omega)).mpr h)
    have hunit : 2 ^ (n.log2 + 1 - 53) ≤ 2 ^ 64 := Nat.pow_le_pow_right (by decide) (by omega)
    have hle := round53_le n
    rw [Nat.one_shiftLeft] at h hle
    omega
  have hone : round53 (Nat.pow 10 (0 : Int).toNat) = 1 := by decide
  have hsmall : ¬ (1 <<< 1024) - (1 <<< 970) ≤ round53 n := by
    refine Nat.not_le.mpr (Nat.lt_of_le_of_lt hround ?_)
    decide
  rw [Numeral.isHuge, hscaled]
  simp only [hone, Nat.mul_one, decide_eq_false hsmall, Bool.and_false, Bool.or_false]
  exact Bool.and_false _

theorem readNumber_decimal {n : Nat} (h : n < 1 <<< 64) (hrest : Ends rest) :
    readNumber (Text.decimal n ++ rest) = .ok (some n, rest) := by
  have hnatural : Numeral.natural? ⟨false, Text.decimal n, none, none⟩ = some n := by
    rw [Numeral.natural?, ofDecimal_decimal, if_pos h]
    rfl
  rw [readNumber, (numeralText_decimal n).read hrest]
  simp only [bind, Except.bind, not_isHuge_of_lt h, hnatural, Bool.false_eq_true, if_false]
  rfl

end TriStore.Json
