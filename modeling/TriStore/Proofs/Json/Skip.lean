import TriStore.Proofs.Json.Numeral
import TriStore.Proofs.Json.Quoted

/-!
# Passing over values

A well-formed value is passed over up to its end, however deep it is nested. The walk over it takes a
step for the end of each bracket and for each value inside one, so it takes fewer steps than the value
has characters.
-/

namespace TriStore.Json

section Space
variable {space rest : List Char}

theorem space_nil : Space [] := nofun

theorem Space.append (h : Space space) (hrest : Space rest) : Space (space ++ rest) :=
  List.forall_mem_append.mpr ⟨h, hrest⟩

theorem skipSpace_append (h : Space space) (s : List Char) :
    skipSpace (space ++ s) = skipSpace s := List.dropWhile_append_of_pos h

theorem expectMark_append (h : Space space) (mark : Char) (s : List Char) :
    expectMark mark (space ++ s) = expectMark mark s := by
  rw [expectMark, expectMark, skipSpace_append h]

theorem expectMark_cons {mark : Char} (h : isSpace mark = false) (s : List Char) :
    expectMark mark (mark :: s) = .ok s := by
  rw [expectMark, skipSpace_cons h, expect, if_pos rfl, expect]

theorem Space.ends (h : Space space) (hrest : Ends rest) : Ends (space ++ rest) := by
  cases space with
  | nil => exact hrest
  | cons c space =>
    refine ends_cons _ ?_
    have hc := h c List.mem_cons_self
    rw [isSpace] at hc
    simp only [Bool.or_eq_true, beq_iff_eq] at hc
    rcases hc with ((rfl | rfl) | rfl) | rfl <;> decide

end Space

/-- After space, the text goes on with a character that closes no bracket. -/
def Opens (text : List Char) : Prop :=
  ∃ before c more, text = before ++ c :: more ∧ Space before ∧ isSpace c = false ∧ c ≠ ']' ∧ c ≠ '}'

theorem opens_cons {c : Char} {more : List Char} (hspace : isSpace c = false)
    (hc : c ≠ ']' ∧ c ≠ '}') : Opens (c :: more) :=
  ⟨[], c, more, rfl, space_nil, hspace, hc⟩

theorem Opens.append {text : List Char} (h : Opens text) (rest : List Char) : Opens (text ++ rest) := by
  obtain ⟨before, c, more, rfl, hc⟩ := h
  exact ⟨before, c, more ++ rest, List.append_assoc _ _ _, hc⟩

theorem Opens.after_space {space text : List Char} (h : Opens text) (hspace : Space space) :
    Opens (space ++ text) := by
  obtain ⟨before, c, more, rfl, hbefore, hc⟩ := h
  exact ⟨space ++ before, c, more, (List.append_assoc _ _ _).symm, hspace.append hbefore, hc⟩

/-- A value closes no bracket with its first character, and neither does a list of values. -/
theorem Formed.opens {kind : Option Bracket} {text : List Char} (h : Formed kind text) :
    Opens text := by
  induction h with
  | null => exact opens_cons rfl (by decide)
  | true => exact opens_cons rfl (by decide)
  | false => exact opens_cons rfl (by decide)
  | string _ => exact opens_cons rfl (by decide)
  | numeral hs =>
    obtain ⟨c, more, rfl, -, hspace, hne⟩ := hs.exists_first
    exact opens_cons hspace ⟨hne ']' rfl, hne '}' rfl⟩
  | @empty b _ _ => cases b <;> exact opens_cons rfl (by decide)
  | @bracket b _ _ _ => cases b <;> exact opens_cons rfl (by decide)
  | item hbefore _ _ ih => exact (ih.append _).after_space hbefore
  | member hbefore _ _ _ _ _ _ => exact (opens_cons rfl (by decide)).after_space hbefore
  | comma _ _ ih _ => exact ih.append _

namespace Walk
variable {b : Bracket} {inside : List Bracket} {c : Char} {space s rest text : List Char} {w w' w'' : Walk}
  {m n : Nat}

theorem enter_append (h : Space space) (s : List Char) :
    enter inside (space ++ s) = enter inside s := by
  rw [enter, enter, skipSpace_append h]

theorem enter_opening (s : List Char) :
    enter inside (b.opening :: s) = .ok ⟨b :: inside, true, s⟩ := by
  cases b <;> rfl

theorem enter_atom (hspace : isSpace c = false) (hsquare : c ≠ '[') (hcurly : c ≠ '{')
    (h : skipAtom (c :: s) = .ok rest) : enter inside (c :: s) = .ok ⟨inside, false, rest⟩ := by
  rw [enter, skipSpace_cons hspace]
  split
  · next heq => exact absurd (List.cons.inj heq).1 hsquare
  · next heq => exact absurd (List.cons.inj heq).1 hcurly
  · rw [h]
    rfl

theorem enterNext_append (h : Space space) (s : List Char) :
    enterNext b inside (space ++ s) = enterNext b inside s := by
  cases b with
  | square => exact enter_append h s
  | curly => rw [enterNext, enterNext, expectMark_append h]

theorem step_closing (h : Space space) (opened : Bool) (rest : List Char) :
    step opened b inside (space ++ b.closing :: rest) = .ok ⟨inside, false, rest⟩ := by
  have hclosing : isSpace b.closing = false := by cases b <;> rfl
  rw [step, skipSpace_append h, skipSpace_cons hclosing]
  exact if_pos rfl

theorem step_opened (h : Opens s) : step true b inside s = enterNext b inside s := by
  obtain ⟨before, c, more, rfl, hbefore, hspace, hsquare, hcurly⟩ := h
  have hc : c ≠ b.closing := by
    cases b
    · exact hsquare
    · exact hcurly
  rw [enterNext_append hbefore, step, skipSpace_append hbefore, skipSpace_cons hspace]
  simp only [if_neg hc, if_true]

theorem step_comma (h : Space space) (s : List Char) :
    step false b inside (space ++ ',' :: s) = enterNext b inside s := by
  have hclosing : ',' ≠ b.closing := by cases b <;> decide
  have hcomma : isSpace ',' = false := rfl
  rw [step, skipSpace_append h, skipSpace_cons hcomma]
  simp only [if_neg hclosing, Bool.false_eq_true, if_false, if_true]

inductive Steps : Nat → Walk → Walk → Prop where
  | refl (w : Walk) : Steps 0 w w
  | cons {n : Nat} {b : Bracket} {inside : List Bracket} {opened : Bool} {s : List Char}
      {w w' : Walk} : step opened b inside s = .ok w → Steps n w w' →
      Steps (n + 1) ⟨b :: inside, opened, s⟩ w'

theorem Steps.trans (h : Steps m w w') (h' : Steps n w' w'') : Steps (m + n) w w'' := by
  induction h with
  | refl => rwa [Nat.zero_add]
  | @cons m _ _ _ _ _ _ hstep _ ih =>
    rw [Nat.succ_add]
    exact .cons hstep (ih h')

theorem Steps.finish {bound : List Char} (h : Steps n w ⟨[], false, rest⟩) (hbound : n ≤ bound.length) :
    finish bound w = .ok rest := by
  generalize hlast : (⟨[], false, rest⟩ : Walk) = last at h
  induction h generalizing bound with
  | refl =>
    subst hlast
    cases bound <;> rfl
  | cons hstep _ ih =>
    obtain ⟨d, bound, rfl⟩ := List.exists_cons_of_length_pos (Nat.zero_lt_of_lt hbound)
    rw [Walk.finish, hstep]
    exact ih (Nat.le_of_succ_le_succ hbound) hlast

/-- The walk passes over a text, at whatever depth and whatever follows. -/
def Passes : Option Bracket → List Char → Prop
  | none, text => ∀ inside rest, Ends rest → ∃ w n, enter inside (text ++ rest) = .ok w ∧
      Steps n w ⟨inside, false, rest⟩ ∧ n < text.length ∧ n ≤ w.rest.length
  | some b, text => ∀ inside rest, Ends rest → ∃ w n space,
      enterNext b inside (text ++ rest) = .ok w ∧ Space space ∧
      Steps n w ⟨b :: inside, false, space ++ rest⟩ ∧ n < text.length

theorem passes_atom (hspace : isSpace c = false) (hsquare : c ≠ '[') (hcurly : c ≠ '{')
    (h : ∀ rest, Ends rest → skipAtom (c :: (s ++ rest)) = .ok rest) : Passes none (c :: s) :=
  fun inside rest hrest => ⟨⟨inside, false, rest⟩, 0, enter_atom hspace hsquare hcurly (h rest hrest),
    .refl _, Nat.zero_lt_succ _, Nat.zero_le _⟩

theorem passes_numeral {x : Numeral} (h : NumeralText x text) : Passes none text := by
  obtain ⟨c, more, rfl, hstarts, hspace, hne⟩ := h.exists_first
  refine passes_atom hspace (hne '[' rfl) (hne '{' rfl) fun rest hrest => ?_
  have hread : readNumeral .malformed (c :: (more ++ rest)) = .ok (x, rest) := h.read hrest
  unfold skipAtom
  split
  · next heq => cases heq
  · next heq => exact absurd (List.cons.inj heq).1 (hne 'n' rfl)
  · next heq => exact absurd (List.cons.inj heq).1 (hne 't' rfl)
  · next heq => exact absurd (List.cons.inj heq).1 (hne 'f' rfl)
  · next heq => exact absurd (List.cons.inj heq).1 (hne '"' rfl)
  · next heq =>
    obtain ⟨rfl, rfl⟩ := List.cons.inj heq
    rw [if_pos hstarts]
    exact congrArg (Except.map _) hread

theorem passes_empty (h : Space s) : Passes none (b.opening :: (s ++ [b.closing])) := by
  intro inside rest _
  have hclosing : step true b inside (s ++ [b.closing] ++ rest) = .ok ⟨inside, false, rest⟩ := by
    rw [List.append_assoc]
    exact step_closing h true rest
  refine ⟨⟨b :: inside, true, s ++ [b.closing] ++ rest⟩, 1, enter_opening _, .cons hclosing (.refl _),
    ?_, ?_⟩
  · simp
  · simp only [List.length_append, List.length_cons]
    omega

theorem passes_bracket (hs : Formed (some b) s) (h : Passes (some b) s) :
    Passes none (b.opening :: (s ++ [b.closing])) := by
  intro inside rest _
  have hends : Ends (b.closing :: rest) := by cases b <;> exact ends_cons _ (by decide)
  obtain ⟨w, n, space, henter, hspace, hsteps, hn⟩ := h inside _ hends
  have hfirst : step true b inside (s ++ b.closing :: rest) = .ok w :=
    (step_opened (hs.opens.append _)).trans henter
  have hlast := @step_closing b inside _ hspace false rest
  have hall := Steps.cons hfirst (hsteps.trans (.cons hlast (.refl _)))
  refine ⟨⟨b :: inside, true, s ++ b.closing :: rest⟩, n + 1 + 1, ?_, hall, ?_, ?_⟩
  · rw [List.cons_append, List.append_assoc]
    exact enter_opening _
  · simp only [List.length_cons, List.length_append, List.length_nil]
    omega
  · simp only [List.length_cons, List.length_append]
    omega

theorem passes_item {before after : List Char} (hbefore : Space before) (hafter : Space after)
    (h : Passes none s) : Passes (some .square) (before ++ (s ++ after)) := by
  intro inside rest hrest
  obtain ⟨w, n, henter, hsteps, hn, -⟩ := h (.square :: inside) _ (hafter.ends hrest)
  refine ⟨w, n, after, ?_, hafter, hsteps, ?_⟩
  · simp only [List.append_assoc]
    rw [enterNext_append hbefore]
    exact henter
  · simp only [List.length_append]
    omega

theorem passes_member {before name between front after : List Char} (hbefore : Space before)
    (hname : Unread name) (hbetween : Space between) (hfront : Space front) (hafter : Space after)
    (h : Passes none s) : Passes (some .curly) (before ++ '"' :: (name ++ '"' ::
      (between ++ ':' :: (front ++ (s ++ after))))) := by
  intro inside rest hrest
  obtain ⟨w, n, henter, hsteps, hn, -⟩ := h (.curly :: inside) _ (hafter.ends hrest)
  refine ⟨w, n, after, ?_, hafter, hsteps, ?_⟩
  · simp only [List.append_assoc, List.cons_append]
    rw [enterNext_append hbefore, enterNext, expectMark_cons rfl]
    simp only [bind, Except.bind, hname.skipQuoted, expectMark_append hbetween, expectMark_cons
      (show isSpace ':' = false from rfl), enter_append hfront]
    exact henter
  · simp only [List.length_append, List.length_cons]
    omega

theorem passes_comma {more : List Char} (h : Passes (some b) s) (hmore : Passes (some b) more) :
    Passes (some b) (s ++ ',' :: more) := by
  intro inside rest hrest
  obtain ⟨w, n, space, henter, hspace, hsteps, hn⟩ :=
    h inside (',' :: (more ++ rest)) (ends_cons _ (by decide))
  obtain ⟨w', m, last, henter', hlast, hsteps', hm⟩ := hmore inside rest hrest
  have hcomma := (step_comma hspace (more ++ rest)).trans henter'
  refine ⟨w, n + (m + 1), last, ?_, hlast, hsteps.trans (.cons hcomma hsteps'), ?_⟩
  · rw [List.append_assoc]
    exact henter
  · simp only [List.length_append, List.length_cons]
    omega

end Walk

/-- A well-formed value is passed over. -/
theorem Formed.passes {kind : Option Bracket} {text : List Char} (h : Formed kind text) :
    Walk.Passes kind text := by
  induction h with
  | null => exact Walk.passes_atom rfl (by decide) (by decide) fun rest _ => rfl
  | true => exact Walk.passes_atom rfl (by decide) (by decide) fun rest _ => rfl
  | false => exact Walk.passes_atom rfl (by decide) (by decide) fun rest _ => rfl
  | string hs =>
    refine Walk.passes_atom rfl (by decide) (by decide) fun rest _ => ?_
    rw [List.append_assoc]
    exact hs.skipQuoted rest
  | numeral hs => exact Walk.passes_numeral hs
  | empty hs => exact Walk.passes_empty hs
  | bracket hs ih => exact Walk.passes_bracket hs ih
  | item hbefore _ hafter ih => exact Walk.passes_item hbefore hafter ih
  | member hbefore hname hbetween hfront _ hafter ih =>
    exact Walk.passes_member hbefore hname hbetween hfront hafter ih
  | comma _ _ ih ih' => exact Walk.passes_comma ih ih'

theorem Formed.skipValue {space text rest : List Char} (h : Formed none text) (hspace : Space space)
    (hrest : Ends rest) : skipValue (space ++ (text ++ rest)) = .ok rest := by
  obtain ⟨w, n, henter, hsteps, -, hn⟩ := h.passes [] rest hrest
  rw [Json.skipValue, Walk.enter_append hspace, henter]
  exact hsteps.finish hn

end TriStore.Json
