import Mathlib.Data.List.Forall2
import TriStore.Proofs.Json.Reads

/-!
# Reading structures

A structure is read off each of its texts, whatever the order of its fields and whatever stands between
them: while it is read, it agrees with the one that is given in all fields but those still to come. A
known field that comes a second time ends the reading.
-/

namespace TriStore.Json

theorem exists_related {α β : Type} {R : α → β → Prop} {as : List α} {bs : List β}
    (h : List.Forall₂ R as bs) {a : α} (ha : a ∈ as) : ∃ b ∈ bs, R a b := by
  induction h with
  | nil => cases ha
  | @cons first b _ _ hfirst _ ih =>
    rcases List.mem_cons.mp ha with rfl | ha
    · exact ⟨b, List.mem_cons_self, hfirst⟩
    · obtain ⟨b', hb', hrest⟩ := ih ha
      exact ⟨b', List.mem_cons_of_mem _ hb', hrest⟩

section Fields
variable {σ α : Type} {forms : List (Form σ)} {x : σ} {name : String}

/-- A structure agrees with another one, but for fields still to come. -/
def Agrees (forms : List (Form σ)) (x : σ) (pending : List String) (y : σ) : Prop :=
  ∀ g ∈ forms, g.name ∉ pending → g.same x y

/-- A change makes a structure agree in one more field. -/
def Settles (forms : List (Form σ)) (x : σ) (name : String) (put : σ → σ) : Prop :=
  ∀ pending y, Agrees forms x (name :: pending) y → Agrees forms x pending (put y)

structure Field.Reads (forms : List (Form σ)) (f : Field σ) (g : Form σ) : Prop where
  name_eq : f.name = g.name
  required : f.required = true → ∀ x, ¬ g.absent x
  starts : ∀ {x text}, g.gives x text → Starts text
  read : ∀ {x text space rest}, g.gives x text → Space space → Ends rest →
    ∃ put, f.read (space ++ (text ++ rest)) = .ok (put, rest) ∧ Settles forms x g.name put

namespace Field
variable {c : Codec α} {T : α → List Char → Prop}

theorem reading_reads (hc : c.Reads T) {set : α → σ → σ} {a : α} (hset : Settles forms x name (set a))
    {text space rest : List Char} (ha : T a text) (hspace : Space space) (hrest : Ends rest) :
    ∃ put, reading c set (space ++ (text ++ rest)) = .ok (put, rest) ∧ Settles forms x name put := by
  refine ⟨set a, ?_, hset⟩
  rw [reading, hc.read ha hspace hrest]
  rfl

theorem reads_mandatory {get : σ → α} {set : α → σ → σ} (hc : c.Reads T)
    (hset : ∀ x, Settles forms x name (set (get x))) :
    Field.Reads forms (.mandatory name c get set) (.required name T get) where
  name_eq := rfl
  required _ _ := id
  starts := hc.starts
  read ha hspace hrest := reading_reads hc (hset _) ha hspace hrest

theorem reads_defaulted {get : σ → α} {set : α → σ → σ} (hc : c.Reads T)
    (hset : ∀ x, Settles forms x name (set (get x))) (default : α) :
    Field.Reads forms (.defaulted name c get set) (.optional name T get default) where
  name_eq := rfl
  required := nofun
  starts := hc.starts
  read ha hspace hrest := reading_reads hc (hset _) ha hspace hrest

theorem reads_omitted {get : σ → Option α} {set : Option α → σ → σ} (hc : c.Reads T)
    (hnull : Codec.NotNull T) (hset : ∀ x, Settles forms x name (set (get x))) :
    Field.Reads forms (.omitted name c get set) (.optional name (OptionalText T) get none) where
  name_eq := rfl
  required := nofun
  starts := (Codec.optional_reads hc hnull).starts
  read ha hspace hrest := reading_reads (Codec.optional_reads hc hnull) (hset _) ha hspace hrest

end Field

theorem exists_find? {fields : List (Field σ)} {others : List (Form σ)}
    (h : List.Forall₂ (Field.Reads forms) fields others) (hnames : (others.map Form.name).Nodup)
    {g : Form σ} (hg : g ∈ others) :
    ∃ f, fields.find? (·.name == g.name) = some f ∧ Field.Reads forms f g := by
  induction h with
  | nil => cases hg
  | @cons f first fields others hread _ ih =>
    obtain ⟨hfresh, hnodup⟩ := List.nodup_cons.mp hnames
    rcases List.mem_cons.mp hg with rfl | hg
    · exact ⟨f, List.find?_cons_of_pos (by simp [hread.name_eq]), hread⟩
    · have hne : f.name ≠ g.name := fun heq =>
        hfresh (List.mem_map.mpr ⟨g, hg, heq.symm.trans hread.name_eq⟩)
      rw [List.find?_cons_of_neg (by simp [hne])]
      exact ih hnodup hg

theorem find?_eq_none {fields : List (Field σ)} {others : List (Form σ)}
    (h : List.Forall₂ (Field.Reads forms) fields others) (hname : ∀ g ∈ others, g.name ≠ name) :
    fields.find? (·.name == name) = none := by
  induction h with
  | nil => rfl
  | cons hread _ ih =>
    obtain ⟨hfirst, hrest⟩ := List.forall_mem_cons.mp hname
    rw [List.find?_cons_of_neg (by simp [hread.name_eq, hfirst])]
    exact ih hrest

end Fields

theorem MemberText.exists_parts {m : Member} {text : List Char} (hm : MemberText m text) :
    ∃ before body between front after, Space before ∧ Spelling m.1.toList body ∧ Space between ∧
      Space front ∧ Space after ∧ ∀ rest, text ++ rest =
        before ++ '"' :: (body ++ '"' :: (between ++ ':' :: (front ++ (m.2 ++ (after ++ rest))))) := by
  obtain @⟨name, value, before, _, between, front, after, hbefore, ⟨body, hbody, rfl⟩, hbetween,
    hfront, hafter⟩ := hm
  exact ⟨before, body, between, front, after, hbefore, hbody, hbetween, hfront, hafter, by simp⟩

theorem Commas.exists_first {α : Type} {T : α → List Char → Prop} {a : α} {as : List α}
    {text : List Char} (h : Commas T (a :: as) text) : ∃ first last, T a first ∧
      text = first ++ last ∧ (as ≠ [] → ∃ more, Commas T as more ∧ last = ',' :: more) := by
  cases h with
  | one ha => exact ⟨text, [], ha, (List.append_nil _).symm, fun hne => absurd rfl hne⟩
  | cons ha has => exact ⟨_, _, ha, rfl, fun _ => ⟨_, has, rfl⟩⟩

theorem Commas.length_le {α : Type} {T : α → List Char → Prop} {as : List α} {text : List Char}
    (hpos : ∀ {a text}, T a text → 0 < text.length) (h : Commas T as text) :
    as.length ≤ text.length := by
  induction h with
  | one ha => exact hpos ha
  | cons ha _ ih =>
    have hfirst := hpos ha
    simp only [List.length_cons, List.length_append]
    omega

theorem MemberText.length_pos {m : Member} {text : List Char} (h : MemberText m text) :
    0 < text.length := by
  cases h
  simp only [List.length_append, List.length_cons]
  omega

theorem Listed.absent {σ : Type} {others : List (Form σ)} {g : Form σ} {x : σ}
    {values : List (List Char)} (h : Listed x others values) (hg : g ∈ others)
    (hfirst : g ∉ others.take values.length) : g.absent x := by
  induction h with
  | stop habsent => exact habsent g hg
  | item _ _ ih =>
    rw [List.length_cons, List.take_succ_cons, List.mem_cons, not_or] at hfirst
    exact ih ((List.mem_cons.mp hg).resolve_left hfirst.1) hfirst.2

theorem Bracketed.exists_inner {α : Type} {bracket : Bracket} {T : α → List Char → Prop} {as : List α}
    {text : List Char} (h : Bracketed bracket T as text) : ∃ inner,
      (∀ rest, text ++ rest = bracket.opening :: (inner ++ bracket.closing :: rest)) ∧
        (as = [] ∧ Space inner ∨ Commas T as inner) := by
  cases h with
  | empty hspace => exact ⟨_, by simp, Or.inl ⟨rfl, hspace⟩⟩
  | items hitems => exact ⟨_, by simp, Or.inr hitems⟩

namespace Shape
variable {σ : Type} {shape : Shape σ} {forms : List (Form σ)} {f : Field σ} {g : Form σ} {x y : σ}
  {seen : List String} {value space before s rest bound : List Char} {b : Char} {first : Bool}

/-- The fields of a shape read the texts of the fields of a structure, which are all there is to it. -/
structure Reads (shape : Shape σ) (forms : List (Form σ)) : Prop where
  fields : List.Forall₂ (Field.Reads forms) shape.fields forms
  names : (forms.map Form.name).Nodup
  blank : ∀ x, ∀ g ∈ forms, g.absent x → g.same x shape.blank
  ext : ∀ x y, (∀ g ∈ forms, g.same x y) → x = y

/-- What stands in front of a member: a comma, unless it is the first one. -/
def leading (first : Bool) (space : List Char) : List Char := if first then space else space ++ [',']

theorem leading_false (space s : List Char) : leading false space ++ s = space ++ ',' :: s := by
  simp [leading]

theorem readFields_next {c : Char} (hskip : skipSpace s = c :: rest) (hc : c ≠ '}') :
    shape.readFields (b :: bound) first seen y s = (do
      let s ← if first then pure (c :: rest) else expect [','] (c :: rest)
      let ((seen, y), rest) ← shape.readField seen y (← expectMark '"' s)
      shape.readFields bound false seen y rest) := by
  rw [readFields, hskip]
  split
  · next heq => cases heq
  · next heq => exact absurd (List.cons.inj heq).1 hc
  · rfl

/-- One round of reading an object comes to the name of the next member. -/
theorem readFields_leading (hspace : Space space) (hbefore : Space before) :
    shape.readFields (b :: bound) first seen y (leading first space ++ (before ++ '"' :: s)) = (do
      let ((seen, y), rest) ← shape.readField seen y s
      shape.readFields bound false seen y rest) := by
  cases first with
  | true =>
    have hskip : skipSpace (space ++ (before ++ '"' :: s)) = '"' :: s := by
      rw [skipSpace_append hspace, skipSpace_append hbefore, skipSpace_cons rfl]
    exact readFields_next hskip (by decide)
  | false =>
    have hskip : skipSpace (space ++ [','] ++ (before ++ '"' :: s)) = ',' :: (before ++ '"' :: s) := by
      rw [List.append_assoc, skipSpace_append hspace]
      rfl
    have hcomma : expect [','] (',' :: (before ++ '"' :: s)) = .ok (before ++ '"' :: s) := rfl
    have hmark : expectMark '"' (before ++ '"' :: s) = .ok s := by
      rw [expectMark_append hbefore, expectMark_cons rfl]
    refine (readFields_next hskip (by decide)).trans ?_
    simp only [Bool.false_eq_true, if_false, hcomma, hmark, bind, Except.bind]

theorem readFields_closing (hspace : Space space) (rest : List Char) :
    shape.readFields (b :: bound) first seen y (space ++ '}' :: rest) =
      if shape.complete seen then .ok (y, rest) else .error .mismatch := by
  rw [readFields, skipSpace_append hspace, skipSpace_cons rfl]
  rfl

section Members
variable {m : Member} {text : List Char}

theorem readFields_known (h : shape.Reads forms) (hm : MemberText m text) (hg : g ∈ forms)
    (hname : g.name = m.1) (hvalue : g.gives x m.2) (hseen : m.1 ∉ seen) (hspace : Space space)
    (hrest : Ends rest) : ∃ after put, Space after ∧ Settles forms x m.1 put ∧
      ∀ y, shape.readFields (b :: bound) first seen y (leading first space ++ (text ++ rest)) =
        shape.readFields bound false (m.1 :: seen) (put y) (after ++ rest) := by
  obtain ⟨before, body, between, front, after, hbefore, hbody, hbetween, hfront, hafter, htext⟩ :=
    hm.exists_parts
  obtain ⟨f, hfind, hf⟩ := exists_find? h.fields h.names hg
  obtain ⟨put, hread, hput⟩ := hf.read hvalue hfront (hafter.ends hrest)
  have hcontains : seen.contains m.1 = false := by simpa using hseen
  rw [hname] at hfind hput
  refine ⟨after, put, hafter, hput, fun y => ?_⟩
  rw [htext, readFields_leading hspace hbefore, readField, hbody.readQuoted]
  simp only [bind, Except.bind, hfind, hcontains, Bool.false_eq_true, if_false,
    expectMark_append hbetween, expectMark_cons (show isSpace ':' = false from rfl), hread]
  rfl

theorem readFields_unknown (h : shape.Reads forms) (hm : MemberText m text)
    (hname : ∀ g ∈ forms, g.name ≠ m.1) (hvalue : Formed none m.2) (hspace : Space space)
    (hrest : Ends rest) : ∃ after, Space after ∧
      ∀ y, shape.readFields (b :: bound) first seen y (leading first space ++ (text ++ rest)) =
        shape.readFields bound false seen y (after ++ rest) := by
  obtain ⟨before, body, between, front, after, hbefore, hbody, hbetween, hfront, hafter, htext⟩ :=
    hm.exists_parts
  refine ⟨after, hafter, fun y => ?_⟩
  rw [htext, readFields_leading hspace hbefore, readField, hbody.readQuoted]
  simp only [bind, Except.bind, find?_eq_none h.fields hname, expectMark_append hbetween,
    expectMark_cons (show isSpace ':' = false from rfl),
    hvalue.skipValue hfront (hafter.ends hrest)]
  rfl

theorem readFields_seen (h : shape.Reads forms) (hm : MemberText m text) (hg : g ∈ forms)
    (hname : g.name = m.1) (hseen : m.1 ∈ seen) (hspace : Space space) (rest : List Char) :
    shape.readFields (b :: bound) first seen y (leading first space ++ (text ++ rest)) =
      .error .mismatch := by
  obtain ⟨before, body, between, front, after, hbefore, hbody, -, -, -, htext⟩ := hm.exists_parts
  obtain ⟨f, hfind, -⟩ := exists_find? h.fields h.names hg
  have hcontains : seen.contains m.1 = true := by simpa using hseen
  rw [hname] at hfind
  rw [htext, readFields_leading hspace hbefore, readField, hbody.readQuoted]
  simp only [bind, Except.bind, hfind, hcontains, if_true]

end Members

/-- What is still to be read of an object that gives a structure. -/
structure Ongoing (forms : List (Form σ)) (x y : σ) (seen : List String) (members : List Member) :
    Prop where
  fits : ∀ m ∈ members, m.Fits forms (·.gives x)
  once : ∀ g ∈ forms, (seen ++ members.map Prod.fst).count g.name ≤ 1
  lacking : ∀ g ∈ forms, g.name ∉ seen ++ members.map Prod.fst → g.absent x
  agrees : Agrees forms x (members.map Prod.fst) y

theorem Reads.ongoing {members : List Member} (h : shape.Reads forms) (hgiven : Given forms x members) :
    Ongoing forms x shape.blank [] members where
  fits := hgiven.fits
  once := hgiven.once
  lacking := hgiven.lacking
  agrees g hg hname := h.blank x g hg (hgiven.lacking g hg hname)

/-- Where nothing is left to be read, the structure is there with all that is required. -/
theorem Ongoing.finished (h : shape.Reads forms) (hongoing : Ongoing forms x y seen []) :
    y = x ∧ shape.complete seen = true := by
  constructor
  · exact (h.ext x y fun g hg => hongoing.agrees g hg List.not_mem_nil).symm
  · rw [complete, List.all_eq_true]
    intro f hf
    obtain ⟨g, hg, hread⟩ := exists_related h.fields hf
    by_cases hrequired : f.required = true
    · have hseen : g.name ∈ seen := by
        by_contra hnot
        exact hread.required hrequired x (hongoing.lacking g hg (by simpa using hnot))
      simp [hread.name_eq, hseen]
    · simp [hrequired]

/-- The first member that is left is that of a known field, which then agrees. -/
theorem Ongoing.known {m : Member} {members : List Member} {put : σ → σ}
    (hongoing : Ongoing forms x y seen (m :: members)) (hput : Settles forms x m.1 put) :
    Ongoing forms x (put y) (m.1 :: seen) members where
  fits := fun n hn => hongoing.fits n (List.mem_cons_of_mem _ hn)
  once := by
    intro g hg
    have honce := hongoing.once g hg
    rw [List.map_cons, List.perm_middle.count_eq] at honce
    exact honce
  lacking := by
    intro g hg hname
    refine hongoing.lacking g hg ?_
    rwa [List.map_cons, List.perm_middle.mem_iff]
  agrees := hput _ y hongoing.agrees

/-- The first member that is left is that of an unknown field, and it changes nothing. -/
theorem Ongoing.unknown {m : Member} {members : List Member}
    (hongoing : Ongoing forms x y seen (m :: members)) (hname : ∀ g ∈ forms, g.name ≠ m.1) :
    Ongoing forms x y seen members where
  fits := fun n hn => hongoing.fits n (List.mem_cons_of_mem _ hn)
  once := by
    intro g hg
    have honce := hongoing.once g hg
    rwa [List.map_cons, List.perm_middle.count_eq, List.count_cons_of_ne (hname g hg).symm] at honce
  lacking := by
    intro g hg hmem
    refine hongoing.lacking g hg ?_
    rw [List.map_cons, List.perm_middle.mem_iff, List.mem_cons, not_or]
    exact ⟨hname g hg, hmem⟩
  agrees := by
    intro g hg hmem
    refine hongoing.agrees g hg ?_
    rw [List.map_cons, List.mem_cons, not_or]
    exact ⟨hname g hg, hmem⟩

/-- One member is read, and the next may follow. -/
theorem Ongoing.step {m : Member} {members : List Member} {text : List Char} (h : shape.Reads forms)
    (hongoing : Ongoing forms x y seen (m :: members)) (hm : MemberText m text) (hspace : Space space)
    (hrest : Ends rest) : ∃ after y' seen', Space after ∧ Ongoing forms x y' seen' members ∧
      shape.readFields (b :: bound) first seen y (leading first space ++ (text ++ rest)) =
        shape.readFields bound false seen' y' (after ++ rest) := by
  have hfits := hongoing.fits m List.mem_cons_self
  by_cases hname : ∃ g ∈ forms, g.name = m.1
  · obtain ⟨g, hg, hname⟩ := hname
    have hseen : m.1 ∉ seen := by
      have honce := hongoing.once g hg
      rw [hname, List.map_cons, List.perm_middle.count_eq, List.count_cons_self,
        List.count_append] at honce
      exact List.count_eq_zero.mp (by omega)
    obtain ⟨after, put, hafter, hput, hread⟩ :=
      readFields_known h hm hg hname (hfits.known g hg hname) hseen hspace hrest
    exact ⟨after, put y, m.1 :: seen, hafter, hongoing.known hput, hread y⟩
  · have hother : ∀ g ∈ forms, g.name ≠ m.1 := fun g hg heq => hname ⟨g, hg, heq⟩
    obtain ⟨after, hafter, hread⟩ :=
      readFields_unknown h hm hother (hfits.unknown hother) hspace hrest
    exact ⟨after, y, seen, hafter, hongoing.unknown hother, hread y⟩

theorem Ongoing.close (h : shape.Reads forms) (hongoing : Ongoing forms x y seen [])
    (hspace : Space space) (hbound : 0 < bound.length) (rest : List Char) :
    shape.readFields bound first seen y (space ++ '}' :: rest) = .ok (x, rest) := by
  obtain ⟨rfl, hcomplete⟩ := hongoing.finished h
  obtain ⟨b, bound, rfl⟩ := List.exists_cons_of_length_pos hbound
  rw [readFields_closing hspace, if_pos hcomplete]

theorem Ongoing.read {members : List Member} {text : List Char} (h : shape.Reads forms)
    (hongoing : Ongoing forms x y seen members) (hmembers : Commas MemberText members text)
    (hspace : Space space) (hbound : members.length < bound.length) (rest : List Char) :
    shape.readFields bound first seen y (leading first space ++ (text ++ '}' :: rest)) =
      .ok (x, rest) := by
  induction hmembers generalizing seen y bound first space with
  | one hm =>
    obtain ⟨b, bound, rfl⟩ := List.exists_cons_of_length_pos (Nat.zero_lt_of_lt hbound)
    have hends : Ends ('}' :: rest) := ends_cons rest (by decide)
    obtain ⟨after, y', seen', hafter, hongoing', hread⟩ := hongoing.step h hm hspace hends
    rw [hread]
    exact hongoing'.close h hafter (Nat.lt_of_succ_lt_succ hbound) rest
  | @cons m members text more hm _ ih =>
    obtain ⟨b, bound, rfl⟩ := List.exists_cons_of_length_pos (Nat.zero_lt_of_lt hbound)
    have hends : Ends (',' :: (more ++ '}' :: rest)) := ends_cons _ (by decide)
    obtain ⟨after, y', seen', hafter, hongoing', hread⟩ := hongoing.step h hm hspace hends
    rw [List.append_assoc, List.cons_append, hread, ← leading_false]
    exact ih hongoing' hafter (Nat.lt_of_succ_lt_succ hbound)

theorem readFields_repeated {before after : List Member} {name : String} {value text : List Char}
    (h : shape.Reads forms) (hmembers : Commas MemberText (before ++ (name, value) :: after) text)
    (hfits : ∀ m ∈ before, m.Fits forms fun f value => ∃ x, f.gives x value)
    (hknown : ∃ g ∈ forms, g.name = name) (hrepeats : name ∈ seen ++ before.map Prod.fst)
    (hspace : Space space) (hbound : before.length < bound.length) (rest : List Char) :
    shape.readFields bound first seen y (leading first space ++ (text ++ rest)) =
      .error .mismatch := by
  induction before generalizing seen y bound first space text with
  | nil =>
    obtain ⟨b, bound, rfl⟩ := List.exists_cons_of_length_pos hbound
    obtain ⟨g, hg, hname⟩ := hknown
    obtain ⟨text, last, hm, rfl, -⟩ := hmembers.exists_first
    rw [List.map_nil, List.append_nil] at hrepeats
    rw [List.append_assoc]
    exact readFields_seen h hm hg hname hrepeats hspace _
  | cons m before ih =>
    obtain ⟨b, bound, rfl⟩ := List.exists_cons_of_length_pos (Nat.zero_lt_of_lt hbound)
    obtain ⟨hfirst, hfits⟩ := List.forall_mem_cons.mp hfits
    obtain ⟨text, _, hm, rfl, hlast⟩ := hmembers.exists_first
    obtain ⟨more, hmore, rfl⟩ := hlast (by simp)
    have hends : Ends (',' :: (more ++ rest)) := ends_cons _ (by decide)
    have hbound' : before.length < bound.length := Nat.lt_of_succ_lt_succ hbound
    rw [List.map_cons, List.perm_middle.mem_iff, List.mem_cons] at hrepeats
    rw [List.append_assoc, List.cons_append]
    by_cases hname : ∃ g ∈ forms, g.name = m.1
    · obtain ⟨g, hg, hname⟩ := hname
      by_cases hseen : m.1 ∈ seen
      · exact readFields_seen h hm hg hname hseen hspace _
      · obtain ⟨x, hvalue⟩ := hfirst.known g hg hname
        obtain ⟨space', put, hspace', -, hread⟩ :=
          readFields_known h hm hg hname hvalue hseen hspace hends
        rw [hread, ← leading_false]
        exact ih hmore hfits (by simpa using hrepeats) hspace' hbound'
    · have hother : ∀ g ∈ forms, g.name ≠ m.1 := fun g hg heq => hname ⟨g, hg, heq⟩
      obtain ⟨g, hg, hname'⟩ := hknown
      have hrepeats' := hrepeats.resolve_left fun heq => hother g hg (hname'.trans heq)
      obtain ⟨space', hspace', hread⟩ :=
        readFields_unknown h hm hother (hfirst.unknown hother) hspace hends
      rw [hread, ← leading_false]
      exact ih hmore hfits hrepeats' hspace' hbound'

section Items
variable {fields : List (Field σ)} {others : List (Form σ)} {text : List Char}

theorem readItems_closing (hfields : ∀ f ∈ fields, f.required = false) (hspace : Space space)
    (rest : List Char) : readItems fields first y (space ++ ']' :: rest) = .ok (y, rest) := by
  cases fields with
  | nil =>
    rw [readItems, expectMark_append hspace, expectMark_cons rfl]
    rfl
  | cons f fields =>
    have hany : (f :: fields).any (·.required) = false := by
      rw [List.any_eq_false]
      exact fun f hf => by simp [hfields f hf]
    rw [readItems, skipSpace_append hspace, skipSpace_cons rfl]
    simp only [hany, Bool.false_eq_true, if_false]

theorem readItems_next {c : Char} (hskip : skipSpace s = c :: rest) (hc : c ≠ ']') :
    readItems (f :: fields) first y s = (do
      let s ← if first then pure (c :: rest) else do
        match skipSpace (← expect [','] (c :: rest)) with
        | [] => .error .cut
        | ']' :: _ => .error .malformed
        | s => pure s
      let (put, rest) ← f.read s
      readItems fields false (put y) rest) := by
  rw [readItems, hskip]
  split
  · next heq => cases heq
  · next heq => exact absurd (List.cons.inj heq).1 hc
  · rfl

theorem readItems_leading (hspace : Space space) (hbefore : Space before) (hvalue : Starts value) :
    readItems (f :: fields) first y (leading first space ++ (before ++ (value ++ rest))) = (do
      let (put, rest) ← f.read (value ++ rest)
      readItems fields false (put y) rest) := by
  have hskip := hvalue.skipSpace hbefore rest
  obtain ⟨c, more, rfl, -, hc⟩ := hvalue
  cases first with
  | true =>
    refine (readItems_next ((skipSpace_append hspace _).trans hskip) hc).trans ?_
    rfl
  | false =>
    have hcomma : skipSpace (space ++ ',' :: (before ++ (c :: more ++ rest))) =
        ',' :: (before ++ (c :: more ++ rest)) := by
      rw [skipSpace_append hspace, skipSpace_cons rfl]
    have hexpect : expect [','] (',' :: (before ++ (c :: more ++ rest))) =
        .ok (before ++ (c :: more ++ rest)) := rfl
    rw [leading_false, readItems_next hcomma (by decide)]
    simp only [Bool.false_eq_true, if_false, hexpect, bind, Except.bind, hskip]
    split
    · next heq => exact absurd heq (List.cons_ne_nil _ _)
    · next heq => exact absurd (List.cons.inj heq).1 hc
    · rfl

theorem readItems_item (hf : Field.Reads forms f g) (hitem : ItemText value text)
    (hvalue : g.gives x value) (hspace : Space space) (hrest : Ends rest) :
    ∃ after put, Space after ∧ Settles forms x g.name put ∧
      ∀ y, readItems (f :: fields) first y (leading first space ++ (text ++ rest)) =
        readItems fields false (put y) (after ++ rest) := by
  obtain @⟨before, after, hbefore, hafter⟩ := hitem
  obtain ⟨put, hread, hput⟩ := hf.read hvalue space_nil (hafter.ends hrest)
  rw [List.nil_append] at hread
  refine ⟨after, put, hafter, hput, fun y => ?_⟩
  rw [List.append_assoc, List.append_assoc, readItems_leading hspace hbefore (hf.starts hvalue), hread]
  rfl

theorem not_required_of_absent (h : List.Forall₂ (Field.Reads forms) fields others)
    (habsent : ∀ g ∈ others, g.absent x) : ∀ f ∈ fields, f.required = false := by
  intro f hf
  obtain ⟨g, hg, hread⟩ := exists_related h hf
  rw [Bool.eq_false_iff]
  exact fun hrequired => hread.required hrequired x (habsent g hg)

theorem readItems_listed {values : List (List Char)}
    (h : List.Forall₂ (Field.Reads forms) fields others) (hlisted : Listed x others values)
    (hitems : Commas ItemText values text)
    (hagrees : Agrees forms x ((others.take values.length).map Form.name) y) (hspace : Space space)
    (rest : List Char) : ∃ y', Agrees forms x [] y' ∧
      readItems fields first y (leading first space ++ (text ++ ']' :: rest)) = .ok (y', rest) := by
  induction hitems generalizing fields others y first space with
  | one hitem =>
    obtain _ | ⟨hvalue, hlisted⟩ := hlisted
    obtain _ | ⟨hf, hfields⟩ := h
    obtain habsent | _ := hlisted
    have hends : Ends (']' :: rest) := ends_cons rest (by decide)
    obtain ⟨after, put, hafter, hput, hread⟩ := readItems_item hf hitem hvalue hspace hends
    refine ⟨put y, hput _ y hagrees, ?_⟩
    rw [hread]
    exact readItems_closing (not_required_of_absent hfields habsent) hafter rest
  | @cons _ _ text more hitem _ ih =>
    obtain _ | ⟨hvalue, hlisted⟩ := hlisted
    obtain _ | ⟨hf, hfields⟩ := h
    have hends : Ends (',' :: (more ++ ']' :: rest)) := ends_cons _ (by decide)
    obtain ⟨after, put, hafter, hput, hread⟩ := readItems_item hf hitem hvalue hspace hends
    rw [List.append_assoc, List.cons_append, hread, ← leading_false]
    exact ih hfields hlisted (hput _ y hagrees) hafter

end Items

theorem starts_bracketed {α : Type} {bracket : Bracket} {T : α → List Char → Prop} {as : List α}
    {text : List Char} (h : Bracketed bracket T as text) : Starts text := by
  have hopening : isSpace bracket.opening = false ∧ bracket.opening ≠ ']' := by
    cases bracket <;> decide
  cases h with
  | empty _ => exact ⟨_, _, rfl, hopening⟩
  | items _ => exact ⟨_, _, rfl, hopening⟩

theorem Reads.object {members : List Member} {text : List Char} (h : shape.Reads forms)
    (hgiven : Given forms x members) (hmembers : Bracketed .curly MemberText members text)
    (hspace : Space space) (rest : List Char) :
    shape.read (space ++ (text ++ rest)) = .ok (x, rest) := by
  have hongoing := h.ongoing hgiven
  obtain ⟨inner, htext, hinner⟩ := hmembers.exists_inner
  have hopening : skipSpace (space ++ (text ++ rest)) = '{' :: (inner ++ '}' :: rest) := by
    rw [htext, skipSpace_append hspace]
    rfl
  rw [Shape.read, hopening]
  rcases hinner with ⟨rfl, hinner⟩ | hitems
  · have hpos : 0 < (inner ++ '}' :: rest).length := by
      rw [List.length_append, List.length_cons]
      omega
    exact hongoing.close h hinner hpos rest
  · have hbound : members.length < (inner ++ '}' :: rest).length := by
      have hlength := hitems.length_le MemberText.length_pos
      rw [List.length_append, List.length_cons]
      omega
    exact hongoing.read h hitems space_nil hbound rest

theorem Reads.array {values : List (List Char)} {text : List Char} (h : shape.Reads forms)
    (hlisted : Listed x forms values) (hitems : Bracketed .square ItemText values text)
    (hspace : Space space) (rest : List Char) :
    shape.read (space ++ (text ++ rest)) = .ok (x, rest) := by
  obtain ⟨inner, htext, hinner⟩ := hitems.exists_inner
  have hopening : skipSpace (space ++ (text ++ rest)) = '[' :: (inner ++ ']' :: rest) := by
    rw [htext, skipSpace_append hspace]
    rfl
  rw [Shape.read, hopening]
  rcases hinner with ⟨rfl, hinner⟩ | hitems
  · obtain ⟨habsent⟩ := hlisted
    have hblank : x = shape.blank := h.ext x _ fun g hg => h.blank x g hg (habsent g hg)
    rw [hblank]
    exact readItems_closing (not_required_of_absent h.fields habsent) hinner rest
  · have hagrees : Agrees forms x ((forms.take values.length).map Form.name) shape.blank := by
      intro g hg hname
      refine h.blank x g hg (hlisted.absent hg fun hmem => hname ?_)
      exact List.mem_map_of_mem hmem
    obtain ⟨y, hy, hread⟩ := readItems_listed h.fields hlisted hitems hagrees space_nil rest
    rw [h.ext x y fun g hg => hy g hg List.not_mem_nil]
    exact hread

theorem Reads.repeated {text : List Char} (h : shape.Reads forms) (hrepeated : RepeatedText forms text)
    (hspace : Space space) (rest : List Char) :
    shape.read (space ++ (text ++ rest)) = .error .mismatch := by
  obtain @⟨before, after, name, value, _, hmembers, hfits, hknown, hrepeats⟩ := hrepeated
  obtain ⟨inner, htext, hinner⟩ := hmembers.exists_inner
  have hopening : skipSpace (space ++ (text ++ rest)) = '{' :: (inner ++ '}' :: rest) := by
    rw [htext, skipSpace_append hspace]
    rfl
  rw [Shape.read, hopening]
  rcases hinner with ⟨hempty, -⟩ | hitems
  · exact absurd hempty (by simp)
  · have hbound : before.length < (inner ++ '}' :: rest).length := by
      have hlength := hitems.length_le MemberText.length_pos
      rw [List.length_append] at hlength ⊢
      simp only [List.length_cons] at hlength ⊢
      omega
    exact readFields_repeated h hitems hfits hknown hrepeats space_nil hbound _

/-- A structure is read off each of its texts. -/
theorem Reads.codec (h : shape.Reads forms) : shape.codec.Reads (StructureText forms) where
  starts := by
    rintro x _ (⟨hmembers, -⟩ | ⟨hitems, -⟩)
    · exact starts_bracketed hmembers
    · exact starts_bracketed hitems
  read := by
    rintro x _ space rest (⟨hmembers, hgiven⟩ | ⟨hitems, hlisted⟩) hspace _
    · exact h.object hgiven hmembers hspace rest
    · exact h.array hlisted hitems hspace rest

theorem Reads.documents (h : shape.Reads forms) : shape.codec.ReadsDocuments forms where
  given _ _ htext := h.codec.decode htext
  repeated := by
    rintro text ⟨before, body, after, hbefore, -, hlist, hbody⟩
    have hread : shape.codec.read (before ++ (body ++ after)) = .error .mismatch :=
      h.repeated hbody hbefore after
    rw [Codec.decode, hlist, Reader.all, hread]
    rfl

end Shape

theorem structure_notNull {σ : Type} (forms : List (Form σ)) :
    Codec.NotNull (StructureText forms) := by
  rintro x _ (⟨hmembers, -⟩ | ⟨hitems, -⟩) hnull
  · cases hmembers <;> cases hnull
  · cases hitems <;> cases hnull

end TriStore.Json
