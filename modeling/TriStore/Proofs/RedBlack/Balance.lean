import TriStore.RedBlack.Cursor

/-!
# Balance

`Tree.Balanced n` is the invariant of colours: no red node has a red child, and every path down to
a leaf meets `n` black nodes. `Supports n path` is the same said of the surroundings of a place: a
balanced subtree of black height `n` fits there. A balanced tree with a black root is the same as a
balanced subtree that fits into its surroundings, wherever the tree is cut.
-/

namespace TriStore.RedBlack

/-- No red node has a red child, and every path down to a leaf meets `n` black nodes, the leaf not
counted. -/
inductive Tree.Balanced : Nat → Tree → Prop where
  | leaf : Balanced 0 .leaf
  | red {n e l r} : l.color = .black → r.color = .black → Balanced n l → Balanced n r →
      Balanced n (.node .red e l r)
  | black {n e l r} : Balanced n l → Balanced n r → Balanced (n + 1) (.node .black e l r)

theorem Color.eq_black {c : Color} (h : c ≠ .red) : c = .black := by
  cases c with
  | red => exact absurd rfl h
  | black => rfl

namespace Tree

theorem paint_color (t : Tree) : t.paint t.color = t := by
  cases t <;> rfl

theorem paint_of_color {c : Color} {t : Tree} (h : t.color = c) : t.paint c = t := by
  rw [← h, paint_color]

theorem color_paint_black (t : Tree) : (t.paint .black).color = .black := by
  cases t <;> rfl

namespace Balanced
variable {n : Nat} {e : Entry} {l r t : Tree}

theorem red_inv (h : (node .red e l r).Balanced n) :
    l.color = .black ∧ r.color = .black ∧ l.Balanced n ∧ r.Balanced n := by
  cases h with
  | red hl hr bl br => exact ⟨hl, hr, bl, br⟩

theorem black_inv (h : (node .black e l r).Balanced n) :
    ∃ m, n = m + 1 ∧ l.Balanced m ∧ r.Balanced m := by
  cases h with
  | @black m _ _ _ bl br => exact ⟨m, rfl, bl, br⟩

theorem exists_node (h : t.Balanced (n + 1)) (hc : t.color = .black) :
    ∃ e l r, t = node .black e l r ∧ l.Balanced n ∧ r.Balanced n := by
  cases h with
  | red => simp [color] at hc
  | @black _ e l r bl br => exact ⟨e, l, r, rfl, bl, br⟩

/-- Painting a red root black adds one black node to every path. -/
theorem paint_black (h : t.Balanced n) (hc : t.color = .red) :
    (t.paint .black).Balanced (n + 1) := by
  cases h with
  | leaf => simp [color] at hc
  | red _ _ bl br => exact .black bl br
  | black => simp [color] at hc

theorem replace_entry {c : Color} (h : (node c e l r).Balanced n) (e' : Entry) :
    (node c e' l r).Balanced n := by
  cases h with
  | red hl hr bl br => exact .red hl hr bl br
  | black bl br => exact .black bl br

theorem node {c : Color} (bl : l.Balanced n) (br : r.Balanced n)
    (h : c = .red → l.color = .black ∧ r.color = .black) :
    (Tree.node c e l r).Balanced (n + if c = .black then 1 else 0) := by
  cases c with
  | red => exact .red (h rfl).1 (h rfl).2 bl br
  | black => exact .black bl br

end Balanced

def BlackRooted (t : Tree) : Prop := t.color = .black ∧ ∃ n, t.Balanced n

end Tree

namespace Frame
variable {n : Nat} {f : Frame} {t : Tree}

@[simp] theorem color_plug (f : Frame) (t : Tree) : (f.plug t).color = f.color := by
  obtain ⟨side, c, e, s⟩ := f
  cases side <;> rfl

theorem paint_plug (c : Color) (f : Frame) (t : Tree) :
    (f.plug t).paint c = { f with color := c }.plug t := by
  obtain ⟨side, d, e, s⟩ := f
  cases side <;> rfl

theorem plug_red_balanced (ht : t.color = .black) (hs : f.sibling.color = .black)
    (bt : t.Balanced n) (bs : f.sibling.Balanced n) :
    ({ f with color := .red }.plug t).Balanced n := by
  obtain ⟨side, c, e, s⟩ := f
  cases side with
  | left => exact .red ht hs bt bs
  | right => exact .red hs ht bs bt

theorem plug_black_balanced (bt : t.Balanced n) (bs : f.sibling.Balanced n) :
    ({ f with color := .black }.plug t).Balanced (n + 1) := by
  obtain ⟨side, c, e, s⟩ := f
  cases side with
  | left => exact .black bt bs
  | right => exact .black bs bt

end Frame

def parentColor? (path : List Frame) : Option Color := path.head?.map (·.color)

/-- A path that accepts any balanced subtree of black height `n` with a black root, and one with a
red root below a black parent. -/
inductive Supports : Nat → List Frame → Prop where
  | root (n : Nat) : Supports n []
  | red {n f path} : f.color = .red → f.sibling.color = .black → parentColor? path = some .black →
      f.sibling.Balanced n → Supports n path → Supports n (f :: path)
  | black {n f path} : f.color = .black → f.sibling.Balanced n → Supports (n + 1) path →
      Supports n (f :: path)

namespace Supports
variable {n : Nat} {f : Frame} {path : List Frame}

theorem red_inv (h : Supports n (f :: path)) (hc : f.color = .red) :
    f.sibling.color = .black ∧ parentColor? path = some .black ∧ f.sibling.Balanced n ∧
      Supports n path := by
  cases h with
  | red _ hs hp bs hpath => exact ⟨hs, hp, bs, hpath⟩
  | black hb => simp [hb] at hc

theorem black_inv (h : Supports n (f :: path)) (hc : f.color = .black) :
    f.sibling.Balanced n ∧ Supports (n + 1) path := by
  cases h with
  | red hr => simp [hr] at hc
  | black _ bs hpath => exact ⟨bs, hpath⟩

theorem sibling_balanced (h : Supports n (f :: path)) : f.sibling.Balanced n := by
  cases h with
  | red _ _ _ bs _ => exact bs
  | black _ bs _ => exact bs

theorem replace_sibling {s : Tree} (h : Supports n (f :: path)) (hs : s.color = .black)
    (bs : s.Balanced n) : Supports n ({ f with sibling := s } :: path) := by
  cases h with
  | red hc _ hp _ hpath => exact .red hc hs hp bs hpath
  | black hc _ hpath => exact .black hc bs hpath

theorem replace_entry {q : List Frame} {e : Entry} (h : Supports n (path ++ f :: q)) :
    Supports n (path ++ { f with entry := e } :: q) := by
  induction path generalizing n with
  | nil =>
    cases h with
    | red hc hs hp bs hq => exact .red hc hs hp bs hq
    | black hc bs hq => exact .black hc bs hq
  | cons g path ih =>
    cases h with
    | red hc hs hp bs hq =>
      refine .red hc hs ?_ bs (ih hq)
      cases path <;> exact hp
    | black hc bs hq => exact .black hc bs (ih hq)

end Supports

/-- The node above a red parent is there and black. -/
theorem exists_black_of_parentColor {path : List Frame} (h : parentColor? path = some .black) :
    ∃ g rest, path = g :: rest ∧ g.color = .black := by
  cases path with
  | nil => simp [parentColor?] at h
  | cons g rest => exact ⟨g, rest, rfl, by simpa [parentColor?] using h⟩

structure Fits (n : Nat) (t : Tree) (path : List Frame) : Prop where
  balanced : t.Balanced n
  supports : Supports n path
  parent_black : t.color = .red → parentColor? path = some .black

namespace Fits
variable {n : Nat} {t : Tree} {f : Frame} {path : List Frame}

theorem of_black (ht : t.Balanced n) (hc : t.color = .black) (hp : Supports n path) :
    Fits n t path := ⟨ht, hp, fun h => by simp [hc] at h⟩

/-- One node of the path joins the subtree. -/
theorem plug (h : Fits n t (f :: path)) : ∃ m, Fits m (f.plug t) path := by
  obtain ⟨side, c, e, s⟩ := f
  cases c with
  | red =>
    obtain ⟨hs, hp, bs, hpath⟩ := h.supports.red_inv rfl
    have ht : t.color = .black :=
      Color.eq_black fun hc => by simpa [parentColor?] using h.parent_black hc
    exact ⟨n, Frame.plug_red_balanced ht hs h.balanced bs, hpath, fun _ => hp⟩
  | black =>
    obtain ⟨bs, hpath⟩ := h.supports.black_inv rfl
    exact ⟨n + 1, .of_black (Frame.plug_black_balanced h.balanced bs) (Frame.color_plug _ _) hpath⟩

/-- One node of the subtree joins the path. -/
theorem unplug (h : Fits n (f.plug t) path) : ∃ m, Fits m t (f :: path) := by
  obtain ⟨side, c, e, s⟩ := f
  cases c with
  | red =>
    have hp : parentColor? path = some .black := h.parent_black (Frame.color_plug _ _)
    cases side with
    | left =>
      obtain ⟨ht, hs, bt, bs⟩ := h.balanced.red_inv
      exact ⟨n, .of_black bt ht (.red rfl hs hp bs h.supports)⟩
    | right =>
      obtain ⟨hs, ht, bs, bt⟩ := h.balanced.red_inv
      exact ⟨n, .of_black bt ht (.red rfl hs hp bs h.supports)⟩
  | black =>
    cases side with
    | left =>
      obtain ⟨m, rfl, bt, bs⟩ := h.balanced.black_inv
      exact ⟨m, bt, .black rfl bs h.supports, fun _ => rfl⟩
    | right =>
      obtain ⟨m, rfl, bs, bt⟩ := h.balanced.black_inv
      exact ⟨m, bt, .black rfl bs h.supports, fun _ => rfl⟩

end Fits

/-- Balance does not depend on where a tree is cut. -/
theorem blackRooted_rebuild_iff (t : Tree) (path : List Frame) :
    (Cursor.rebuild t path).BlackRooted ↔ ∃ n, Fits n t path := by
  induction path generalizing t with
  | nil =>
    constructor
    · rintro ⟨hc, n, ht⟩
      exact ⟨n, .of_black ht hc (.root n)⟩
    · rintro ⟨n, ht, _, hp⟩
      exact ⟨Color.eq_black fun hc => by simpa [parentColor?] using hp hc, n, ht⟩
  | cons f path ih =>
    refine (ih (f.plug t)).trans ⟨?_, ?_⟩
    · rintro ⟨n, h⟩
      exact h.unplug
    · rintro ⟨n, h⟩
      exact h.plug

end TriStore.RedBlack
