import TriStore.RedBlack.Deletion
import TriStore.Proofs.RedBlack.Balance
import TriStore.Proofs.RedBlack.Entries

/-!
# Deletion keeps trees in order and in balance

Before each round of repair the tree is balanced but for one black node that the paths through the
focus lack. A round keeps the entries in order. It climbs one level, or it leaves a red focus, which
painting makes up for, or it ends at the root.
-/

namespace TriStore.RedBlack.Deletion

theorem entries_blackenSibling {c c' : Cursor} (h : blackenSibling? c = some c') :
    c'.tree.entries = c.tree.entries := by
  obtain ⟨focus, path⟩ := c
  match path, h with
  | parent :: path, h =>
    simp only [blackenSibling?] at h
    split at h
    · obtain ⟨c₁, h₁, h₂⟩ := Option.bind_eq_some_iff.mp h
      rw [Cursor.tree_down h₂, Cursor.entries_rotate_down h₁]
      apply Cursor.entries_rebuild_congr
      exact Frame.entries_plug_congr rfl rfl (Tree.entries_paint _ _) rfl
    · rw [← Option.some.inj h]

theorem entries_reddenFar {near : Side} {s s' : Tree} (h : reddenFar? near s = some s') :
    s'.entries = s.entries := by
  unfold reddenFar? at h
  split at h
  · rw [Tree.entries_rotate h, Tree.entries_paint, Tree.entries_paintChild]
  · rw [← Option.some.inj h]

theorem entries_raiseSibling {c c' : Cursor} (h : raiseSibling? c = some c') :
    c'.tree.entries = c.tree.entries := by
  obtain ⟨focus, path⟩ := c
  match path, h with
  | parent :: path, h =>
    obtain ⟨c₁, h₁, rfl⟩ := Option.map_eq_some_iff.mp h
    rw [Cursor.tree_top, Cursor.entries_rotate h₁]
    apply Cursor.entries_rebuild_congr
    refine Frame.entries_plug_congr rfl rfl ?_ rfl
    simp only [Tree.entries_paintChild, Tree.entries_paint]

theorem entries_fill {c c' : Cursor} (h : fill? c = some c') :
    c'.tree.entries = c.tree.entries := by
  obtain ⟨focus, path⟩ := c
  match path, h with
  | ⟨side, pc, pe, s⟩ :: path, h =>
    cases s with
    | leaf => simp [fill?] at h
    | node sc se l r =>
      simp only [fill?] at h
      split at h
      · rw [← Option.some.inj h]
        apply Cursor.entries_rebuild_congr
        exact Frame.entries_plug_congr rfl rfl rfl rfl
      · obtain ⟨s', hs', h'⟩ := Option.bind_eq_some_iff.mp h
        rw [entries_raiseSibling h']
        have hplug : (Frame.plug ⟨side, pc, pe, s'⟩ focus).entries =
            (Frame.plug ⟨side, pc, pe, .node sc se l r⟩ focus).entries :=
          Frame.entries_plug_congr rfl rfl (entries_reddenFar hs') rfl
        exact Cursor.entries_rebuild_congr hplug path

theorem entries_round {c c' : Cursor} (h : round? c = some c') :
    c'.tree.entries = c.tree.entries := by
  obtain ⟨c₁, h₁, h₂⟩ := Option.bind_eq_some_iff.mp h
  rw [entries_fill h₂, entries_blackenSibling h₁]

theorem entries_repair (rounds : Nat) (c : Cursor) :
    (repair rounds c).tree.entries = c.tree.entries := by
  induction rounds generalizing c with
  | zero => rfl
  | succ rounds ih =>
    simp only [repair]
    split
    · split
      · next c' hround => rw [ih, entries_round hround]
      · rfl
    · rfl

theorem entries_refill (c : Cursor) : (refill c).entries = c.tree.entries := by
  rw [← entries_repair c.path.length c]
  exact Cursor.entries_rebuild_congr (Tree.entries_paint _ _) _

/-- Every path through the focus lacks one black node. A red focus makes up for it as soon as it is
painted black. -/
structure Deficient (n : Nat) (c : Cursor) : Prop where
  black : c.focus.color = .black → c.focus.Balanced n
  red : c.focus.color = .red → (c.focus.paint .black).Balanced (n + 1)
  supports : Supports (n + 1) c.path

section Round
variable {n : Nat} {focus : Tree} {parent : Frame} {path : List Frame}

theorem blackenSibling_eq {e : Entry} {l r : Tree} (hs : parent.sibling = .node .red e l r) :
    blackenSibling? ⟨focus, parent :: path⟩ = some ⟨focus,
      { parent with color := .red, sibling := parent.sibling.child parent.side } ::
      ⟨parent.side, .black, e, parent.sibling.child parent.side.flip⟩ :: path⟩ := by
  obtain ⟨side, c, pe, s⟩ := parent
  obtain rfl : s = .node .red e l r := hs
  cases side <;> rfl

/-- The sibling is black once a red one has risen, and then the parent is red. -/
theorem blackenSibling_step (focus : Tree) (h : Supports (n + 1) (parent :: path)) :
    ∃ parent' path', blackenSibling? ⟨focus, parent :: path⟩ = some ⟨focus, parent' :: path'⟩ ∧
      parent'.sibling.color = .black ∧ Supports (n + 1) (parent' :: path') ∧
      (parent' = parent ∧ path' = path ∨ parent'.color = .red) := by
  by_cases hs : parent.sibling.color = .red
  · have hp : parent.color = .black :=
      Color.eq_black fun hp => by simp [(h.red_inv hp).1] at hs
    obtain ⟨bs, hpath⟩ := h.black_inv hp
    cases hsib : parent.sibling with
    | leaf => simp [hsib, Tree.color] at hs
    | node c e l r =>
      obtain rfl : c = .red := by simpa [hsib, Tree.color] using hs
      rw [hsib] at bs
      obtain ⟨hl, hr, bl, br⟩ := bs.red_inv
      refine ⟨_, _, blackenSibling_eq hsib, ?_, ?_, Or.inr rfl⟩
      · cases hside : parent.side <;> simp [hsib, Tree.child, hl, hr]
      · rw [hsib]
        cases parent.side with
        | left => exact .red rfl hl rfl bl (.black rfl br hpath)
        | right => exact .red rfl hr rfl br (.black rfl bl hpath)
  · exact ⟨parent, path, by simp [blackenSibling?, hs], Color.eq_black hs, h, Or.inl ⟨rfl, rfl⟩⟩

theorem reddenFar_step (near : Side) (e : Entry) {l r : Tree} (bl : l.Balanced n) (br : r.Balanced n)
    (hred : ¬(l.color = .black ∧ r.color = .black)) :
    ∃ e' l' r', reddenFar? near (.node .black e l r) = some (.node .black e' l' r') ∧
      l'.Balanced n ∧ r'.Balanced n ∧ ((Tree.node .black e' l' r').child near.flip).color = .red := by
  by_cases hfar : ((Tree.node .black e l r).child near.flip).color = .black
  · -- the near child is the red one, and it rises
    cases near with
    | left =>
      have hr : r.color = .black := hfar
      cases bl with
      | leaf => exact absurd ⟨rfl, hr⟩ hred
      | black => exact absurd ⟨rfl, hr⟩ hred
      | @red _ x a b ha hb ba bb =>
        exact ⟨x, a, .node .red e b r, by simp [reddenFar?, Tree.child, Side.flip, hr]; rfl, ba,
          .red hb hr bb br, rfl⟩
    | right =>
      have hl : l.color = .black := hfar
      cases br with
      | leaf => exact absurd ⟨hl, rfl⟩ hred
      | black => exact absurd ⟨hl, rfl⟩ hred
      | @red _ x a b ha hb ba bb =>
        exact ⟨x, .node .red e l a, b, by simp [reddenFar?, Tree.child, Side.flip, hl]; rfl,
          .red hl ha bl ba, bb, rfl⟩
  · refine ⟨e, l, r, if_neg hfar, bl, br, ?_⟩
    cases hc : ((Tree.node .black e l r).child near.flip).color with
    | red => rfl
    | black => exact absurd hc hfar

theorem raiseSibling_step {e : Entry} {l r : Tree} (hfocus : focus.Balanced n)
    (hsib : parent.sibling = .node .black e l r) (bl : l.Balanced n) (br : r.Balanced n)
    (hfar : (parent.sibling.child parent.side.flip).color = .red)
    (hp : Supports (n + 1) (parent :: path)) :
    ∃ t, raiseSibling? ⟨focus, parent :: path⟩ = some ⟨t, []⟩ ∧ t.BlackRooted := by
  obtain ⟨side, c, pe, s⟩ := parent
  obtain rfl : s = .node .black e l r := hsib
  -- the subtree that the sibling roots after the turn has the parent's colour and black height
  suffices h : ∃ t m, Tree.rotate? side (Frame.plug ⟨side, .black, pe,
      ((Tree.node .black e l r).paint c).paintChild side.flip .black⟩ focus) = some t ∧
      Fits m t path by
    obtain ⟨t, m, ht, hfits⟩ := h
    refine ⟨Cursor.rebuild t path, ?_, (blackRooted_rebuild_iff t path).mpr ⟨m, hfits⟩⟩
    simp only [raiseSibling?, Cursor.rotate?, ht]
    rfl
  cases side with
  | left =>
    have br' := br.paint_black hfar
    have hblack := r.color_paint_black
    refine ⟨.node c e (.node .black pe focus l) (r.paint .black), ?_⟩
    cases c with
    | red =>
      obtain ⟨_, hparent, _, hpath⟩ := hp.red_inv rfl
      exact ⟨n + 1, rfl, .red rfl hblack (.black hfocus bl) br', hpath, fun _ => hparent⟩
    | black =>
      obtain ⟨_, hpath⟩ := hp.black_inv rfl
      exact ⟨n + 2, rfl, .of_black (.black (.black hfocus bl) br') rfl hpath⟩
  | right =>
    have bl' := bl.paint_black hfar
    have hblack := l.color_paint_black
    refine ⟨.node c e (l.paint .black) (.node .black pe r focus), ?_⟩
    cases c with
    | red =>
      obtain ⟨_, hparent, _, hpath⟩ := hp.red_inv rfl
      exact ⟨n + 1, rfl, .red hblack rfl bl' (.black br hfocus), hpath, fun _ => hparent⟩
    | black =>
      obtain ⟨_, hpath⟩ := hp.black_inv rfl
      exact ⟨n + 2, rfl, .of_black (.black bl' (.black br hfocus)) rfl hpath⟩

/-- With a black sibling a round climbs one level, where a red parent ends the repair, or it ends at
the root. -/
theorem fill_step (hfocus : focus.Balanced n) (hs : parent.sibling.color = .black)
    (hp : Supports (n + 1) (parent :: path)) :
    ∃ c' m, fill? ⟨focus, parent :: path⟩ = some c' ∧ Deficient m c' ∧
      (c'.path = [] ∧ lacksBlack c' = false ∨ c'.path = path ∧ c'.focus.color = parent.color) := by
  obtain ⟨e, l, r, hsib, bl, br⟩ := hp.sibling_balanced.exists_node hs
  by_cases hchildren : l.color = .black ∧ r.color = .black
  · have bred : (Tree.node .red e l r).Balanced n := .red hchildren.1 hchildren.2 bl br
    let turned : Frame := { parent with sibling := .node .red e l r }
    have hfill : fill? ⟨focus, parent :: path⟩ = some ⟨turned.plug focus, path⟩ := by
      simp only [fill?, hsib, if_pos hchildren]
      rfl
    have hcolor : (turned.plug focus).color = parent.color := Frame.color_plug _ _
    have bturned : ({ turned with color := .black }.plug focus).Balanced (n + 1) :=
      Frame.plug_black_balanced hfocus bred
    cases hc : parent.color with
    | red =>
      obtain ⟨_, _, _, hpath⟩ := hp.red_inv hc
      refine ⟨_, n, hfill, ⟨fun h => ?_, fun _ => ?_, hpath⟩, Or.inr ⟨rfl, hcolor.trans hc⟩⟩
      · simp [hcolor, hc] at h
      · rwa [Frame.paint_plug]
    | black =>
      obtain ⟨_, hpath⟩ := hp.black_inv hc
      refine ⟨_, n + 1, hfill, ⟨fun _ => ?_, fun h => ?_, hpath⟩, Or.inr ⟨rfl, hcolor.trans hc⟩⟩
      · rw [← Tree.paint_of_color (hcolor.trans hc)]
        rwa [Frame.paint_plug]
      · simp [hcolor, hc] at h
  · obtain ⟨e', l', r', hredden, bl', br', hfar⟩ :=
      reddenFar_step parent.side e bl br hchildren
    have hp' : Supports (n + 1) ({ parent with sibling := .node .black e' l' r' } :: path) :=
      hp.replace_sibling rfl (.black bl' br')
    obtain ⟨t, hraise, hroot⟩ := raiseSibling_step hfocus rfl bl' br' hfar hp'
    have hfill : fill? ⟨focus, parent :: path⟩ = some ⟨t, []⟩ := by
      simp only [fill?, hsib, if_neg hchildren, hredden]
      exact hraise
    obtain ⟨hblack, m, bt⟩ := hroot
    refine ⟨_, m, hfill, ⟨fun _ => bt, fun h => ?_, .root _⟩, Or.inl ⟨rfl, rfl⟩⟩
    simp [hblack] at h

/-- What a round does where a black node is lacking: it climbs one level, or it ends the repair. -/
theorem round_step {c : Cursor} (h : Deficient n c) (hl : lacksBlack c = true) :
    ∃ c' m, round? c = some c' ∧ Deficient m c' ∧
      (c'.path.length + 1 = c.path.length ∨ lacksBlack c' = false) := by
  obtain ⟨focus, path⟩ := c
  cases path with
  | nil => simp [lacksBlack] at hl
  | cons parent path =>
    have hc : focus.color = .black := by simpa [lacksBlack] using hl
    obtain ⟨parent', path', hblacken, hs, hp, hor⟩ := blackenSibling_step focus h.supports
    obtain ⟨c', m, hfill, h', hnext⟩ := fill_step (h.black hc) hs hp
    refine ⟨c', m, by rw [round?, hblacken]; exact hfill, h', ?_⟩
    rcases hnext with ⟨_, hend⟩ | ⟨hpath, hcolor⟩
    · exact Or.inr hend
    · rcases hor with ⟨rfl, rfl⟩ | hred
      · exact Or.inl (by rw [hpath]; rfl)
      · exact Or.inr (by simp [lacksBlack, hcolor, hred])

end Round

/-- After as many rounds as the path has levels the lack has come to an end. -/
theorem repair_balanced {n : Nat} (rounds : Nat) {c : Cursor} (h : Deficient n c)
    (hr : c.path.length ≤ rounds) :
    ∃ m, Deficient m (repair rounds c) ∧ lacksBlack (repair rounds c) = false := by
  induction rounds generalizing c n with
  | zero =>
    have hnil : c.path = [] := List.length_eq_zero_iff.mp (Nat.le_zero.mp hr)
    exact ⟨n, h, by simp [repair, lacksBlack, hnil]⟩
  | succ rounds ih =>
    cases hl : lacksBlack c with
    | false => exact ⟨n, by simpa [repair, hl] using h, by simp [repair, hl]⟩
    | true =>
      obtain ⟨c', m, hround, h', hnext⟩ := round_step h hl
      simp only [repair, hl, hround, if_true]
      rcases hnext with hclimb | hend
      · exact ih h' (by omega)
      · refine ⟨m, ?_⟩
        cases rounds with
        | zero => exact ⟨h', hend⟩
        | succ rounds => simpa [repair, hend] using h'

theorem refill_blackRooted {n : Nat} {c : Cursor} (h : Deficient n c) : (refill c).BlackRooted := by
  obtain ⟨m, hm, hend⟩ := repair_balanced c.path.length h (Nat.le_refl _)
  rw [refill]
  generalize repair c.path.length c = c' at hm hend
  obtain ⟨focus, path⟩ := c'
  apply (blackRooted_rebuild_iff _ path).mpr
  cases hc : focus.color with
  | red => exact ⟨m + 1, .of_black (hm.red hc) (Tree.color_paint_black _) hm.supports⟩
  | black =>
    have hnil : path = [] := by simpa [lacksBlack, hc] using hend
    subst hnil
    exact ⟨m, .of_black (by rw [Tree.paint_of_color hc]; exact hm.black hc)
      (Tree.color_paint_black _) (.root _)⟩

/-- Going to the leftmost node changes nothing: the tree around it is the one the search began in. -/
theorem rebuild_leftmost (c : Color) (e : Entry) (r : Tree) (path : List Frame) (l : Tree) :
    (let (c', e', r', path') := leftmost c e r path l
    Cursor.rebuild (.node c' e' .leaf r') path') = Cursor.rebuild (.node c e l r) path := by
  induction l generalizing c e r path with
  | leaf => rfl
  | node c₁ e₁ l₁ r₁ ih _ => exact ih c₁ e₁ r₁ (⟨.left, c, e, r⟩ :: path)

theorem before_leftmost (c : Color) (e : Entry) (r : Tree) (path : List Frame) (l : Tree) :
    Cursor.before (leftmost c e r path l).2.2.2 = Cursor.before path := by
  induction l generalizing c e r path with
  | leaf => rfl
  | node c₁ e₁ l₁ r₁ ih _ =>
    rw [leftmost, ih]
    simp [Cursor.before, Frame.before]

theorem entries_leftmost (c : Color) (e : Entry) (l r : Tree) :
    (Tree.node c e l r).entries =
      let (_, e', r', between) := leftmost c e r [] l
      e' :: (Cursor.rebuild r' between).entries := by
  have hbefore := before_leftmost c e r [] l
  have hrebuild := rebuild_leftmost c e r [] l
  generalize leftmost c e r [] l = found at hbefore hrebuild
  obtain ⟨c', e', r', between⟩ := found
  have hentries := congrArg Tree.entries hrebuild
  simp only [Cursor.before] at hbefore
  simp only [Cursor.entries_rebuild, Cursor.rebuild, Tree.entries, hbefore] at hentries ⊢
  simpa using hentries.symm

/-- A place that lost a node of a colour: where the node was red nothing else is wrong. -/
def LostNode (c : Color) (place : Cursor) : Prop :=
  match c with
  | .black => ∃ n, Deficient n place
  | .red => ∃ n, Fits n place.focus place.path

theorem lostNode_left_leaf {n : Nat} {c : Color} {e : Entry} {r : Tree} {path : List Frame}
    (h : Fits n (.node c e .leaf r) path) : LostNode c ⟨r, path⟩ := by
  cases c with
  | red =>
    obtain ⟨_, hr, _, br⟩ := h.balanced.red_inv
    exact ⟨n, .of_black br hr h.supports⟩
  | black =>
    obtain ⟨m, rfl, _, br⟩ := h.balanced.black_inv
    exact ⟨m, fun _ => br, br.paint_black, h.supports⟩

theorem lostNode_right_leaf {n : Nat} {c : Color} {e : Entry} {l : Tree} {path : List Frame}
    (h : Fits n (.node c e l .leaf) path) : LostNode c ⟨l, path⟩ := by
  cases c with
  | red =>
    obtain ⟨hl, _, bl, _⟩ := h.balanced.red_inv
    exact ⟨n, .of_black bl hl h.supports⟩
  | black =>
    obtain ⟨m, rfl, bl, _⟩ := h.balanced.black_inv
    exact ⟨m, fun _ => bl, bl.paint_black, h.supports⟩

/-- Taking a node out leaves a place that lost one, with the other entries as they were. -/
theorem detach_spec {n : Nat} {c : Color} {e : Entry} {l r : Tree} {path : List Frame}
    (h : Fits n (.node c e l r) path) :
    LostNode (detach c l r path).2 (detach c l r path).1 ∧
      (detach c l r path).1.tree.entries =
        Cursor.before path ++ l.entries ++ r.entries ++ Cursor.after path := by
  cases l with
  | leaf =>
    refine ⟨lostNode_left_leaf h, ?_⟩
    simp [detach, Cursor.tree, Cursor.entries_rebuild, Tree.entries]
  | node lc le ll lr =>
    cases r with
    | leaf =>
      refine ⟨lostNode_right_leaf h, ?_⟩
      simp [detach, Cursor.tree, Cursor.entries_rebuild, Tree.entries]
    | node c₀ e₀ l₀ r₀ =>
      -- the leftmost node of the right subtree is the next one in order
      have hrebuild := rebuild_leftmost c₀ e₀ r₀ [] l₀
      have hentries := entries_leftmost c₀ e₀ l₀ r₀
      simp only [detach]
      generalize leftmost c₀ e₀ r₀ [] l₀ = found at hrebuild hentries
      obtain ⟨c', next, r', between⟩ := found
      simp only [Cursor.rebuild] at hrebuild hentries ⊢
      constructor
      · have hroot : (Cursor.rebuild (.node c' next .leaf r')
            (between ++ ⟨.right, c, e, .node lc le ll lr⟩ :: path)).BlackRooted := by
          rw [Cursor.rebuild_append, hrebuild]
          exact (blackRooted_rebuild_iff _ path).mpr ⟨n, h⟩
        obtain ⟨m, hfits⟩ := (blackRooted_rebuild_iff _ _).mp hroot
        apply lostNode_left_leaf (n := m) (e := next)
        refine ⟨hfits.balanced, hfits.supports.replace_entry, fun hc => ?_⟩
        have hparent := hfits.parent_black hc
        cases between <;> exact hparent
      · rw [Cursor.tree, Cursor.entries_rebuild, Cursor.before_append, Cursor.after_append]
        rw [Cursor.entries_rebuild] at hentries
        simp [Cursor.before, Cursor.after, Frame.before, Frame.after, hentries]

theorem eraseAt_blackRooted {n : Nat} {c : Color} {e : Entry} {l r : Tree} {path : List Frame}
    (h : Fits n (.node c e l r) path) : (eraseAt c l r path).BlackRooted := by
  have hspec := (detach_spec h).1
  rw [eraseAt]
  generalize detach c l r path = detached at hspec
  obtain ⟨place, removed⟩ := detached
  cases removed with
  | red => exact (blackRooted_rebuild_iff _ _).mpr hspec
  | black =>
    obtain ⟨m, hm⟩ := hspec
    exact refill_blackRooted hm

theorem entries_eraseAt {n : Nat} {c : Color} {e : Entry} {l r : Tree} {path : List Frame}
    (h : Fits n (.node c e l r) path) :
    (eraseAt c l r path).entries =
      Cursor.before path ++ l.entries ++ r.entries ++ Cursor.after path := by
  have hspec := (detach_spec h).2
  rw [eraseAt]
  generalize detach c l r path = detached at hspec
  obtain ⟨place, removed⟩ := detached
  cases removed with
  | red => exact hspec
  | black => exact (entries_refill place).trans hspec

end TriStore.RedBlack.Deletion
