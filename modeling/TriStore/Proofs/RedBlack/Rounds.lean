import TriStore.Proofs.RedBlack.Deletion
import TriStore.Proofs.RedBlack.Insertion

/-!
# Rounds of repair

A repair does rounds as long as its test asks for one. After an insertion or a deletion each of them is
possible, and they end by themselves after one for each level at most.
-/

namespace TriStore.RedBlack

/-- Rounds of repair that go on as long as a test asks for them, each of them possible. -/
inductive Rounds (test : Cursor → Bool) (round? : Cursor → Option Cursor) :
    Nat → Cursor → Cursor → Prop where
  | stop {c : Cursor} : test c = false → Rounds test round? 0 c c
  | next {n : Nat} {c c' last : Cursor} : test c = true → round? c = some c' →
      Rounds test round? n c' last → Rounds test round? (n + 1) c last

/-- The repair after an insertion ends because no red node is left with a red parent. -/
theorem Insertion.rounds_repair {n rounds : Nat} {c : Cursor} (h : RedFocus n c)
    (hrounds : c.path.length ≤ rounds ∨ redParent c = false) :
    ∃ k ≤ rounds, Rounds redParent round? k c (repair rounds c) := by
  induction rounds generalizing c n with
  | zero =>
    have hend : redParent c = false := by
      refine hrounds.elim (fun hzero => ?_) id
      rw [redParent, List.length_eq_zero_iff.mp (Nat.le_zero.mp hzero)]
    exact ⟨0, Nat.le_refl 0, .stop hend⟩
  | succ rounds ih =>
    cases hparent : redParent c with
    | false =>
      rw [repair, if_neg (by simp [hparent])]
      exact ⟨0, Nat.zero_le _, .stop hparent⟩
    | true =>
      obtain ⟨parent, grand, path, hpath, hp, hg⟩ := h.exists_grand hparent
      obtain ⟨focus, _⟩ := c
      obtain rfl : _ = parent :: grand :: path := hpath
      obtain ⟨c', m, hround, h', hnext⟩ := round_step h hp hg
      have hrounds' : c'.path.length ≤ rounds ∨ redParent c' = false := by
        refine hnext.imp_left fun hclimb => ?_
        have hlevels := hrounds.resolve_right (by simp [hparent])
        simp only [List.length_cons] at hlevels
        rw [hclimb]
        omega
      obtain ⟨k, hk, hrest⟩ := ih h' hrounds'
      refine ⟨k + 1, Nat.succ_le_succ hk, .next hparent hround ?_⟩
      simpa only [repair, hparent, hround, if_true] using hrest

/-- The repair after a deletion ends because no black node is lacking any more. -/
theorem Deletion.rounds_repair {n rounds : Nat} {c : Cursor} (h : Deficient n c)
    (hrounds : c.path.length ≤ rounds ∨ lacksBlack c = false) :
    ∃ k ≤ rounds, Rounds lacksBlack round? k c (repair rounds c) := by
  induction rounds generalizing c n with
  | zero =>
    have hend : lacksBlack c = false := by
      refine hrounds.elim (fun hzero => ?_) id
      rw [lacksBlack, List.length_eq_zero_iff.mp (Nat.le_zero.mp hzero)]
      rfl
    exact ⟨0, Nat.le_refl 0, .stop hend⟩
  | succ rounds ih =>
    cases hlacks : lacksBlack c with
    | false =>
      rw [repair, if_neg (by simp [hlacks])]
      exact ⟨0, Nat.zero_le _, .stop hlacks⟩
    | true =>
      obtain ⟨c', m, hround, h', hnext⟩ := round_step h hlacks
      have hrounds' : c'.path.length ≤ rounds ∨ lacksBlack c' = false := by
        refine hnext.imp_left fun hclimb => ?_
        have hlevels := hrounds.resolve_right (by simp [hlacks])
        omega
      obtain ⟨k, hk, hrest⟩ := ih h' hrounds'
      refine ⟨k + 1, Nat.succ_le_succ hk, .next hlacks hround ?_⟩
      simpa only [repair, hlacks, hround, if_true] using hrest

end TriStore.RedBlack
