/-!
# Which comes first

The order of two elements in a list without repetitions. Where such a list is cut at an element, what
stands after the cut are just the elements that this one precedes.
-/

namespace TriStore
variable {α : Type} {xs before after : List α} {x y : α}

def Precedes (xs : List α) (x y : α) : Prop := [x, y].Sublist xs

theorem precedes_iff_after (h : (before ++ x :: after).Nodup) :
    Precedes (before ++ x :: after) x y ↔ y ∈ after := by
  obtain ⟨-, -, hdisjoint⟩ := List.nodup_append.mp h
  constructor
  · intro hpair
    obtain ⟨front, back, hsplit, hfront, hback⟩ := List.cons_sublist_iff.mp hpair
    rw [List.singleton_sublist] at hback
    rcases List.append_eq_append_iff.mp hsplit with ⟨more, rfl, hmore⟩ | ⟨more, rfl, hmore⟩
    · cases more with
      | nil =>
        rw [List.append_nil] at hfront
        exact absurd rfl (hdisjoint x hfront x List.mem_cons_self)
      | cons z more =>
        rw [List.cons_append, List.cons.injEq] at hmore
        rw [hmore.2]
        exact List.mem_append_right _ hback
    · exact absurd rfl (hdisjoint x (List.mem_append_left _ hfront) x List.mem_cons_self)
  · intro hy
    refine List.Sublist.trans ?_ (List.sublist_append_right _ _)
    exact (List.singleton_sublist.mpr hy).cons_cons x

theorem precedes_iff_before (h : (before ++ y :: after).Nodup) :
    Precedes (before ++ y :: after) x y ↔ x ∈ before := by
  have hreverse : (after.reverse ++ y :: before.reverse).Nodup := by
    have hnodup := List.pairwise_reverse.mpr (h.imp Ne.symm)
    rwa [List.reverse_append, List.reverse_cons, List.append_assoc] at hnodup
  have hpair := precedes_iff_after hreverse (y := x)
  rw [List.mem_reverse] at hpair
  rw [← hpair, Precedes, Precedes, ← List.reverse_sublist]
  simp only [List.reverse_append, List.reverse_cons, List.reverse_nil, List.nil_append,
    List.append_assoc, List.singleton_append]

namespace Precedes

theorem mem_left (h : Precedes xs x y) : x ∈ xs := h.subset List.mem_cons_self

theorem mem_right (h : Precedes xs x y) : y ∈ xs :=
  h.subset (List.mem_cons_of_mem _ List.mem_cons_self)

theorem ne (hnodup : xs.Nodup) (h : Precedes xs x y) : x ≠ y :=
  (List.nodup_cons.mp (h.nodup hnodup)).1 ∘ List.mem_singleton.mpr

theorem asymm (hnodup : xs.Nodup) (h : Precedes xs x y) : ¬ Precedes xs y x := by
  intro hyx
  obtain ⟨before, after, rfl⟩ := List.append_of_mem h.mem_left
  have hafter := (precedes_iff_after hnodup).mp h
  have hbefore := (precedes_iff_before hnodup).mp hyx
  exact (List.nodup_append.mp hnodup).2.2 y hbefore y (List.mem_cons_of_mem _ hafter) rfl

end Precedes

theorem precedes_total (hnodup : xs.Nodup) (hx : x ∈ xs) (hy : y ∈ xs) (hne : x ≠ y) :
    Precedes xs x y ∨ Precedes xs y x := by
  obtain ⟨before, after, rfl⟩ := List.append_of_mem hx
  rcases List.mem_append.mp hy with hy | hy
  · exact Or.inr ((precedes_iff_before hnodup).mpr hy)
  · exact Or.inl ((precedes_iff_after hnodup).mpr ((List.mem_cons.mp hy).resolve_left hne.symm))

end TriStore
