import Mathlib.Data.List.Nodup
import TriStore.Proofs.Cells

/-!
# The order in which a batch is executed

Requests that are not for one cell can change places: neither sees the other, and the cells are the
same after both. Two orders of a batch that keep the requests for each cell in order turn into each
other that way. So where there is room, they give the same answers and leave the same records,
although tree shapes, chains and slots may differ.
-/

namespace TriStore

def Request.Shares (r r' : Request) : Prop := ∃ cell ∈ r.cell?, cell ∈ r'.cell?

instance (r r' : Request) : Decidable (r.Shares r') :=
  inferInstanceAs (Decidable (∃ cell ∈ r.cell?, cell ∈ r'.cell?))

theorem Request.Shares.symm {r r' : Request} (h : r.Shares r') : r'.Shares r := by
  obtain ⟨cell, hcell, hcell'⟩ := h
  exact ⟨cell, hcell', hcell⟩

/-- Requests for one cell come in the order of their numbers. -/
def InTurn (turns : List (Request × Nat)) : Prop :=
  turns.Pairwise fun p q => p.1.Shares q.1 → p.2 < q.2

instance (turns : List (Request × Nat)) : Decidable (InTurn turns) :=
  inferInstanceAs (Decidable (turns.Pairwise _))

/-- An order in which the numbered requests of a batch may be executed. -/
structure Schedule (batch : List Request) where
  turns : List (Request × Nat)
  complete : turns.Perm batch.zipIdx
  inTurn : InTurn turns

namespace Schedule
variable {batch : List Request} (o : Schedule batch)

theorem requests_perm : (o.turns.map (·.1)).Perm batch := by
  have hperm := o.complete.map (·.1)
  rwa [List.zipIdx_map_fst] at hperm

theorem numbers_perm : (o.turns.map (·.2)).Perm (List.range batch.length) := by
  have hperm := o.complete.map (·.2)
  rwa [List.zipIdx_map_snd, ← List.range_eq_range'] at hperm

end Schedule

namespace Cells
variable {cells : Cells} {r r' : Request}

theorem reply_next (h : ¬ r.Shares r') : (cells.next r).reply r' = cells.reply r' := by
  apply reply_congr
  intro cell hcell
  exact next_of_ne fun hmem => h ⟨cell, hmem, hcell⟩

theorem next_comm (h : ¬ r.Shares r') : (cells.next r).next r' = (cells.next r').next r := by
  funext cell
  by_cases hcell : cell ∈ r.cell?
  · have hother : cell ∉ r'.cell? := fun hmem => h ⟨cell, hcell, hmem⟩
    rw [next_of_ne hother]
    exact next_congr (next_of_ne hother).symm
  · rw [next_of_ne hcell]
    exact next_congr (next_of_ne hcell)

def run (cells : Cells) : List (Request × Nat) →
    List (Nat × Status × String × Option String) × Cells
  | [] => ([], cells)
  | p :: turns =>
    let rest := run (cells.next p.1) turns
    ((p.2, cells.reply p.1) :: rest.1, rest.2)

/-- A request may be executed ahead of others that are not for its cell. -/
theorem run_ahead (cells : Cells) {p : Request × Nat} {before after : List (Request × Nat)}
    (h : ∀ q ∈ before, ¬ q.1.Shares p.1) :
    (cells.run (before ++ p :: after)).1.Perm (cells.run (p :: (before ++ after))).1 ∧
      (cells.run (before ++ p :: after)).2 = (cells.run (p :: (before ++ after))).2 := by
  induction before generalizing cells with
  | nil => exact ⟨.refl _, rfl⟩
  | cons q before ih =>
    have hapart : ¬ q.1.Shares p.1 := h q List.mem_cons_self
    obtain ⟨hanswers, hcells⟩ := ih (cells.next q.1) fun q hq => h q (List.mem_cons_of_mem _ hq)
    simp only [List.cons_append, run] at hanswers hcells ⊢
    rw [hcells, ← next_comm hapart, reply_next fun hshares => hapart hshares.symm]
    rw [reply_next hapart] at hanswers
    exact ⟨(hanswers.cons _).trans (.swap _ _ _), rfl⟩

/-- Two orders in which requests for one cell keep theirs come to the same. -/
theorem run_perm (cells : Cells) {turns others : List (Request × Nat)} (hperm : turns.Perm others)
    (hturns : InTurn turns) (hothers : InTurn others) :
    (cells.run turns).1.Perm (cells.run others).1 ∧
      (cells.run turns).2 = (cells.run others).2 := by
  induction turns generalizing cells others with
  | nil =>
    rw [hperm.nil_eq]
    exact ⟨.refl _, rfl⟩
  | cons p turns ih =>
    obtain ⟨before, after, rfl⟩ := List.append_of_mem (hperm.subset List.mem_cons_self)
    have hrest : turns.Perm (before ++ after) := (hperm.trans List.perm_middle).cons_inv
    obtain ⟨hfirst, hturns⟩ := List.pairwise_cons.mp hturns
    -- a request for the same cell cannot be before the first one
    have hahead : ∀ q ∈ before, ¬ q.1.Shares p.1 := by
      intro q hq hshares
      have hlt : q.2 < p.2 :=
        (List.pairwise_append.mp hothers).2.2 q hq p List.mem_cons_self hshares
      have hgt : p.2 < q.2 :=
        hfirst q (hrest.mem_iff.mpr (List.mem_append_left _ hq)) hshares.symm
      omega
    have hothers' : InTurn (before ++ after) :=
      hothers.sublist ((List.Sublist.refl _).append (List.sublist_cons_self _ _))
    obtain ⟨hanswers, hcells⟩ := ih (cells.next p.1) hrest hturns hothers'
    have hmoved : _ ∧ (cells.run (before ++ p :: after)).2 = _ := run_ahead cells hahead
    rw [run] at hmoved ⊢
    rw [hcells]
    exact ⟨(hanswers.cons _).trans hmoved.1.symm, hmoved.2.symm⟩

theorem run_ne_full (cells : Cells) (turns : List (Request × Nat)) :
    ∀ answered ∈ (cells.run turns).1, answered.2.1 ≠ .full := by
  induction turns generalizing cells with
  | nil => exact nofun
  | cons p turns ih =>
    intro answered hanswered
    rcases List.mem_cons.mp hanswered with rfl | hanswered
    · exact reply_ne_full cells p.1
    · exact ih _ answered hanswered

end Cells

namespace Store
variable {c : Config} {s s' : Store} {batch : List Request}

def run (s : Store) : List (Request × Nat) → List (Nat × Response) × Store
  | [] => ([], s)
  | p :: turns =>
    let executed := s.execute p.1
    let rest := run executed.2 turns
    ((p.2, executed.1) :: rest.1, rest.2)

theorem run_numbers (s : Store) (turns : List (Request × Nat)) :
    (s.run turns).1.map (·.1) = turns.map (·.2) := by
  induction turns generalizing s with
  | nil => rfl
  | cons p turns ih => rw [run, List.map_cons, List.map_cons, ih]

theorem run_of_room (h : Reachable c s) {turns : List (Request × Nat)}
    (hroom : s.RoomFor (turns.map (·.1))) :
    (s.run turns).1.map (fun answered => (answered.1, answered.2.body)) = (s.cells.run turns).1 ∧
      (s.run turns).2.cells = (s.cells.run turns).2 ∧ Reachable c (s.run turns).2 := by
  induction turns generalizing s with
  | nil => exact ⟨rfl, rfl, h⟩
  | cons p turns ih =>
    obtain ⟨hbody, hcells, hrest⟩ := execute_of_room h.sound hroom
    have hnext : Reachable c (s.execute p.1).2 := h.act (.execute p.1)
    obtain ⟨hanswers, hfinal, hreachable⟩ := ih hnext hrest
    rw [hcells] at hanswers hfinal
    rw [run, Cells.run, List.map_cons, hanswers, hbody]
    exact ⟨rfl, hfinal, hreachable⟩

theorem toList_perm_of_cells (h : Sound c s) (h' : Sound c s') (hcells : s.cells = s'.cells)
    (target : Target) : (s.toList target).Perm (s'.toList target) := by
  have hsound := (h target).1
  have hsound' := (h' target).1
  rw [toList_eq, toList_eq, List.perm_ext_iff_of_nodup (LawfulTable.distinct hsound).nodup
    (LawfulTable.distinct hsound').nodup]
  intro r
  rw [← LawfulTable.get?_eq_some_iff hsound, ← LawfulTable.get?_eq_some_iff hsound', ← get?_eq,
    ← get?_eq]
  have hcell : s.get? target r.key = s'.get? target r.key := congrFun hcells (target, r.key)
  rw [hcell]

theorem toList_tree_of_cells (h : Sound c s) (h' : Sound c s') (hcells : s.cells = s'.cells) :
    s.toList .tree = s'.toList .tree := by
  refine List.Perm.eq_of_pairwise ?_ h.sorted h'.sorted (toList_perm_of_cells h h' hcells .tree)
  intro x y _ _ hxy hyx
  exact absurd hyx (String.lt_asymm hxy)

theorem stats_of_cells (h : Sound c s) (h' : Sound c s') (hcells : s.cells = s'.cells) :
    s.stats = s'.stats := by
  have husage (target : Target) : s.usage target = s'.usage target := by
    obtain ⟨hsound, hcapacity⟩ := h target
    obtain ⟨hsound', hcapacity'⟩ := h' target
    have hof (s : Store) : s.usage target = .ofTable (s.table target) := by cases target <;> rfl
    have hperm := toList_perm_of_cells h h' hcells target
    rw [toList_eq, toList_eq] at hperm
    have hsize : Table.size (s.table target) = Table.size (s'.table target) := by
      rw [LawfulTable.size_eq hsound, LawfulTable.size_eq hsound', hperm.length_eq]
    rw [hof, hof, Usage.ofTable, Usage.ofTable, Table.remaining, Table.remaining, hsize, hcapacity,
      hcapacity']
  rw [stats, stats, husage, husage, husage]

/-- A batch may be executed in any order that keeps the requests for each cell in theirs, if each
table has room for all requests that set. Then no table is found full, each request gets one and the
same answer, and the store has the same records and stats afterwards. -/
theorem schedule_irrelevant (h : Reachable c s) (hroom : s.RoomFor batch) (o o' : Schedule batch) :
    ((s.run o.turns).1.map (·.1)).Perm (List.range batch.length) ∧
      (∀ n r r', (n, r) ∈ (s.run o.turns).1 → (n, r') ∈ (s.run o'.turns).1 → r.body = r'.body) ∧
      (∀ answered ∈ (s.run o.turns).1, answered.2.status ≠ .full) ∧
      (s.run o.turns).2.toList .tree = (s.run o'.turns).2.toList .tree ∧
      (∀ target, ((s.run o.turns).2.toList target).Perm ((s.run o'.turns).2.toList target)) ∧
      (s.run o.turns).2.stats = (s.run o'.turns).2.stats := by
  have hroomFor (o : Schedule batch) : s.RoomFor (o.turns.map (·.1)) :=
    hroom.perm o.requests_perm.symm
  have hnumbers : ((s.run o.turns).1.map (·.1)).Perm (List.range batch.length) := by
    rw [run_numbers]
    exact o.numbers_perm
  obtain ⟨hbodies, hcells, hreachable⟩ := run_of_room h (hroomFor o)
  obtain ⟨hbodies', hcells', hreachable'⟩ := run_of_room h (hroomFor o')
  obtain ⟨hanswers, hfinal⟩ :=
    s.cells.run_perm (o.complete.trans o'.complete.symm) o.inTurn o'.inTurn
  rw [← hcells, ← hcells'] at hfinal
  have hsound := hreachable.sound
  have hsound' := hreachable'.sound
  refine ⟨hnumbers, ?_, ?_, toList_tree_of_cells hsound hsound' hfinal,
    toList_perm_of_cells hsound hsound' hfinal, stats_of_cells hsound hsound' hfinal⟩
  · intro n r r' hr hr'
    have hmem : (n, r.body) ∈ (s.cells.run o.turns).1 := by
      rw [← hbodies]
      exact List.mem_map_of_mem hr
    have hmem' : (n, r'.body) ∈ (s.cells.run o.turns).1 := by
      rw [hanswers.mem_iff, ← hbodies']
      exact List.mem_map_of_mem hr'
    have hdistinct : ((s.cells.run o.turns).1.map (·.1)).Nodup := by
      rw [← hbodies, List.map_map]
      exact hnumbers.nodup_iff.mpr List.nodup_range
    exact congrArg (·.2) (List.inj_on_of_nodup_map hdistinct hmem hmem' rfl)
  · intro answered hanswered
    apply s.cells.run_ne_full o.turns (answered.1, answered.2.body)
    rw [← hbodies]
    exact List.mem_map_of_mem hanswered

/-- A batch of three requests in its own order, and with the last one first. -/
theorem schedule_irrelevant_of_three :
    let set (key value : String) : Request := ⟨"SET", some key, some value, none⟩
    let batch := [set "a" "1", .ofKey "DEL" "a", set "b" "2"]
    ∃ s, Reachable (.uniform 2) s ∧ s.RoomFor batch ∧ ∃ o o' : Schedule batch,
      o.turns.map (·.2) = [0, 1, 2] ∧ o'.turns.map (·.2) = [2, 0, 1] ∧
        ((s.run o.turns).2.toList .array).Perm ((s.run o'.turns).2.toList .array) := by
  intro set batch
  have hnew : ofConfig (.uniform 2) = .ok ⟨.empty 2, .empty 2 2, .empty 2⟩ := rfl
  obtain ⟨s, h, hroom⟩ : ∃ s, Reachable (.uniform 2) s ∧ s.RoomFor batch :=
    ⟨_, .new hnew, fun target => by cases target <;> decide +kernel⟩
  let o : Schedule batch := ⟨batch.zipIdx, .refl _, by decide +kernel⟩
  let o' : Schedule batch :=
    ⟨[(set "b" "2", 2), (set "a" "1", 0), (.ofKey "DEL" "a", 1)], by decide +kernel,
      by decide +kernel⟩
  obtain ⟨-, -, -, -, hlists, -⟩ := schedule_irrelevant h hroom o o'
  exact ⟨s, h, hroom, o, o', rfl, rfl, hlists .array⟩

end Store

end TriStore
