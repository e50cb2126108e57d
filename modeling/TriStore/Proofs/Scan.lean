import TriStore.Proofs.Descent
import TriStore.Proofs.Store

/-!
# Listings page by page

A scan gives the first of the records that follow a key. Resumed after the last key of each page it
goes through a table once and in order, because the records that follow the last key of a page are
just those that the pages so far have left over. That holds of the tree by the order of its keys and
of the other tables because no key occurs twice in them.
-/

namespace TriStore

open RedBlack

namespace Store

def keys (s : Store) (target : Target) : List String := (s.toList target).map (·.key)

/-- The records that follow a key: in the tree those of greater keys, in the other tables those after
its record. -/
def remainder (s : Store) (target : Target) : Option String → List Record
  | none => s.toList target
  | some key =>
    match target with
    | .tree => (s.toList .tree).filter (key < ·.key)
    | .array => following key (s.toList .array)
    | .hash => following key (s.toList .hash)

theorem following_split {before after : List Record} {r : Record}
    (h : ∀ x ∈ before, x.key ≠ r.key) : following r.key (before ++ r :: after) = after := by
  rw [following, List.dropWhile_append_of_pos fun x hx => bne_iff_ne.mpr (h x hx),
    List.dropWhile_cons_of_neg (by simp), List.drop_one, List.tail_cons]

theorem following_absent {key : String} {records : List Record} (h : ∀ x ∈ records, x.key ≠ key) :
    following key records = [] := by
  have hrecords : (records ++ []).dropWhile (fun r : Record => r.key != key) = [] :=
    List.dropWhile_append_of_pos fun x hx => bne_iff_ne.mpr (h x hx)
  rw [List.append_nil] at hrecords
  rw [following, hrecords, List.drop_nil]

variable {c : Config} {s : Store} {target : Target}

theorem scan_eq (h : Sound c s) (target : Target) (after : Option String) (limit : Nat) :
    s.scan target after limit = (s.remainder target after).take limit := by
  have htree (bound : Bound) :
      s.tree.toListFrom bound = (s.toList .tree).filter (bound.admits ·.key) :=
    Tree.toListFrom_eq_filter (TreeTable.WellFormed.ordered (h .tree).1) bound
  cases target with
  | array => cases after <;> rfl
  | hash => cases after <;> rfl
  | tree =>
    cases after with
    | none =>
      have hall : (s.toList .tree).filter (Bound.unbounded.admits ·.key) = s.toList .tree :=
        List.filter_eq_self.mpr fun _ _ => rfl
      rw [scan, htree, hall]
      rfl
    | some key =>
      rw [scan, htree]
      rfl

/-- The arena of the tree gives the same pages: the walk along its links ends, and the page is the
first of the records that it passes. -/
theorem scan_tree_eq_range (h : Sound c s) (limit : Nat) :
    some (s.scan .tree none limit) = (s.tree.range .unbounded).map (·.take limit) ∧
      ∀ key, some (s.scan .tree (some key) limit) =
        (s.tree.range (.excluded key)).map (·.take limit) := by
  have htree : s.tree.WellFormed := (h .tree).1
  constructor
  · rw [TreeTable.range_eq htree]
    rfl
  · intro key
    rw [TreeTable.range_eq htree]
    rfl

theorem ne_of_split {before after : List Record} {r : Record}
    (h : DistinctKeys (before ++ r :: after)) : ∀ x ∈ before, x.key ≠ r.key := by
  intro x hx
  rw [DistinctKeys, List.map_append, List.map_cons, List.nodup_append] at h
  exact h.2.2 _ (List.mem_map_of_mem hx) _ List.mem_cons_self

/-- Wherever the listing is cut, what follows the last key before the cut is what stands after it. -/
theorem remainder_split (h : Sound c s) {before after : List Record} {r : Record}
    (hsplit : s.toList target = before ++ r :: after) :
    s.remainder target (some r.key) = after := by
  have hdistinct := h.distinct target
  rw [hsplit] at hdistinct
  cases target with
  | array => rw [remainder, hsplit, following_split (ne_of_split hdistinct)]
  | hash => rw [remainder, hsplit, following_split (ne_of_split hdistinct)]
  | tree =>
    have hsorted := h.sorted
    rw [hsplit, List.pairwise_append, List.pairwise_cons] at hsorted
    obtain ⟨-, ⟨hafter, -⟩, hbefore⟩ := hsorted
    rw [remainder, hsplit, List.filter_append, List.filter_cons]
    have hnone : before.filter (r.key < ·.key) = [] := by
      apply List.filter_eq_nil_iff.mpr
      intro x hx hlt
      exact String.lt_irrefl _
        (String.lt_trans (hbefore x hx r List.mem_cons_self) (of_decide_eq_true hlt))
    have hall : after.filter (r.key < ·.key) = after := by
      apply List.filter_eq_self.mpr
      intro x hx
      exact decide_eq_true (hafter x hx)
    rw [hnone, hall, if_neg (by simp), List.nil_append]

/-- A call in a listing: how many records it asks for, and the actions that follow before the next
call. -/
structure Turn where
  limit : Nat
  actions : List Action

structure Visit where
  store : Store
  page : List Record
  actions : List Action

def acts (s : Store) (actions : List Action) : Store := actions.foldl act s

/-- Calls in turn, each of which resumes after the last record of the page before. -/
def browse (s : Store) (target : Target) (after : Option String) : List Turn → List Visit
  | [] => []
  | turn :: turns =>
    let page := s.scan target after turn.limit
    ⟨s, page, turn.actions⟩ ::
      (s.acts turn.actions).browse target (page.getLast?.map (·.key)) turns

def pages (visits : List Visit) : List (List Record) := visits.map (·.page)

inductive Ended : List (List Record) → Prop where
  | last : Ended [[]]
  | more {page : List Record} {pages : List (List Record)} : page ≠ [] → Ended pages →
      Ended (page :: pages)

theorem ended_cons {page : List Record} {rest : List (List Record)} :
    Ended (page :: rest) ↔ page = [] ∧ rest = [] ∨ page ≠ [] ∧ Ended rest := by
  constructor
  · intro h
    cases h with
    | last => exact Or.inl ⟨rfl, rfl⟩
    | more hpage hrest => exact Or.inr ⟨hpage, hrest⟩
  · rintro (⟨rfl, rfl⟩ | ⟨hpage, hrest⟩)
    · exact .last
    · exact .more hpage hrest

instance Ended.decide : (pages : List (List Record)) → Decidable (Ended pages)
  | [] => isFalse nofun
  | _ :: rest =>
    have := Ended.decide rest
    decidable_of_iff _ ended_cons.symm

theorem length_browse (s : Store) (target : Target) (after : Option String) (turns : List Turn) :
    (s.browse target after turns).length = turns.length := by
  induction turns generalizing s after with
  | nil => rfl
  | cons turn turns ih => rw [browse, List.length_cons, List.length_cons, ih]

theorem remainder_eq_of_scan (h : Sound c s) {after : Option String} {limit : Nat}
    {init : List Record} {r : Record} (hread : s.scan target after limit = init ++ [r]) :
    s.remainder target after = init ++ r :: (s.remainder target after).drop limit := by
  conv => lhs; rw [← List.take_append_drop limit (s.remainder target after)]
  rw [← scan_eq h, hread, List.append_assoc, List.singleton_append]

theorem remainder_resumed (h : Sound c s) {after : Option String} {limit : Nat}
    {done init : List Record} {r : Record}
    (hsplit : s.toList target = done ++ s.remainder target after)
    (hread : s.scan target after limit = init ++ [r]) :
    s.toList target = (done ++ init) ++ r :: (s.remainder target after).drop limit ∧
      s.remainder target (some r.key) = (s.remainder target after).drop limit := by
  have hcut : s.toList target = (done ++ init) ++ r :: (s.remainder target after).drop limit := by
    rw [List.append_assoc, ← remainder_eq_of_scan h hread]
    exact hsplit
  exact ⟨hcut, remainder_split h hcut⟩

theorem pageCount_eq {n limit : Nat} (hlimit : 1 ≤ limit) (hn : 0 < n) :
    (n + limit - 1) / limit = (n - limit + limit - 1) / limit + 1 := by
  have hsum : n + limit - 1 = (n - 1) + limit := by omega
  rw [hsum, Nat.add_div_right _ hlimit]
  rcases Nat.le_total limit n with hle | hle
  · have hrest : n - limit + limit - 1 = n - 1 := by omega
    rw [hrest]
  · rw [Nat.sub_eq_zero_of_le hle, Nat.div_eq_of_lt (by omega), Nat.div_eq_of_lt (by omega)]

/-- A remainder that does not change is read in pages of one limit, and then nothing is left. -/
theorem browse_remainder (h : Sound c s) {limit : Nat} (hlimit : 1 ≤ limit) {after : Option String}
    {done : List Record} (hsplit : s.toList target = done ++ s.remainder target after) {n : Nat}
    (hn : ((s.remainder target after).length + limit - 1) / limit = n) :
    Ended (pages (s.browse target after (List.replicate (n + 1) ⟨limit, []⟩))) ∧
      (pages (s.browse target after (List.replicate (n + 1) ⟨limit, []⟩))).flatten =
        s.remainder target after := by
  -- by induction on the number of pages that are not empty
  induction n generalizing after done with
  | zero =>
    have hlt := (Nat.div_eq_zero_iff_lt hlimit).mp hn
    have hempty : s.remainder target after = [] := List.length_eq_zero_iff.mp (by omega)
    have hpage : s.scan target after limit = [] := by rw [scan_eq h, hempty, List.take_nil]
    have hread : pages (s.browse target after (List.replicate 1 ⟨limit, []⟩)) = [[]] :=
      congrArg (fun page => [page]) hpage
    rw [hread, hempty]
    exact ⟨.last, rfl⟩
  | succ n ih =>
    have hpos : 0 < (s.remainder target after).length := by
      apply Nat.pos_of_ne_zero
      intro hzero
      rw [hzero, Nat.div_eq_of_lt (by omega)] at hn
      cases hn
    have hpage : s.scan target after limit ≠ [] := by
      rw [scan_eq h, ← List.length_pos_iff, List.length_take]
      omega
    obtain ⟨init, r, hread⟩ : ∃ init r, s.scan target after limit = init ++ [r] := by
      rcases List.eq_nil_or_concat (s.scan target after limit) with hnil | ⟨init, r, hconcat⟩
      · exact absurd hnil hpage
      · exact ⟨init, r, hconcat.trans List.concat_eq_append⟩
    obtain ⟨hcut, hleft⟩ := remainder_resumed h hsplit hread
    have hnext : ((s.remainder target (some r.key)).length + limit - 1) / limit = n := by
      rw [pageCount_eq hlimit hpos] at hn
      rw [hleft, List.length_drop]
      exact Nat.succ_inj.mp hn
    have hcut' : s.toList target = (done ++ init ++ [r]) ++ s.remainder target (some r.key) := by
      rw [hleft, List.append_assoc _ [r], List.singleton_append]
      exact hcut
    obtain ⟨hended, hflatten⟩ := ih hcut' hnext
    have hlast : (s.scan target after limit).getLast?.map (·.key) = some r.key := by
      rw [hread, List.getLast?_concat, Option.map_some]
    have hreads : pages (s.browse target after (List.replicate (n + 1 + 1) ⟨limit, []⟩)) =
        s.scan target after limit ::
          pages (s.browse target (some r.key) (List.replicate (n + 1) ⟨limit, []⟩)) := by
      rw [← hlast]
      rfl
    rw [hreads, List.flatten_cons, hflatten, hleft]
    refine ⟨.more hpage hended, ?_⟩
    rw [scan_eq h, List.take_append_drop]

/-- A scan gives the first records of the listing, or the first after a key: in the tree of those
with greater keys, whether or not the key is there, in the other tables of those after its record, if
there is one. Pages of one limit, read from a store that does not change until one is empty, are the
listing cut into pieces. -/
theorem scan_pages (h : Reachable c s) (target : Target) :
    (∀ limit, s.scan target none limit = (s.toList target).take limit) ∧
      (∀ key limit, s.scan .tree (some key) limit =
        ((s.toList .tree).filter (key < ·.key)).take limit) ∧
      (target ≠ .tree → ∀ key limit,
        (key ∉ s.keys target → s.scan target (some key) limit = []) ∧
          ∀ before r after, s.toList target = before ++ r :: after → r.key = key →
            s.scan target (some key) limit = after.take limit) ∧
      DistinctKeys (s.toList target) ∧
      ∀ limit, 1 ≤ limit →
        let calls := ((s.toList target).length + limit - 1) / limit + 1
        let read := pages (s.browse target none (List.replicate calls ⟨limit, []⟩))
        read.length = calls ∧ Ended read ∧ read.flatten = s.toList target := by
  have hsound := h.sound
  refine ⟨scan_eq hsound target none, fun key => scan_eq hsound .tree (some key), ?_,
    hsound.distinct target, ?_⟩
  · intro htarget key limit
    constructor
    · intro habsent
      have hne : ∀ x ∈ s.toList target, x.key ≠ key := fun x hx hkey =>
        habsent (hkey ▸ List.mem_map_of_mem hx)
      rw [scan_eq hsound]
      cases target with
      | array => rw [remainder, following_absent hne, List.take_nil]
      | hash => rw [remainder, following_absent hne, List.take_nil]
      | tree => exact absurd rfl htarget
    · rintro before r after hsplit rfl
      rw [scan_eq hsound, remainder_split hsound hsplit]
  · intro limit hlimit calls read
    have hstart : s.toList target = [] ++ s.remainder target none := rfl
    refine ⟨?_, browse_remainder hsound hlimit hstart rfl⟩
    change (pages (s.browse target none (List.replicate calls ⟨limit, []⟩))).length = calls
    rw [pages, List.length_map, length_browse, List.length_replicate]

/-- Three records of an array, two to a page. -/
theorem scan_pages_of_three : ∃ s, Reachable (.uniform 3) s ∧
    Ended (pages (s.browse .array none (List.replicate 3 ⟨2, []⟩))) ∧
    (pages (s.browse .array none (List.replicate 3 ⟨2, []⟩))).flatten =
      [⟨"b", "1"⟩, ⟨"a", "2"⟩, ⟨"c", "3"⟩] := by
  have hnew : ofConfig (.uniform 3) = .ok ⟨.empty 3, .empty 3 3, .empty 3⟩ := rfl
  obtain ⟨s, h, hlist⟩ : ∃ s, Reachable (.uniform 3) s ∧
      s.toList .array = [⟨"b", "1"⟩, ⟨"a", "2"⟩, ⟨"c", "3"⟩] :=
    ⟨_, (((Reachable.new hnew).act (.insert .array "b" "1")).act (.insert .array "a" "2")).act
      (.insert .array "c" "3"), by decide +kernel⟩
  obtain ⟨-, -, -, -, hpages⟩ := scan_pages h .array
  have htwo := hpages 2 (by decide)
  rw [hlist] at htwo
  exact ⟨s, h, htwo.2⟩

end Store

end TriStore
