import TriStore.Proofs.Precedence
import TriStore.Proofs.Scan

/-!
# Listings of a store that changes

Between the pages of a listing the store may change. In the tree the order of the keys is the order
of the listing, so what happens to other keys, or to the one where a call resumes, does not matter. In
the other tables records keep their order as long as they stay: in the array whatever happens to
others, in the hash table as long as nothing is taken out. A record that stays then keeps its side of
every resume key that stays, and so it is found once.
-/

namespace TriStore

theorem Nested.precedes {records others : List Record} {x y : String}
    (h : Nested records others) (hdistinct : DistinctKeys records)
    (hx : x ∈ others.map (·.key)) (hy : y ∈ others.map (·.key))
    (hxy : Precedes (records.map (·.key)) x y) : Precedes (others.map (·.key)) x y := by
  rcases h with hsub | hsub
  · exact List.Sublist.trans hxy hsub
  · rcases precedes_total (hsub.nodup hdistinct) hx hy (hxy.ne hdistinct) with hxy' | hyx
    · exact hxy'
    · exact absurd (List.Sublist.trans hyx hsub) (hxy.asymm hdistinct)

namespace Store
variable {c : Config} {s : Store} {target : Target}

/-- A relation between the store before and after that holds of each of some actions. -/
def Along (P : Store → Store → Prop) : Store → List Action → Prop
  | _, [] => True
  | s, a :: actions => P s (s.act a) ∧ Along P (s.act a) actions

instance Along.decide (P : Store → Store → Prop) [∀ s s', Decidable (P s s')] :
    (s : Store) → (actions : List Action) → Decidable (Along P s actions)
  | _, [] => isTrue trivial
  | s, a :: actions =>
    have := Along.decide P (s.act a) actions
    inferInstanceAs (Decidable (P s (s.act a) ∧ Along P (s.act a) actions))

def Keeps (target : Target) (key : String) : Store → List Action → Prop :=
  Along fun s s' => key ∈ s.keys target → key ∈ s'.keys target

instance (key : String) (actions : List Action) : Decidable (Keeps target key s actions) :=
  inferInstanceAs (Decidable (Along _ s actions))

def Steady (target : Target) : Store → List Action → Prop :=
  Along fun s s' => Nested (s.toList target) (s'.toList target)

theorem Along.of_forall {P : Store → Store → Prop} {actions : List Action} (h : Reachable c s)
    (hP : ∀ s, Reachable c s → ∀ a ∈ actions, P s (s.act a)) : Along P s actions := by
  induction actions generalizing s with
  | nil => trivial
  | cons a actions ih =>
    refine ⟨hP s h a List.mem_cons_self, ih (h.act a) fun s' hs' b hb => ?_⟩
    exact hP s' hs' b (List.mem_cons_of_mem _ hb)

theorem Reachable.acts (h : Reachable c s) (actions : List Action) :
    Reachable c (s.acts actions) := by
  induction actions generalizing s with
  | nil => exact h
  | cons a actions ih => exact ih (h.act a)

theorem Keeps.mem {key : String} {actions : List Action} (h : Keeps target key s actions)
    (hkey : key ∈ s.keys target) : key ∈ (s.acts actions).keys target := by
  induction actions generalizing s with
  | nil => exact hkey
  | cons a actions ih => exact ih h.2 (h.1 hkey)

theorem Steady.precedes {x y : String} {actions : List Action} (hs : Reachable c s)
    (h : Steady target s actions) (hx : Keeps target x s actions) (hy : Keeps target y s actions)
    (hxy : Precedes (s.keys target) x y) : Precedes ((s.acts actions).keys target) x y := by
  induction actions generalizing s with
  | nil => exact hxy
  | cons a actions ih =>
    apply ih (hs.act a) h.2 hx.2 hy.2
    exact h.1.precedes (hs.sound.distinct target) (hx.1 hxy.mem_left) (hy.1 hxy.mem_right) hxy

def keysRead (visits : List Visit) : List String := (pages visits).flatten.map (·.key)

theorem keysRead_cons (v : Visit) (visits : List Visit) :
    keysRead (v :: visits) = v.page.map (·.key) ++ keysRead visits := by
  rw [keysRead, pages, List.map_cons, List.flatten_cons, List.map_append]
  rfl

/-- The first call reads the empty page and is the last one, or the others resume after its last
record. -/
theorem browse_cases {after : Option String} {turn : Turn} {turns : List Turn}
    (hended : Ended (pages (s.browse target after (turn :: turns)))) :
    (s.scan target after turn.limit = [] ∧ keysRead (s.browse target after (turn :: turns)) = []) ∨
      ∃ init r, s.scan target after turn.limit = init ++ [r] ∧
        s.browse target after (turn :: turns) = ⟨s, init ++ [r], turn.actions⟩ ::
          (s.acts turn.actions).browse target (some r.key) turns ∧
        Ended (pages ((s.acts turn.actions).browse target (some r.key) turns)) := by
  rcases List.eq_nil_or_concat (s.scan target after turn.limit) with hnil | ⟨init, r, hconcat⟩
  · left
    rw [browse, hnil, pages, List.map_cons] at hended
    rw [browse, hnil, keysRead_cons]
    generalize browse _ _ _ turns = visits at hended ⊢
    rcases ended_cons.mp hended with ⟨-, hnone⟩ | ⟨hne, -⟩
    · obtain rfl := List.map_eq_nil_iff.mp hnone
      exact ⟨rfl, rfl⟩
    · exact absurd rfl hne
  · right
    rw [List.concat_eq_append] at hconcat
    have hlast : (s.scan target after turn.limit).getLast?.map (·.key) = some r.key := by
      rw [hconcat, List.getLast?_concat, Option.map_some]
    rw [browse, hlast, hconcat] at hended ⊢
    have hne : init ++ [r] ≠ [] := List.concat_ne_nil r init
    exact ⟨init, r, rfl, rfl, ((ended_cons.mp hended).resolve_left fun h => hne h.1).2⟩

theorem remainder_of_scan_nil (h : Sound c s) {after : Option String} {limit : Nat}
    (hlimit : 1 ≤ limit) (hpage : s.scan target after limit = []) :
    s.remainder target after = [] := by
  rw [scan_eq h, List.take_eq_nil_iff] at hpage
  rcases hpage with hzero | hnil
  · omega
  · exact hnil

theorem remainder_sublist (s : Store) (target : Target) (after : Option String) :
    (s.remainder target after).Sublist (s.toList target) := by
  have hfollowing (key : String) (records : List Record) :
      (following key records).Sublist records :=
    (List.drop_sublist _ _).trans (List.dropWhile_sublist _)
  cases after with
  | none => exact List.Sublist.refl _
  | some key =>
    cases target with
    | array => exact hfollowing key _
    | hash => exact hfollowing key _
    | tree => exact List.filter_sublist

theorem remainder_nodup (h : Sound c s) (target : Target) (after : Option String) :
    ((s.remainder target after).map (·.key)).Nodup :=
  List.Sublist.nodup ((remainder_sublist s target after).map _) (h.distinct target)

theorem scan_sublist (h : Sound c s) (target : Target) (after : Option String) (limit : Nat) :
    (s.scan target after limit).Sublist (s.toList target) := by
  rw [scan_eq h]
  exact (List.take_sublist _ _).trans (remainder_sublist s target after)

theorem mem_keys_iff {key : String} :
    key ∈ s.keys target ↔ ∃ before r after, s.toList target = before ++ r :: after ∧ r.key = key := by
  constructor
  · intro hkey
    obtain ⟨r, hr, rfl⟩ := List.mem_map.mp hkey
    obtain ⟨before, after, hsplit⟩ := List.append_of_mem hr
    exact ⟨before, r, after, hsplit, rfl⟩
  · rintro ⟨before, r, after, hsplit, rfl⟩
    rw [keys, hsplit]
    exact List.mem_map_of_mem (List.mem_append_right _ List.mem_cons_self)

theorem exists_done (h : Sound c s) {after : Option String}
    (hafter : ∀ key ∈ after, key ∈ s.keys target) :
    ∃ done, s.toList target = done ++ s.remainder target after := by
  cases after with
  | none => exact ⟨[], rfl⟩
  | some key =>
    obtain ⟨before, r, rest, hsplit, rfl⟩ := mem_keys_iff.mp (hafter key rfl)
    refine ⟨before ++ [r], ?_⟩
    rw [remainder_split h hsplit, List.append_assoc, List.singleton_append]
    exact hsplit

/-- What follows a key of the table is what the key precedes. -/
theorem mem_remainder_iff (h : Sound c s) {key x : String} (hkey : key ∈ s.keys target) :
    x ∈ (s.remainder target (some key)).map (·.key) ↔ Precedes (s.keys target) key x := by
  have hdistinct : (s.keys target).Nodup := h.distinct target
  obtain ⟨before, r, rest, hsplit, rfl⟩ := mem_keys_iff.mp hkey
  rw [remainder_split h hsplit]
  rw [keys, hsplit, List.map_append, List.map_cons] at hdistinct ⊢
  exact (precedes_iff_after hdistinct).symm

/-- A record that stays follows the resume key just if it did when the page was read. -/
theorem count_remainder_acts (h : Reachable c s) {actions : List Action} {r : Record}
    {before rest : List Record} {x : String} (hsplit : s.toList target = before ++ r :: rest)
    (hsteady : Steady target s actions) (hr : Keeps target r.key s actions)
    (hx : Keeps target x s actions) (hmem : x ∈ s.keys target) :
    (((s.acts actions).remainder target (some r.key)).map (·.key)).count x =
      (rest.map (·.key)).count x := by
  have hkeys : s.keys target = before.map (·.key) ++ r.key :: rest.map (·.key) := by
    rw [keys, hsplit, List.map_append, List.map_cons]
  have hsound := (h.acts actions).sound
  have hdistinct : (s.keys target).Nodup := h.sound.distinct target
  have hdistinct' : ((s.acts actions).keys target).Nodup := hsound.distinct target
  have hrmem : r.key ∈ (s.acts actions).keys target :=
    hr.mem (mem_keys_iff.mpr ⟨before, r, rest, hsplit, rfl⟩)
  have hiff : x ∈ ((s.acts actions).remainder target (some r.key)).map (·.key) ↔
      x ∈ rest.map (·.key) := by
    rw [mem_remainder_iff hsound hrmem]
    have hbefore := precedes_iff_before (x := x) (hkeys ▸ hdistinct)
    have hafter := precedes_iff_after (y := x) (hkeys ▸ hdistinct)
    rw [← hkeys] at hbefore hafter
    constructor
    · intro hrx
      rw [hkeys, List.mem_append, List.mem_cons] at hmem
      rcases hmem with hxr | rfl | hxrest
      · exact absurd (hsteady.precedes h hx hr (hbefore.mpr hxr)) (hrx.asymm hdistinct')
      · exact absurd rfl (hrx.ne hdistinct')
      · exact hxrest
    · intro hxrest
      exact hsteady.precedes h hr hx (hafter.mpr hxrest)
  have hrest : (rest.map (·.key)).Nodup := by
    rw [hkeys] at hdistinct
    exact (List.nodup_cons.mp (List.nodup_append.mp hdistinct).2.1).2
  rw [(remainder_nodup hsound target (some r.key)).count, hrest.count]
  simp only [hiff]

/-- Between the visits the records that stay keep their order, and the key where the next call
resumes stays. -/
structure Undisturbed (target : Target) (visits : List Visit) : Prop where
  steady : ∀ v ∈ visits, Steady target v.store v.actions
  resumed : ∀ v ∈ visits, ∀ r ∈ v.page.getLast?, Keeps target r.key v.store v.actions

theorem Undisturbed.tail {v : Visit} {visits : List Visit}
    (h : Undisturbed target (v :: visits)) : Undisturbed target visits where
  steady w hw := h.steady w (List.mem_cons_of_mem _ hw)
  resumed w hw := h.resumed w (List.mem_cons_of_mem _ hw)

/-- A record that is never taken out is read once if it is still to come, not at all if it is behind,
and at most once if it is not there yet. -/
theorem count_keysRead (h : Reachable c s) {turns : List Turn}
    (hlimit : ∀ turn ∈ turns, 1 ≤ turn.limit) {after : Option String}
    (hended : Ended (pages (s.browse target after turns)))
    (hquiet : Undisturbed target (s.browse target after turns))
    (hafter : ∀ key ∈ after, key ∈ s.keys target) {x : String}
    (hx : ∀ v ∈ s.browse target after turns, Keeps target x v.store v.actions) :
    (x ∈ s.keys target → (keysRead (s.browse target after turns)).count x =
        ((s.remainder target after).map (·.key)).count x) ∧
      (keysRead (s.browse target after turns)).count x ≤ 1 := by
  induction turns generalizing s after with
  | nil => cases hended
  | cons turn turns ih =>
    have hsound := h.sound
    rcases browse_cases hended with ⟨hpage, hread⟩ | ⟨init, r, hpage, hbrowse, hrest⟩
    · rw [hread, remainder_of_scan_nil hsound (hlimit turn List.mem_cons_self) hpage]
      exact ⟨fun _ => rfl, Nat.zero_le 1⟩
    · obtain ⟨done, hdone⟩ := exists_done hsound hafter
      obtain ⟨hcut, -⟩ := remainder_resumed hsound hdone hpage
      have hfront := remainder_eq_of_scan hsound hpage
      generalize (s.remainder target after).drop turn.limit = rest at hcut hfront
      rw [hbrowse] at hquiet hx ⊢
      have hsteady := hquiet.steady _ List.mem_cons_self
      have hr : Keeps target r.key s turn.actions :=
        hquiet.resumed _ List.mem_cons_self r List.getLast?_concat
      have hstays : Keeps target x s turn.actions := hx _ List.mem_cons_self
      have hrmem : r.key ∈ s.keys target := mem_keys_iff.mpr ⟨_, r, _, hcut, rfl⟩
      obtain ⟨hcount, hle⟩ := ih (h.acts turn.actions)
        (fun t ht => hlimit t (List.mem_cons_of_mem _ ht)) hrest hquiet.tail
        (fun key hkey => Option.some.inj hkey ▸ hr.mem hrmem)
        (fun v hv => hx v (List.mem_cons_of_mem _ hv))
      -- read on this page, or as often as it follows the page's last record
      have hnow : x ∈ s.keys target → (keysRead (⟨s, init ++ [r], turn.actions⟩ ::
          (s.acts turn.actions).browse target (some r.key) turns)).count x =
          ((s.remainder target after).map (·.key)).count x := by
        intro hmem
        rw [keysRead_cons, List.count_append, hcount (hstays.mem hmem),
          count_remainder_acts h hcut hsteady hr hstays hmem, ← List.count_append,
          ← List.map_append, hfront, List.append_assoc, List.singleton_append]
      refine ⟨hnow, ?_⟩
      by_cases hmem : x ∈ s.keys target
      · rw [hnow hmem, (remainder_nodup hsound target after).count]
        split <;> omega
      · -- it is put in after this page, behind the resume key or ahead of it
        have habsent : x ∉ (init ++ [r]).map (·.key) := by
          rw [← hpage]
          exact fun hread => hmem (((scan_sublist hsound target after _).map _).subset hread)
        rw [keysRead_cons, List.count_append, List.count_eq_zero_of_not_mem habsent, Nat.zero_add]
        exact hle

/-- A page of the tree ascends to its last key, and what it leaves over is beyond. -/
theorem page_tree (h : Sound c s) {after : Option String} {limit : Nat} {init : List Record}
    {r : Record} (hpage : s.scan .tree after limit = init ++ [r]) :
    ((init ++ [r]).map (·.key)).Pairwise (· < ·) ∧
      (∀ x ∈ (init ++ [r]).map (·.key), ∀ y, r.key < y → x < y) ∧
      ∀ q ∈ s.remainder .tree after, q ∈ init ++ [r] ∨ r.key < q.key := by
  have hsorted : (s.remainder .tree after).Pairwise fun x y => x.key < y.key :=
    h.sorted.sublist (remainder_sublist s .tree after)
  have hfront := remainder_eq_of_scan h hpage
  rw [List.append_cons] at hfront
  rw [hfront] at hsorted ⊢
  obtain ⟨hread, -, hleft⟩ := List.pairwise_append.mp hsorted
  have hlast : r ∈ init ++ [r] := List.mem_append_right _ (List.mem_singleton.mpr rfl)
  refine ⟨List.pairwise_map.mpr hread, ?_, ?_⟩
  · intro x hx y hy
    obtain ⟨q, hq, rfl⟩ := List.mem_map.mp hx
    rcases List.mem_append.mp hq with hq | hq
    · have hqr : q.key < r.key :=
        (List.pairwise_append.mp hread).2.2 q hq r (List.mem_singleton.mpr rfl)
      exact String.lt_trans hqr hy
    · obtain rfl := List.mem_singleton.mp hq
      exact hy
  · intro q hq
    rcases List.mem_append.mp hq with hq | hq
    · exact Or.inl hq
    · exact Or.inr (hleft r hlast q hq)

theorem mem_remainder_tree (s : Store) {after : Option String} {q : Record} :
    q ∈ s.remainder .tree after ↔ q ∈ s.toList .tree ∧ ∀ key ∈ after, key < q.key := by
  cases after with
  | none => exact ⟨fun hq => ⟨hq, nofun⟩, fun hq => hq.1⟩
  | some key =>
    rw [remainder, List.mem_filter, decide_eq_true_iff]
    constructor
    · rintro ⟨hq, hlt⟩
      exact ⟨hq, fun other hother => Option.some.inj hother ▸ hlt⟩
    · rintro ⟨hq, hbeyond⟩
      exact ⟨hq, hbeyond key rfl⟩

/-- In the tree the keys read ascend, beyond the key where the first call resumes. -/
theorem keysRead_tree_sorted (h : Reachable c s) {turns : List Turn} {after : Option String}
    (hended : Ended (pages (s.browse .tree after turns))) :
    (keysRead (s.browse .tree after turns)).Pairwise (· < ·) ∧
      ∀ key ∈ after, ∀ x ∈ keysRead (s.browse .tree after turns), key < x := by
  induction turns generalizing s after with
  | nil => cases hended
  | cons turn turns ih =>
    rcases browse_cases hended with ⟨-, hread⟩ | ⟨init, r, hpage, hbrowse, hrest⟩
    · rw [hread]
      exact ⟨.nil, fun key _ x hx => absurd hx List.not_mem_nil⟩
    · obtain ⟨hsorted, hbeyond⟩ := ih (h.acts turn.actions) hrest
      have hr := hbeyond r.key rfl
      obtain ⟨hascends, hupto, -⟩ := page_tree h.sound hpage
      rw [hbrowse, keysRead_cons]
      constructor
      · refine List.pairwise_append.mpr ⟨hascends, hsorted, ?_⟩
        intro x hx y hy
        exact hupto x hx y (hr y hy)
      · intro key hkey
        have hbound : ∀ q ∈ init ++ [r], key < q.key := by
          intro q hq
          have hmem : q ∈ s.remainder .tree after := by
            rw [remainder_eq_of_scan h.sound hpage, List.append_cons]
            exact List.mem_append_left _ hq
          exact ((mem_remainder_tree s).mp hmem).2 key hkey
        intro x hx
        rcases List.mem_append.mp hx with hx | hx
        · obtain ⟨q, hq, rfl⟩ := List.mem_map.mp hx
          exact hbound q hq
        · have hrbound := hbound r (List.mem_append_right _ (List.mem_singleton.mpr rfl))
          exact String.lt_trans hrbound (hr x hx)

theorem mem_keysRead_tree (h : Reachable c s) {turns : List Turn}
    (hlimit : ∀ turn ∈ turns, 1 ≤ turn.limit) {after : Option String}
    (hended : Ended (pages (s.browse .tree after turns))) {x : String}
    (hx : ∀ v ∈ s.browse .tree after turns, x ∈ v.store.keys .tree)
    (hafter : ∀ key ∈ after, key < x) : x ∈ keysRead (s.browse .tree after turns) := by
  induction turns generalizing s after with
  | nil => cases hended
  | cons turn turns ih =>
    have hmem : x ∈ s.keys .tree := hx _ List.mem_cons_self
    obtain ⟨q, hq, rfl⟩ := List.mem_map.mp hmem
    have hqleft : q ∈ s.remainder .tree after := (mem_remainder_tree s).mpr ⟨hq, hafter⟩
    rcases browse_cases hended with ⟨hpage, -⟩ | ⟨init, r, hpage, hbrowse, hrest⟩
    · rw [remainder_of_scan_nil h.sound (hlimit turn List.mem_cons_self) hpage] at hqleft
      exact absurd hqleft List.not_mem_nil
    · obtain ⟨-, -, hleft⟩ := page_tree h.sound hpage
      rw [hbrowse] at hx ⊢
      rw [keysRead_cons, List.mem_append]
      rcases hleft q hqleft with hread | hbeyond
      · exact Or.inl (List.mem_map_of_mem hread)
      · right
        exact ih (h.acts turn.actions) (fun t ht => hlimit t (List.mem_cons_of_mem _ ht)) hrest
          (fun v hv => hx v (List.mem_cons_of_mem _ hv))
          (fun key hkey => Option.some.inj hkey ▸ hbeyond)

theorem nested_act_array (s : Store) (a : Action) :
    Nested (s.toList .array) ((s.act a).toList .array) := by
  rw [toList_eq, toList_eq]
  by_cases hcall : ∃ call, a.call? = some (.array, call)
  · obtain ⟨call, hcall⟩ := hcall
    rw [table_act s hcall]
    exact SlotTable.nested_perform s.array call
  · rw [table_act_of_ne s fun call h => hcall ⟨call, h⟩]
    exact Or.inl (List.Sublist.refl _)

theorem sublist_act_hash (h : Sound c s) {a : Action}
    (ha : ∀ called ∈ a.call?, called.1 = .hash → called.2.removes = false) :
    (s.keys .hash).Sublist ((s.act a).keys .hash) := by
  rw [keys, keys, toList_eq, toList_eq]
  by_cases hcall : ∃ call, a.call? = some (.hash, call)
  · obtain ⟨call, hcall⟩ := hcall
    rw [table_act s hcall]
    exact ChainTable.sublist_perform (h .hash).1 (ha _ hcall rfl)
  · have htable := table_act_of_ne s fun call h => hcall ⟨call, h⟩
    exact htable ▸ List.Sublist.refl _

theorem reachable_of_mem_browse (h : Reachable c s) {after : Option String} {turns : List Turn}
    {v : Visit} (hv : v ∈ s.browse target after turns) :
    Reachable c v.store ∧ ∃ turn ∈ turns, v.actions = turn.actions := by
  induction turns generalizing s after with
  | nil => cases hv
  | cons turn turns ih =>
    rcases List.mem_cons.mp hv with rfl | hv
    · exact ⟨h, turn, List.mem_cons_self, rfl⟩
    · obtain ⟨hreachable, t, ht, hactions⟩ := ih (h.acts turn.actions) hv
      exact ⟨hreachable, t, List.mem_cons_of_mem _ ht, hactions⟩

/-- A listing of a store that changes between the calls, read up to an empty page. In the tree the
keys ascend, and a key that is there at every call is read exactly once. The same law holds in the
array of records that are never taken out, if the keys where calls resume stay until they do, and in
the hash table if nothing is taken out. -/
theorem paging_complete (h : Reachable c s) (turns : List Turn)
    (hlimit : ∀ turn ∈ turns, 1 ≤ turn.limit) :
    (Ended (pages (s.browse .tree none turns)) →
      (keysRead (s.browse .tree none turns)).Pairwise (· < ·) ∧
        ∀ key, (∀ v ∈ s.browse .tree none turns, key ∈ v.store.keys .tree) →
          (keysRead (s.browse .tree none turns)).count key = 1) ∧
      (Ended (pages (s.browse .array none turns)) →
        (∀ v ∈ s.browse .array none turns, ∀ r ∈ v.page.getLast?,
          Keeps .array r.key v.store v.actions) →
        ∀ key, (∀ v ∈ s.browse .array none turns, Keeps .array key v.store v.actions) →
          (keysRead (s.browse .array none turns)).count key ≤ 1 ∧
            (key ∈ s.keys .array → (keysRead (s.browse .array none turns)).count key = 1)) ∧
      (Ended (pages (s.browse .hash none turns)) →
        (∀ turn ∈ turns, ∀ a ∈ turn.actions, ∀ called ∈ a.call?,
          called.1 = .hash → called.2.removes = false) →
        ∀ key, (keysRead (s.browse .hash none turns)).count key ≤ 1 ∧
          (key ∈ s.keys .hash → (keysRead (s.browse .hash none turns)).count key = 1)) := by
  have hstart (target : Target) : ∀ key ∈ (none : Option String), key ∈ s.keys target := nofun
  have hpresent {target : Target} {key : String} (hkey : key ∈ s.keys target) :
      ((s.remainder target none).map (·.key)).count key = 1 := by
    rw [(remainder_nodup h.sound target none).count]
    exact if_pos hkey
  refine ⟨fun hended => ?_, fun hended hresumed key hstays => ?_, fun hended hadds key => ?_⟩
  · obtain ⟨hsorted, -⟩ := keysRead_tree_sorted h hended
    refine ⟨hsorted, fun key hkey => ?_⟩
    have hmem := mem_keysRead_tree h hlimit hended hkey nofun
    rw [List.Nodup.count (hsorted.imp String.ne_of_lt), if_pos hmem]
  · have hsteady : ∀ v ∈ s.browse .array none turns, Steady .array v.store v.actions := by
      intro v hv
      exact Along.of_forall (reachable_of_mem_browse h hv).1 fun s _ a _ => nested_act_array s a
    obtain ⟨hcount, hle⟩ := count_keysRead h hlimit hended ⟨hsteady, hresumed⟩ (hstart .array) hstays
    exact ⟨hle, fun hkey => (hcount hkey).trans (hpresent hkey)⟩
  · have hgrows {P : Store → Store → Prop} (hP : ∀ s s' : Store,
        (s.keys .hash).Sublist (s'.keys .hash) → P s s') :
        ∀ v ∈ s.browse .hash none turns, Along P v.store v.actions := by
      intro v hv
      obtain ⟨hreachable, turn, hturn, hactions⟩ := reachable_of_mem_browse h hv
      refine Along.of_forall hreachable fun s hs a ha => hP _ _ ?_
      exact sublist_act_hash hs.sound (hadds turn hturn a (hactions ▸ ha))
    have hsteady : ∀ v ∈ s.browse .hash none turns, Steady .hash v.store v.actions :=
      hgrows fun s s' hsub => Or.inl hsub
    have hkeeps (key : String) : ∀ v ∈ s.browse .hash none turns, Keeps .hash key v.store v.actions :=
      hgrows fun s s' hsub hkey => hsub.subset hkey
    obtain ⟨hcount, hle⟩ := count_keysRead h hlimit hended
      ⟨hsteady, fun v hv r _ => hkeeps r.key v hv⟩ (hstart .hash) (hkeeps key)
    exact ⟨hle, fun hkey => (hcount hkey).trans (hpresent hkey)⟩

/-- After the first page of two the tree loses the key where the listing resumes, the array an
earlier one, and each table gets a new record. -/
theorem paging_complete_of_changes : ∃ s, Reachable (.uniform 4) s ∧
    let turns : List Turn := [⟨2, [.erase .tree "b", .insert .tree "c" "3", .erase .array "a",
      .insert .array "c" "3", .insert .hash "c" "3"]⟩, ⟨2, []⟩, ⟨2, []⟩]
    (keysRead (s.browse .tree none turns)).Pairwise (· < ·) ∧
      (keysRead (s.browse .tree none turns)).count "d" = 1 ∧
      (keysRead (s.browse .array none turns)).count "d" = 1 ∧
      (keysRead (s.browse .hash none turns)).count "d" = 1 := by
  have hnew : ofConfig (.uniform 4) = .ok ⟨.empty 4, .empty 4 4, .empty 4⟩ := rfl
  have h := (Reachable.new hnew).acts (Target.all.flatMap fun target =>
    ["a", "b", "d"].map fun key => .insert target key "1")
  refine ⟨_, h, ?_⟩
  intro turns
  obtain ⟨htree, harray, hhash⟩ := paging_complete h turns (by decide)
  obtain ⟨hsorted, hcount⟩ := htree (by decide +kernel)
  exact ⟨hsorted, hcount "d" (by decide +kernel),
    (harray (by decide +kernel) (by decide +kernel) "d" (by decide +kernel)).2 (by decide +kernel),
    (hhash (by decide +kernel) (by decide +kernel) "d").2 (by decide +kernel)⟩

end Store

end TriStore
