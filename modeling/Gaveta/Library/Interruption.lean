import Gaveta.Library.Insertion

/-!
Insertions that stop part-way because a changed node cannot be stored, and when the records they
leave are still those of the old tree.
-/

namespace PagedTree

variable {ν κ τ ι : Type} [LinearOrder ι] (key : κ → ι)

/-- An insertion that stops before it is complete.  It stores the nodes it has changed one by one,
from the leaf up, both halves of a cut node first and the node that takes the separator last:
`Stops key order k height tree rest stored` leaves `rest` reachable when the store number `stored`
goes wrong.  The upper half of a node is lost with the store of either half. -/
inductive Stops (order : Nat) (k : κ) :
    (height : Nat) → Tree ν κ height → Tree ν κ height → Nat → Prop
  | whole {height : Nat} {tree grown : Tree ν κ height} {fresh : List ν}
      (inserts : Inserts key order k height tree (.whole grown) fresh) :
      Stops order k height tree grown (2 * fresh.length)
  | cut {height stored : Nat} {tree left right : Tree ν κ height} {separator : κ} {fresh : List ν}
      (inserts : Inserts key order k height tree (.halves left separator right) fresh)
      (half : stored + 2 = 2 * fresh.length ∨ stored + 1 = 2 * fresh.length) :
      Stops order k height tree left stored
  | pass {height stored : Nat} {name : ν} {before : List (Tree ν κ height × κ)}
      {child rest : Tree ν κ height} {after : List (κ × Tree ν κ height)}
      (lower : ∀ pair ∈ before, key pair.2 < key k)
      (upper : ∀ pair ∈ after, key k < key pair.1)
      (below : Stops order k height child rest stored) :
      Stops order k (height + 1) (Branch.plug name before child after)
        (Branch.plug name before rest after) stored

variable {key}
variable {order height stored : Nat} {k : κ} {tree rest : Tree ν κ height}

theorem Stops.label (stops : Stops key order k height tree rest stored) :
    PagedTree.label height rest = PagedTree.label height tree := by
  induction stops with
  | whole inserts => exact inserts.label
  | cut inserts => exact inserts.label
  | pass => simp [PagedTree.label]

theorem Stops.sublist (stops : Stops key order k height tree rest stored)
    (sorted : InOrder key (inorder height tree)) :
    ∃ listed, ListsInsertion key k (inorder height tree) listed ∧
      (inorder height rest).Sublist listed := by
  induction stops with
  | whole inserts => exact ⟨_, inserts.lists sorted, List.Sublist.refl _⟩
  | cut inserts =>
      exact ⟨_, inserts.lists sorted, List.sublist_append_left _ _⟩
  | @pass height stored name before child rest after lower upper below ih =>
      have parts := sorted
      rw [inorder, Branch.interleave_plug] at parts
      have rear := (List.pairwise_append.mp (List.pairwise_append.mp parts).2.1).2.1
      obtain ⟨listed, insertion, sublist⟩ := ih (plug_child_inOrder sorted)
      rw [inorder, inorder, Branch.interleave_plug, Branch.interleave_plug]
      exact ⟨_, insertion.context (front_below parts lower) (back_above rear upper),
        (List.Sublist.refl _).append (sublist.append_right _)⟩

theorem Stops.inOrder (stops : Stops key order k height tree rest stored)
    (sorted : InOrder key (inorder height tree)) : InOrder key (inorder height rest) := by
  obtain ⟨listed, insertion, sublist⟩ := stops.sublist sorted
  exact (insertion.inOrder sorted).sublist sublist

theorem Stops.ne_key (stops : Stops key order k height tree rest stored)
    (sorted : InOrder key (inorder height tree)) :
    ∀ item ∈ inorder height tree, key item.value ≠ key k := by
  obtain ⟨listed, insertion, _⟩ := stops.sublist sorted
  exact insertion.ne_key

/-- The one insertion whose interruption can lose no old record: the key goes above all keys of a
full leaf of two. -/
def LosesOnlyNew (key : κ → ι) (order : Nat) (k : κ) (height : Nat) (tree : Tree ν κ height) :
    Prop :=
  order = 3 ∧ order - 1 ≤ (descend key (key k) height tree).records.length ∧
    ∀ value ∈ (descend key (key k) height tree).records, key value < key k

theorem last_of_append {k : κ} {left front back : List κ}
    (same : left ++ [k] = front ++ k :: back) (outside : k ∉ back) : back = [] ∧ left = front := by
  rcases List.eq_nil_or_concat back with rfl | ⟨middle, last, rfl⟩
  · exact ⟨rfl, List.append_cancel_right same⟩
  · have ends := congrArg List.getLast? same
    simp [List.getLast?_cons] at ends
    exact absurd (by simp [ends]) outside

theorem left_eq_iff {k : κ} {left right front back : List κ}
    (same : left ++ right = front ++ k :: back) (outside : k ∉ back) :
    left = front ++ back ↔ right = [k] := by
  constructor
  · rintro rfl
    rw [List.append_assoc, List.append_cancel_left_eq] at same
    cases back with
    | nil => simpa using same
    | cons head back =>
        simp only [List.cons_append, List.cons.injEq] at same
        exact absurd same.1 fun equal => outside (by simp [equal])
  · rintro rfl
    obtain ⟨rfl, rfl⟩ := last_of_append same outside
    simp

theorem two_records {low high height : Nat} {tree : Tree ν κ (height + 1)} (positive : 0 < low)
    (filled : Filled low low high (height + 1) tree) : 2 ≤ (records (height + 1) tree).length := by
  obtain ⟨name, first, rest⟩ := tree
  have populated := filled.populated positive
  have one : ∀ child ∈ Branch.children (Branch.mk name first rest),
      0 < (records height child).length := by
    intro child member
    obtain ⟨items, value, last⟩ := (populated.child child member).last_record
    rw [records_eq_filterMap, last]
    simp [Item.record?]
  cases rest with
  | nil =>
      have count := filled.1.1
      simp only [List.length_nil] at count
      omega
  | cons pair rest =>
      have left := one first (by simp [Branch.children])
      have right := one pair.2 (by simp [Branch.children])
      simp only [records_branch, Branch.children, List.map_cons, List.flatMap_cons,
        List.length_append]
      omega

theorem Inserts.right_eq_iff {least : Nat} {left right : Tree ν κ height} {separator : κ}
    {fresh : List ν} (three : 3 ≤ order)
    (inserts : Inserts key order k height tree (.halves left separator right) fresh)
    (filled : Filled least ((order - 1) / 2) (order - 1) height tree) :
    records height right = [k] ↔ LosesOnlyNew key order k height tree ∧ fresh.length = 1 := by
  have halves := inserts.filled key filled
  cases inserts with
  | @leafSplit name next new before after left right middle lower upper full cut half =>
      have count := congrArg List.length cut
      have most := filled.2
      simp only [List.length_append, List.length_cons] at full most count
      simp only [records_leaf, LosesOnlyNew, descend, List.length_singleton, and_true]
      constructor
      · intro single
        rw [List.cons.injEq] at single
        rw [single.1, single.2] at cut
        have outside : k ∉ after := fun member => lt_irrefl _ (upper k member)
        obtain ⟨rfl, rfl⟩ := last_of_append cut.symm outside
        simp only [List.length_nil] at full most count
        exact ⟨by omega, by simpa using full, fun value member => lower value (by simpa using member)⟩
      · rintro ⟨rfl, _, below⟩
        obtain rfl : after = [] := by
          refine List.eq_nil_iff_forall_not_mem.mpr fun value member => ?_
          exact lt_asymm (upper value member) (below value (by simp [member]))
        have parts := List.append_inj cut (by simp at full most ⊢; omega)
        exact parts.2.symm
  | @branchSplit height name new before child left right first middleChild separator middle after
      lowRest highRest fresh lower upper below full cut half =>
      have two := two_records (by omega) halves.2
      have run := below.fullRun
      simp only [Outcome.Reaches] at run
      constructor
      · intro single
        simp [single] at two
      · rintro ⟨_, one⟩
        rw [List.length_append, List.length_singleton] at one
        omega

theorem Inserts.fresh_pos {left right : Tree ν κ height} {separator : κ} {fresh : List ν}
    (inserts : Inserts key order k height tree (.halves left separator right) fresh) :
    0 < fresh.length := by
  obtain ⟨count, run⟩ := inserts.fullRun
  simp only [Outcome.Reaches] at run
  omega

/-- An interrupted insertion keeps the records of the old tree only if it loses just its own. -/
theorem Stops.records_eq_iff {least : Nat} (three : 3 ≤ order)
    (stops : Stops key order k height tree rest stored)
    (sorted : InOrder key (inorder height tree))
    (filled : Filled least ((order - 1) / 2) (order - 1) height tree) :
    records height rest = records height tree ↔
      LosesOnlyNew key order k height tree ∧ stored < 2 := by
  induction stops generalizing least with
  | @whole height tree grown fresh inserts =>
      have insertion := inserts.lists sorted
      obtain ⟨front, back, old, new, _, _⟩ := insertion.records
      have run := inserts.fullRun.1
      constructor
      · intro same
        rw [records_eq_filterMap, records_eq_filterMap, old] at same
        have count := congrArg List.length (new.symm.trans same)
        simp at count
      · rintro ⟨⟨_, full, _⟩, few⟩
        have room := (fullRun_eq_zero_iff key (key k) tree).mp (by omega : fullRun key order _ _ _ = 0)
        omega
  | @cut height stored tree left right separator fresh inserts half =>
      have insertion := inserts.lists sorted
      obtain ⟨front, back, old, new, _, above⟩ := insertion.records
      have outside : k ∉ back := fun member => lt_irrefl _ (above k member)
      have parts : records height left ++ records height right = front ++ k :: back := by
        rw [← new, Outcome.inorder, List.filterMap_append, ← records_eq_filterMap,
          List.filterMap_cons, records_eq_filterMap height right]
        rfl
      have fresh := inserts.fresh_pos
      rw [records_eq_filterMap height tree, old, left_eq_iff parts outside,
        inserts.right_eq_iff three filled]
      refine and_congr_right fun _ => ?_
      omega
  | @pass height stored name before child rest after lower upper below ih =>
      have descent := descend_plug key name child lower upper
      rw [LosesOnlyNew, descent, ← LosesOnlyNew,
        ← ih (plug_child_inOrder sorted) (filled.2 child (by simp))]
      simp [records_branch]

def stores (key : κ → ι) (order : Nat) (k : κ) (height : Nat) (tree : Tree ν κ height) : Nat :=
  2 * fullRun key order (key k) height tree +
    if fullRun key order (key k) height tree = height + 1 then 0 else 1

theorem stores_le_plug (name : ν) {before : List (Tree ν κ height × κ)} (child : Tree ν κ height)
    {after : List (κ × Tree ν κ height)} (lower : ∀ pair ∈ before, key pair.2 < key k)
    (upper : ∀ pair ∈ after, key k < key pair.1) :
    stores key order k height child ≤
      stores key order k (height + 1) (Branch.plug name before child after) := by
  rw [stores, stores, fullRun,
    pick_plug key name child (fun pair member => le_of_lt (lower pair member)) upper]
  have bound := @fullRun_le _ _ _ _ key order _ (key k) child
  split_ifs <;> omega

theorem Stops.stored_lt (stops : Stops key order k height tree rest stored) :
    stored < stores key order k height tree := by
  induction stops with
  | whole inserts =>
      obtain ⟨count, reaches⟩ := inserts.fullRun
      simp only [Outcome.Reaches] at reaches
      rw [stores, if_neg (by omega)]
      omega
  | cut inserts half =>
      obtain ⟨count, reaches⟩ := inserts.fullRun
      simp only [Outcome.Reaches] at reaches
      rw [stores, if_pos reaches]
      omega
  | @pass height stored name before child rest after lower upper below ih =>
      exact lt_of_lt_of_le ih (stores_le_plug name child lower upper)

theorem Inserts.stores_whole {grown : Tree ν κ height} {fresh : List ν}
    (inserts : Inserts key order k height tree (.whole grown) fresh) :
    stores key order k height tree = 2 * fresh.length + 1 := by
  obtain ⟨count, reaches⟩ := inserts.fullRun
  simp only [Outcome.Reaches] at reaches
  rw [stores, if_neg (by omega), count]

theorem Inserts.stores_halves {left right : Tree ν κ height} {separator : κ} {fresh : List ν}
    (inserts : Inserts key order k height tree (.halves left separator right) fresh) :
    stores key order k height tree = 2 * fresh.length := by
  obtain ⟨count, reaches⟩ := inserts.fullRun
  simp only [Outcome.Reaches] at reaches
  rw [stores, if_pos reaches, count, Nat.add_zero]

theorem Stops.not_meets (stops : Stops key order k height tree rest stored)
    (sorted : InOrder key (inorder height tree)) : ¬Meets key (key k) height tree := by
  have different := stops.ne_key sorted
  rintro (meets | ⟨value, member, same⟩)
  · obtain ⟨separator, member, same⟩ := (meetsSeparator_iff key (key k) sorted).mp meets
    exact different _ ((mem_separators_iff height tree separator).mp member) same
  · have stored : value ∈ records height tree :=
      List.mem_flatMap.mpr ⟨_, descend_mem key (key k) height tree, member⟩
    exact different _ ((mem_records_iff height tree value).mp stored) same

end PagedTree
