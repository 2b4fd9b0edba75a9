import Gaveta.BTree.LeafArrays
import Gaveta.Library.SortedCut

/-! What the search in a node and the insertion at its position keep of the order of the keys. -/

namespace Gaveta

open SortedCut

def Increasing (keys : List Key) : Prop :=
  keys.Pairwise fun left right => strcmp left.id right.id < 0

instance decidableIncreasing (keys : List Key) : Decidable (Increasing keys) :=
  inferInstanceAs (Decidable (List.Pairwise _ _))

/-- The search for `k` in `node` is exact, and a leaf with the same keys that is not full stays in
order when `k` is inserted where the search ends. -/
structure KeepsOrder (node : BtreeNode) (k : Key) : Prop where
  found : ∀ i, searchInBtreeNode node k.id = (.foundKey, i) ↔
    ∃ key, node.keys[i]? = some key ∧ key.id = k.id
  position : (∀ key ∈ node.keys, key.id ≠ k.id) →
    searchInBtreeNode node k.id =
      (.notFoundKey, node.keys.countP fun key => strcmp key.id k.id < 0)
  inserted : (∀ key ∈ node.keys, key.id ≠ k.id) →
    ∀ (order : Nat) (leaf : LeafArrays), order ≤ 256 → leaf.inUse = node.keys →
      leaf.keysNum.toNat < order - 1 →
      Increasing (leaf.insertInBtreeNode k (searchInBtreeNode node k.id).2).inUse ∧
        (leaf.insertInBtreeNode k (searchInBtreeNode node k.id).2).inUse.Perm (k :: node.keys) ∧
        (leaf.Fits order →
          (leaf.insertInBtreeNode k (searchInBtreeNode node k.id).2).Fits order)

variable {node : BtreeNode} {k : Key} {keys : List Key}

theorem increasing_iff : Increasing keys ↔ keys.Pairwise fun left right => left.id < right.id := by
  simp only [Increasing, strcmp_neg_iff]

theorem CString.le_of_isEmpty {empty : CString} (mark : empty.isEmpty = true) (other : CString) :
    empty ≤ other := by
  apply not_lt.mp
  intro below
  have bytes : other.bytes < empty.bytes := below
  rw [List.isEmpty_iff.mp mark] at bytes
  exact absurd bytes (List.not_lt_nil _)

theorem searchInBtreeNode_cases (sorted : Increasing node.keys)
    (marked : ∀ key ∈ node.keys, key.id.isEmpty = false) (id : CString) :
    ∃ before after,
      (∃ key, node.keys = before ++ key :: after ∧ key.id = id ∧ Cut Key.id id before after ∧
        searchInBtreeNode node id = (.foundKey, before.length)) ∨
      (node.keys = before ++ after ∧ Cut Key.id id before after ∧
        searchInBtreeNode node id = (.notFoundKey, before.length)) := by
  obtain ⟨before, after, whole, lower, outcome⟩ := searchFrom_spec id node.keys 0 marked
  rw [Nat.zero_add] at outcome
  rw [increasing_iff, whole] at sorted
  have back := (List.pairwise_append.mp sorted).2.1
  rcases outcome with ⟨key, rest, rfl, same, result⟩ | ⟨head, result⟩
  · have upper := (List.pairwise_cons.mp back).1
    rw [same] at upper
    exact ⟨before, rest, Or.inl ⟨key, whole, same, ⟨lower, upper⟩, result⟩⟩
  · have upper := pairwise_head_lt (back.imp le_of_lt) head
    exact ⟨before, after, Or.inr ⟨whole, ⟨lower, upper⟩, result⟩⟩

theorem searchInBtreeNode_empty {first : Key} {rest : List Key}
    (whole : node.keys = first :: rest) (mark : first.id.isEmpty = true) (id : CString) :
    searchInBtreeNode node id = (.notFoundKey, 0) := by
  rw [searchInBtreeNode, whole, searchFrom, if_pos mark]

theorem keepsOrder_of_marked (sorted : Increasing node.keys)
    (marked : ∀ key ∈ node.keys, key.id.isEmpty = false) : KeepsOrder node k := by
  obtain ⟨before, after, ⟨key, whole, same, cut, result⟩ | ⟨whole, cut, result⟩⟩ :=
    searchInBtreeNode_cases sorted marked k.id
  · have present : ¬∀ key ∈ node.keys, key.id ≠ k.id := fun absent =>
      absent key (by simp [whole]) same
    refine ⟨fun i => ?_, fun absent => absurd absent present, fun absent => absurd absent present⟩
    rw [whole, cut.slot same, result]
    simp
  · have absent : ∀ key ∈ node.keys, key.id ≠ k.id := by
      rw [whole]
      exact fun key => cut.ne
    refine ⟨fun i => ?_, fun _ => ?_, fun _ order leaf limit same room => ?_⟩
    · rw [result]
      constructor
      · intro impossible
        cases impossible
      · rintro ⟨key, slot, equal⟩
        exact absurd equal (absent key (List.mem_of_getElem? slot))
    · have count := cut.countP
      simp only [strcmp_neg_iff]
      rw [result, whole, count]
    · have count : leaf.keysNum.toNat = (before ++ after).length := by
        rw [← LeafArrays.length_inUse, same, whole]
      have bound : before.length ≤ leaf.keysNum.toNat := by
        rw [count, List.length_append]
        exact Nat.le_add_right ..
      have placed := LeafArrays.insertInBtreeNode_inUse (k := k) bound (by omega)
      rw [same, whole, openSlot_append] at placed
      rw [increasing_iff, whole] at sorted
      rw [result]
      refine ⟨?_, ?_, ?_⟩
      · rw [placed, increasing_iff]
        exact cut.insert sorted
      · rw [placed, whole]
        exact List.perm_middle
      · intro fits
        exact LeafArrays.insertInBtreeNode_fits bound limit fits room

theorem not_keepsOrder_of_empty {empty : Key} (sorted : Increasing node.keys)
    (member : empty ∈ node.keys) (mark : empty.id.isEmpty = true) : ¬KeepsOrder node k := by
  intro keeps
  have least := CString.le_of_isEmpty mark
  obtain ⟨rest, whole⟩ :=
    first_of_least (fun other : Key => least other.id) (increasing_iff.mp sorted) member
  have result := searchInBtreeNode_empty whole mark k.id
  have absent : ∀ key ∈ node.keys, key.id ≠ k.id := by
    intro key listed same
    obtain ⟨i, slot⟩ := List.mem_iff_getElem?.mp listed
    have found := (keeps.found i).mpr ⟨key, slot, same⟩
    rw [result] at found
    cases found
  have below : strcmp empty.id k.id < 0 :=
    (strcmp_neg_iff _ _).mpr (lt_of_le_of_ne (least k.id) (absent empty member))
  have smaller : 0 < node.keys.countP fun key => strcmp key.id k.id < 0 :=
    List.countP_pos_iff.mpr ⟨empty, member, decide_eq_true below⟩
  have counted := keeps.position absent
  rw [result] at counted
  exact absurd (congrArg Prod.snd counted) (Nat.ne_of_lt smaller)

/-- The search and the insertion keep the order of a node exactly if none of its keys has an empty
id. -/
theorem keepsOrder_iff (sorted : Increasing node.keys) (k : Key) :
    KeepsOrder node k ↔ ∀ key ∈ node.keys, key.id.isEmpty = false := by
  constructor
  · intro keeps key member
    apply Bool.eq_false_iff.mpr
    intro mark
    exact not_keepsOrder_of_empty sorted member mark keeps
  · intro marked
    exact keepsOrder_of_marked sorted marked

theorem keepsOrder_between_two_keys :
    KeepsOrder (leafWith [singleId 96, singleId 98]) ⟨singleId 97, 1⟩ :=
  (keepsOrder_iff (by decide) _).mpr (by decide)

/-- The id "a" goes in front of the empty id, which is smaller. -/
theorem empty_id_breaks_order :
    Increasing (leafWith [zeroKey.id]).keys ∧
      ¬KeepsOrder (leafWith [zeroKey.id]) ⟨singleId 96, 1⟩ ∧
      ¬Increasing ((LeafArrays.ofNode (leafWith [zeroKey.id])).insertInBtreeNode ⟨singleId 96, 1⟩
        (searchInBtreeNode (leafWith [zeroKey.id]) (singleId 96)).2).inUse := by
  refine ⟨by decide, ?_, by decide⟩
  intro keeps
  have counted := keeps.position (by decide)
  revert counted
  decide

end Gaveta
