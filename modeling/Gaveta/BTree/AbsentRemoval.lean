import Gaveta.BTree.Lookup
import Gaveta.BTree.Reclaim

/-! `b_remove` with an id that no leaf stores, and the key slots that it reads. -/

namespace Gaveta

open PagedTree

/-- A read of `keys[slot]`, with the `keys_num` that the node has then. -/
structure KeyRead where
  slot : Nat
  keysNum : Nat
deriving DecidableEq

def KeyRead.Inside (keyRead : KeyRead) : Prop := keyRead.slot < keyRead.keysNum

def slotsFrom (id : CString) : List Key → Nat → List Nat
  | [], _ => []
  | key :: rest, i =>
      i :: if key.id.isEmpty ∨ strcmp key.id id ≥ 0 then [] else slotsFrom id rest (i + 1)

/-- The reads of one call of `search_key`: its search, then the first key for `g_debug`. -/
def nodeReads (p : BtreeNode) (id : CString) : List KeyRead :=
  (slotsFrom id p.keys 0 ++ if p.keysNum > 0 then [0] else []).map (⟨·, p.keysNum⟩)

section Reads

variable {σ ρ : Type}

def searchKeyReads (pager : Pager σ ρ) : Nat → List ρ → σ → ρ → CString → List KeyRead
  | 0, _, _, _, _ => []
  | fuel + 1, held, s, p, id =>
      let found := searchInBtreeNode (pager.node s p) id
      let here := nodeReads (pager.node s p) id
      if found.1 = .foundKey ∨ (pager.node s p).leaf then here
      else
        let loaded := pager.loadBtreeNode (p :: held) s ((pager.node s p).child found.2)
        match loaded.2 with
        | none => here
        | some next => here ++ searchKeyReads pager fuel (p :: held) loaded.1 next id

/-- The reads of `b_remove` up to the test that the key is there. -/
def bRemoveReads [DecidableEq ρ] (pager : Pager σ ρ) (b : BTree σ ρ) (keyId : CString) :
    List KeyRead :=
  match b.root with
  | none => []
  | some root =>
      let searched := bSearch pager b keyId
      searchKeyReads pager depthLimit [] b.io root keyId ++
        match searched.2.1 with
        | none => []
        | some p => [⟨searched.2.2.toNat, (pager.node searched.1.io p).keysNum⟩]

theorem slotsFrom_lt (id : CString) (keys : List Key) (start : Nat) :
    ∀ slot ∈ slotsFrom id keys start, slot < start + keys.length := by
  induction keys generalizing start with
  | nil => simp [slotsFrom]
  | cons key rest ih =>
      intro slot member
      rw [slotsFrom, List.mem_cons] at member
      rw [List.length_cons]
      rcases member with rfl | member
      · omega
      · split at member
        · cases member
        · have below := ih (start + 1) slot member
          omega

theorem nodeReads_inside (p : BtreeNode) (id : CString) :
    ∀ keyRead ∈ nodeReads p id, keyRead.Inside := by
  intro keyRead member
  obtain ⟨slot, listed, rfl⟩ := List.mem_map.mp member
  rcases List.mem_append.mp listed with searched | first
  · have below := slotsFrom_lt id p.keys 0 slot searched
    rwa [Nat.zero_add] at below
  · split at first
    · rename_i positive
      rw [List.mem_singleton.mp first]
      exact positive
    · cases first

theorem searchKeyReads_inside (pager : Pager σ ρ) (fuel : Nat) (held : List ρ) (s : σ) (p : ρ)
    (id : CString) : ∀ keyRead ∈ searchKeyReads pager fuel held s p id, keyRead.Inside := by
  induction fuel generalizing held s p with
  | zero => simp [searchKeyReads]
  | succ fuel ih =>
      have here := nodeReads_inside (pager.node s p) id
      intro keyRead member
      rw [searchKeyReads] at member
      dsimp only at member
      split at member
      · exact here keyRead member
      · split at member
        · exact here keyRead member
        · rcases List.mem_append.mp member with member | member
          · exact here keyRead member
          · exact ih _ _ _ keyRead member

theorem bRemoveReads_inside_iff [DecidableEq ρ] (pager : Pager σ ρ) (b : BTree σ ρ)
    (keyId : CString) :
    (∀ keyRead ∈ bRemoveReads pager b keyId, keyRead.Inside) ↔
      ∀ p, (bSearch pager b keyId).2.1 = some p →
        (bSearch pager b keyId).2.2.toNat <
          (pager.node (bSearch pager b keyId).1.io p).keysNum := by
  rw [bRemoveReads]
  split
  · rename_i empty
    simp [bSearch, empty]
  · rename_i root top
    have searched := searchKeyReads_inside pager depthLimit [] b.io root keyId
    simp only [List.mem_append, or_imp, forall_and]
    rw [and_iff_right searched]
    split
    · rename_i missed
      simp [missed]
    · rename_i p found
      simp [found, KeyRead.Inside]

end Reads

/-- A removal that reports a missing key, changes nothing, and reads only keys in use. -/
structure RemovesNothing (d : Database) (id : CString) : Prop where
  unchanged : d.remove id = d
  status : (bRemove residentPager d.tree id).2 = some .notFoundKey
  inside : ∀ keyRead ∈ bRemoveReads residentPager d.tree id, keyRead.Inside

section Absent

variable {d : Database} {height : Nat} {tree : Tree Rrn Key height} {id : CString}

theorem bRemove_missed {b : BTree Resident Rrn} {root : Rrn} {pos : UInt16} (top : b.root = some root)
    (searched : bSearch residentPager b id = (b, none, pos)) :
    bRemove residentPager b id = (b, some .notFoundKey) := by
  rw [bRemove, top]
  simp only [searched]

theorem removesNothing_separator (valid : ValidBTree d.tree height tree)
    (meets : MeetsSeparator Key.id id height tree) : RemovesNothing d id := by
  have searched := bSearch_separator valid.root valid.stored.toArranged meets
  have removed := bRemove_missed valid.root searched
  refine ⟨?_, by rw [removed], ?_⟩
  · rw [Database.remove, removed]
  · rw [bRemoveReads_inside_iff, searched]
    intro p found
    cases found

theorem absent_bSearch (valid : ValidBTree d.tree height tree)
    (absent : ∀ key ∈ records height tree, key.id ≠ id)
    (passes : ¬MeetsSeparator Key.id id height tree) :
    bSearch residentPager d.tree id =
      (d.tree, some (descend Key.id id height tree).label, noPosition) := by
  rcases valid.bSearch_descend passes with
    ⟨before, key, after, split, same, _⟩ | ⟨_, searched⟩
  · have held : key ∈ (descend Key.id id height tree).records := by simp [split]
    have stored : key ∈ records height tree :=
      List.mem_flatMap.mpr ⟨_, descend_mem Key.id id height tree, held⟩
    exact absurd same (absent key stored)
  · exact searched

theorem keysNum_le_noPosition (valid : ValidBTree d.tree height tree)
    (bound : d.tree.config.order ≤ 99) (id : CString) :
    (d.tree.io.read (descend Key.id id height tree).label).keysNum ≤ noPosition.toNat := by
  have member := descend_mem Key.id id height tree
  have read := (valid.represents.leaves _ member).leaf
  have filled := valid.filled.leaf_le _ member
  have position : noPosition.toNat = 65535 := by decide
  rw [read, leafNode, BtreeNode.keysNum, position]
  dsimp only
  omega

end Absent

/-- On every valid tree the removal of an absent key is a no-op exactly if the id is a key of an
internal node: else it reads `keys[65535]` of a leaf. -/
theorem absent_removal_iff (d : Database) (height : Nat) (tree : Tree Rrn Key height) (id : CString)
    (bound : d.tree.config.order ≤ 99) (valid : ValidBTree d.tree height tree)
    (absent : ∀ key ∈ records height tree, key.id ≠ id) :
    RemovesNothing d id ↔ ∃ separator ∈ separators height tree, separator.id = id := by
  rw [← meetsSeparator_iff Key.id id valid.search.inOrder]
  refine ⟨fun nothing => ?_, removesNothing_separator valid⟩
  by_contra passes
  have searched := absent_bSearch valid absent passes
  have inside := (bRemoveReads_inside_iff residentPager d.tree id).mp nothing.inside
    (descend Key.id id height tree).label (by rw [searched])
  rw [searched] at inside
  exact absurd inside (not_lt.mpr (keysNum_le_noPosition valid bound id))

def lowLeaf : Leaf Rrn Key := { label := 2, records := [⟨singleId 97, 1⟩], next := 3 }

def highLeaf : Leaf Rrn Key := { label := 3, records := [⟨singleId 100, 2⟩], next := noRrn }

def gapBranch : Branch Rrn Key (Leaf Rrn Key) :=
  { label := 1, first := lowLeaf, rest := [(⟨singleId 99, 4⟩, highLeaf)] }

def gapTree : BTree Resident Rrn where
  root := some 1
  config := smallConfig
  io :=
    { nodes := fun rrn =>
        if rrn = 1 then some (@branchNode 0 noRrn gapBranch)
        else if rrn = 2 then some (leafNode lowLeaf)
        else if rrn = 3 then some (leafNode highLeaf)
        else none
      freeRrn := [4]
      created := [1, 2, 3]
      ioFails := fun _ => false
      writes := 0
      tombstones := [] }

theorem gapTree_valid : ValidBTree gapTree 1 gapBranch where
  root := by decide
  represents := by
    refine ⟨⟨noRrn, rfl⟩, ?_⟩
    intro child member
    rcases List.mem_pair.mp member with rfl | rfl
    · exact rfl
    · exact rfl
  search := by
    have separated : Separated Key.id (inorder 0) lowLeaf [(⟨singleId 99, 4⟩, highLeaf)] := by
      simp only [Separated]
      decide
    refine ⟨by decide, separated, ?_⟩
    intro child member
    rcases List.mem_pair.mp member with rfl | rfl
    · exact List.pairwise_singleton _ _
    · exact List.pairwise_singleton _ _
  named := by decide
  filled := by
    refine ⟨by decide, ?_⟩
    intro child member
    rcases List.mem_pair.mp member with rfl | rfl
    · exact ⟨le_refl 1, by decide⟩
    · exact ⟨le_refl 1, by decide⟩
  linked := ⟨rfl, rfl, trivial⟩
  distinct := by decide

theorem absent_removal_iff_gap : RemovesNothing { tree := gapTree, dataFree := [] } (singleId 99) :=
  (absent_removal_iff { tree := gapTree, dataFree := [] } 1 gapBranch (singleId 99) (by decide)
    gapTree_valid (by decide)).mpr ⟨⟨singleId 99, 4⟩, by decide, rfl⟩

/-- With an id above all keys, slot 65535 of a leaf with two keys is read. -/
theorem absent_removal_reads_beyond :
    ValidBTree pairTree 0 pairLeaf ∧ (∀ key ∈ records 0 pairLeaf, key.id ≠ singleId 100) ∧
    ⟨65535, 2⟩ ∈ bRemoveReads residentPager pairTree (singleId 100) ∧
    ¬RemovesNothing { tree := pairTree, dataFree := [] } (singleId 100) := by
  have read : ⟨65535, 2⟩ ∈ bRemoveReads residentPager pairTree (singleId 100) := by
    decide +kernel
  refine ⟨pairTree_valid, by decide, read, fun nothing => ?_⟩
  exact absurd (nothing.inside _ read) (by simp [KeyRead.Inside])

end Gaveta
