import Gaveta.Library.LeafMap
import Gaveta.BTree.Siblings

/-! What `b_remove` does to a stored tree after it has found the leaf. -/

namespace Gaveta

open PagedTree

section Parent

variable {s : Resident} {height : Nat} {target : Rrn}

def Resident.Holds (s : Resident) (q rrn : Rrn) : Prop := q = rrn ∧ (s.nodes rrn).isSome

theorem inMemory_resident (s : Resident) : InMemory residentPager s s.nodes s.Holds where
  content := by
    rintro q rrn ⟨rfl, present⟩
    obtain ⟨node, found⟩ := Option.isSome_iff_exists.mp present
    rw [residentPager_node, Resident.read, found]
    rfl
  load := by
    intro rrn present
    exact ⟨rrn, ⟨rfl, present⟩, rfl, fun held => by simp [present]⟩

theorem Finds.resident {result : Resident × Option Rrn} {expected : Option Rrn}
    (finds : Finds s s.Holds result expected) : result = (s, expected) := by
  obtain ⟨state, pointer⟩ := result
  obtain ⟨rfl, found⟩ := finds
  cases found with
  | none => rfl
  | some points => rw [points.1]

theorem getSibling_spec {root name : Rrn} {before after : List Rrn} {tree : Tree Rrn Key height}
    (represents : Represents s.nodes height tree) (top : label height tree = root)
    (other : target ≠ root) (named : (s.read target).rrn = target) (deep : height < depthLimit)
    (found : parentOf target height tree = some (name, before ++ target :: after))
    (outside : target ∉ before) :
    getSibling residentPager root s target true = (s, before.getLast?) ∧
      getSibling residentPager root s target false = (s, after.head?) := by
  have points : s.Holds root (label height tree) := ⟨top.symm, represents.isSome⟩
  have same : (residentPager.node s target).rrn = target := named
  rw [← same] at found outside
  obtain ⟨left, right⟩ :=
    getSibling_finds (inMemory_resident s) represents points other deep found outside
  exact ⟨left.resident, right.resident⟩

end Parent

section Leaves

def LeafChange (before after : Rrn → Option BtreeNode) : Prop :=
  ∀ rrn node, before rrn = some node → ∃ changed, after rrn = some changed ∧
    changed.rrn = node.rrn ∧ changed.children = node.children ∧ changed.leaf = node.leaf ∧
    (node.leaf = false → changed = node)

theorem LeafChange.refl (nodes : Rrn → Option BtreeNode) : LeafChange nodes nodes :=
  fun _ node found => ⟨node, found, rfl, rfl, rfl, fun _ => rfl⟩

theorem LeafChange.trans {before middle after : Rrn → Option BtreeNode}
    (first : LeafChange before middle) (second : LeafChange middle after) :
    LeafChange before after := by
  intro rrn node found
  obtain ⟨changed, present, rrnSame, childrenSame, leafSame, branch⟩ := first rrn node found
  obtain ⟨last, lastPresent, lastRrn, lastChildren, lastLeaf, lastBranch⟩ :=
    second rrn changed present
  refine ⟨last, lastPresent, lastRrn.trans rrnSame, lastChildren.trans childrenSame,
    lastLeaf.trans leafSame, fun isBranch => ?_⟩
  rw [lastBranch (leafSame.trans isBranch), branch isBranch]

structure HasLeaf (s : Resident) (p : Rrn) : Prop where
  present : s.nodes p = some (s.read p)
  rrn : (s.read p).rrn = p
  leaf : (s.read p).leaf = true

theorem LeafChange.store {s : Resident} {p : Rrn} (has : HasLeaf s p) (keys : List Key)
    (next : Rrn) :
    LeafChange s.nodes (s.store p { s.read p with keys := keys, nextLeaf := next }).nodes := by
  intro rrn node found
  by_cases own : rrn = p
  · subst own
    obtain rfl : s.read rrn = node := Option.some.inj (has.present.symm.trans found)
    refine ⟨_, Function.update_self .., rfl, rfl, rfl, fun branch => ?_⟩
    rw [has.leaf] at branch
    cases branch
  · exact ⟨node, (Function.update_of_ne own _ _).trans found, rfl, rfl, rfl, fun _ => rfl⟩

theorem HasLeaf.store {s : Resident} {p other : Rrn} (has : HasLeaf s other) (node : BtreeNode)
    (different : other ≠ p) : HasLeaf (s.store p node) other := by
  have read : (s.store p node).read other = s.read other := by simp [different]
  refine ⟨?_, by rw [read, has.rrn], by rw [read, has.leaf]⟩
  rw [read, ← has.present]
  simp [different]

def reread (nodes : Rrn → Option BtreeNode) (leaf : Leaf Rrn Key) : Leaf Rrn Key :=
  match nodes leaf.label with
  | none => leaf
  | some node => { leaf with records := node.keys, next := node.nextLeaf }

theorem reread_label (nodes : Rrn → Option BtreeNode) (leaf : Leaf Rrn Key) :
    (reread nodes leaf).label = leaf.label := by
  rw [reread]
  split <;> rfl

theorem Represents.reread {before after : Rrn → Option BtreeNode} {height : Nat}
    {tree : Tree Rrn Key height} (represents : Represents before height tree)
    (change : LeafChange before after) :
    Represents after height (mapLeaves (reread after) height tree) := by
  induction height with
  | zero =>
      obtain ⟨changed, present, rrn, children, leaf, _⟩ := change _ _ represents
      have content : Gaveta.reread after tree =
          { label := Leaf.label tree, records := changed.keys, next := changed.nextLeaf } := by
        rw [Gaveta.reread, present]
      have found : after (Gaveta.reread after tree).label =
          some (leafNode (Gaveta.reread after tree)) := by
        rw [content, present, leafNode]
        obtain ⟨_, _, _, _, _⟩ := changed
        simp only [leafNode] at rrn children leaf
        simp only [rrn, children, leaf]
      exact found
  | succ height ih =>
      obtain ⟨⟨next, found⟩, children⟩ := represents
      obtain ⟨changed, present, _, _, _, branch⟩ := change _ _ found
      rw [branch rfl] at present
      refine ⟨⟨next, present.trans ?_⟩, ?_⟩
      · rw [branchNode, branchNode, mapLeaves_children, mapLeaves_separators, List.map_map]
        have names : label height ∘ mapLeaves (Gaveta.reread after) height = label height :=
          funext fun child => label_mapLeaves (reread_label after) child
        rw [names]
        rfl
      · rw [mapLeaves_children]
        intro child member
        obtain ⟨old, oldMember, rfl⟩ := List.mem_map.mp member
        exact ih (children old oldMember)

variable {s : Resident} {root p : Rrn}

inductive RebalanceCase (s : Resident) (root p : Rrn) (least : Nat) (before after : List Rrn) :
    Resident × BtreeStatus → Prop
  | alone (noLeft : before = []) (noRight : after = []) :
      RebalanceCase s root p least before after (s, .success)
  | borrow {donor : Rrn} (fromLeft : Bool)
      (next : before.getLast? = some donor ∨ after.head? = some donor)
      (enough : least < (s.read donor).keysNum) :
      RebalanceCase s root p least before after
        (redistribute residentPager root s donor p fromLeft)
  | merge {left right other : Rrn} (pair : left = other ∧ right = p ∨ left = p ∧ right = other)
      (next : before.getLast? = some other ∨ after.head? = some other)
      (few : ∀ other, before.getLast? = some other ∨ after.head? = some other →
        (s.read other).keysNum ≤ least) :
      RebalanceCase s root p least before after (merge residentPager root s left right)

inductive RebalanceCall (s : Resident) (root p : Rrn) (least : Nat) (left right : Option Rrn) :
    Resident × BtreeStatus → Prop
  | alone (noLeft : left = none) (noRight : right = none) :
      RebalanceCall s root p least left right (s, .success)
  | fromLeft {donor : Rrn} (next : left = some donor) (enough : least < (s.read donor).keysNum) :
      RebalanceCall s root p least left right (redistribute residentPager root s donor p true)
  | fromRight {donor : Rrn} (next : right = some donor)
      (enough : least < (s.read donor).keysNum) :
      RebalanceCall s root p least left right (redistribute residentPager root s donor p false)
  | intoLeft {other : Rrn} (next : left = some other) (few : (s.read other).keysNum ≤ least)
      (fewRight : ∀ other ∈ right, (s.read other).keysNum ≤ least) :
      RebalanceCall s root p least left right (merge residentPager root s other p)
  | withRight {other : Rrn} (noLeft : left = none) (next : right = some other)
      (few : (s.read other).keysNum ≤ least) :
      RebalanceCall s root p least left right (merge residentPager root s p other)

theorem rebalance_call {order : Nat} {left right : Option Rrn}
    (onLeft : getSibling residentPager root s p true = (s, left))
    (onRight : getSibling residentPager root s p false = (s, right)) :
    RebalanceCall s root p ((order - 1) / 2) left right
      (rebalance residentPager order root s p) := by
  simp only [rebalance, onLeft, onRight, residentPager_node]
  have fewRight : (right.filter fun other =>
      decide ((order - 1) / 2 < (s.read other).keysNum)) = none →
      ∀ other ∈ right, (s.read other).keysNum ≤ (order - 1) / 2 := by
    intro none other member
    have few := Option.filter_eq_none_iff.mp none other member
    simpa using few
  cases fromLeft : left.filter fun other =>
      decide ((order - 1) / 2 < (s.read other).keysNum) with
  | some donor =>
      obtain ⟨next, enough⟩ := Option.filter_eq_some_iff.mp fromLeft
      exact .fromLeft next (by simpa using enough)
  | none =>
      cases fromRight : right.filter fun other =>
          decide ((order - 1) / 2 < (s.read other).keysNum) with
      | some donor =>
          obtain ⟨next, enough⟩ := Option.filter_eq_some_iff.mp fromRight
          exact .fromRight next (by simpa using enough)
      | none =>
          cases leftEnd : left with
          | some other =>
              have few := Option.filter_eq_none_iff.mp fromLeft other leftEnd
              exact .intoLeft rfl (by simpa using few) (fewRight fromRight)
          | none =>
              cases rightEnd : right with
              | some other => exact .withRight rfl rfl (fewRight fromRight other rightEnd)
              | none => exact .alone rfl rfl

theorem rebalance_case {order height : Nat} {name : Rrn} {before after : List Rrn}
    {tree : Tree Rrn Key height} (represents : Represents s.nodes height tree)
    (top : label height tree = root) (other : p ≠ root) (named : (s.read p).rrn = p)
    (deep : height < depthLimit)
    (found : parentOf p height tree = some (name, before ++ p :: after)) (outside : p ∉ before) :
    RebalanceCase s root p ((order - 1) / 2) before after
      (rebalance residentPager order root s p) := by
  obtain ⟨onLeft, onRight⟩ := getSibling_spec represents top other named deep found outside
  have call := @rebalance_call s root p order _ _ onLeft onRight
  generalize rebalance residentPager order root s p = result at call ⊢
  cases call with
  | alone noLeft noRight =>
      exact .alone (List.getLast?_eq_none_iff.mp noLeft) (List.head?_eq_none_iff.mp noRight)
  | fromLeft next enough => exact .borrow true (Or.inl next) enough
  | fromRight next enough => exact .borrow false (Or.inr next) enough
  | intoLeft next few fewRight =>
      refine .merge (Or.inl ⟨rfl, rfl⟩) (Or.inl next) ?_
      rintro other (onLeft | onRight)
      · obtain rfl := Option.some.inj (next.symm.trans onLeft)
        exact few
      · exact fewRight other onRight
  | withRight noLeft next few =>
      refine .merge (Or.inr ⟨rfl, rfl⟩) (Or.inr next) ?_
      rintro other (onLeft | onRight)
      · cases noLeft.symm.trans onLeft
      · obtain rfl := Option.some.inj (next.symm.trans onRight)
        exact few

/-- What the underflow branch leaves: a leaf without siblings stays, otherwise a key leaves its
leaf under unchanged separators or a node that is still a child becomes free. -/
inductive RebalancePost (s : Resident) (p : Rrn) (before after : List Rrn) :
    Resident × BtreeStatus → Prop
  | alone (noLeft : before = []) (noRight : after = []) :
      RebalancePost s p before after (s, .success)
  | moved {left : Resident} {donor : Rrn} {key : Key} (sibling : before ≠ [] ∨ after ≠ [])
      (change : LeafChange s.nodes left.nodes) (member : donor ∈ before ++ p :: after)
      (held : key ∈ (s.read donor).keys) (lost : key ∉ (left.read donor).keys) :
      RebalancePost s p before after (left, .success)
  | merged {left : Resident} {freed : Rrn} (sibling : before ≠ [] ∨ after ≠ [])
      (change : LeafChange s.nodes left.nodes) (member : freed ∈ before ++ p :: after)
      (listed : freed ∈ left.freeRrn) : RebalancePost s p before after (left, .success)

theorem exists_lost {keys : List Key} (fromLeft : Bool) (some : keys ≠ []) (unique : keys.Nodup) :
    ∃ key ∈ keys, key ∉ if fromLeft then keys.dropLast else keys.tail := by
  cases fromLeft with
  | true =>
      obtain ⟨front, last, rfl⟩ := (List.eq_nil_or_concat keys).resolve_left some
      rw [List.concat_eq_append, List.nodup_append] at unique
      refine ⟨last, by simp, fun member => ?_⟩
      simp only [↓reduceIte, List.concat_eq_append, List.dropLast_concat] at member
      exact unique.2.2 last member last (by simp) rfl
  | false =>
      obtain ⟨first, rest, rfl⟩ := List.exists_cons_of_ne_nil some
      exact ⟨first, by simp, (List.nodup_cons.mp unique).1⟩

theorem redistribute_resident {donor receiver : Rrn} (fromLeft : Bool)
    (works : ∀ n, s.ioFails n = false) (different : donor ≠ receiver) :
    ∃ grown, (∀ key ∈ grown, key ∈ (s.read donor).keys ∨ key ∈ (s.read receiver).keys) ∧
      redistribute residentPager root s donor receiver fromLeft =
        (((s.store receiver { s.read receiver with keys := grown }).store donor
          { s.read donor with
            keys :=
              if fromLeft then (s.read donor).keys.dropLast
              else (s.read donor).keys.tail }).wrote.wrote, .success) := by
  refine ⟨if fromLeft then (s.read donor).keys.getLast?.toList ++ (s.read receiver).keys
    else (s.read receiver).keys ++ (s.read donor).keys.head?.toList, ?_, ?_⟩
  · intro key member
    split_ifs at member
    · rcases List.mem_append.mp member with last | old
      · exact Or.inl (List.mem_of_getLast? (Option.mem_toList.mp last))
      · exact Or.inr old
    · rcases List.mem_append.mp member with old | first
      · exact Or.inr old
      · exact Or.inl (List.mem_of_mem_head? (Option.mem_toList.mp first))
  simp only [redistribute, residentPager_node, residentPager_setNode, residentPager_write, works,
    read_store, different, Resident.store_ioFails, Resident.wrote_ioFails, Bool.false_eq_true,
    ↓reduceIte, BtreeStatus.value, Int.lt_irrefl]

theorem redistribute_change {donor receiver : Rrn} (fromLeft : Bool)
    (works : ∀ n, s.ioFails n = false) (different : donor ≠ receiver) (gives : HasLeaf s donor)
    (takes : HasLeaf s receiver) :
    LeafChange s.nodes (redistribute residentPager root s donor receiver fromLeft).1.nodes := by
  obtain ⟨grown, _, result⟩ :=
    @redistribute_resident s root donor receiver fromLeft works different
  have first := LeafChange.store takes grown (s.read receiver).nextLeaf
  have middle := gives.store { s.read receiver with keys := grown } different
  have second := LeafChange.store middle
    (if fromLeft then (s.read donor).keys.dropLast else (s.read donor).keys.tail)
    (s.read donor).nextLeaf
  rw [read_store, if_neg different] at second
  rw [result]
  exact first.trans second

theorem redistribute_spec {donor receiver : Rrn} (fromLeft : Bool)
    (works : ∀ n, s.ioFails n = false) (different : donor ≠ receiver) (gives : HasLeaf s donor)
    (takes : HasLeaf s receiver) (some : (s.read donor).keys ≠ [])
    (unique : (s.read donor).keys.Nodup) :
    ∃ left, redistribute residentPager root s donor receiver fromLeft = (left, .success) ∧
      LeafChange s.nodes left.nodes ∧
      ∃ key ∈ (s.read donor).keys, key ∉ (left.read donor).keys := by
  obtain ⟨key, held, lost⟩ := exists_lost fromLeft some unique
  have change := @redistribute_change s root donor receiver fromLeft works different gives takes
  obtain ⟨grown, _, result⟩ :=
    @redistribute_resident s root donor receiver fromLeft works different
  rw [result] at change
  refine ⟨_, result, change, key, held, ?_⟩
  simpa using lost

theorem merge_resident {left right : Rrn} (works : ∀ n, s.ioFails n = false)
    (different : right ≠ left) (has : HasLeaf s right) :
    ∃ node, node = { s.read left with
        keys := (s.read left).keys ++ (s.read right).keys, nextLeaf := (s.read right).nextLeaf } ∧
      merge residentPager root s left right =
        ({ (s.store left node).wrote with freeRrn := right :: s.freeRrn }, .success) := by
  refine ⟨_, rfl, ?_⟩
  simp only [merge, residentPager_node, residentPager_setNode, residentPager_write, works,
    Resident.store_ioFails, Bool.false_eq_true, ↓reduceIte, BtreeStatus.value, Int.lt_irrefl,
    residentPager_insertFreeRrn, read_wrote, read_store, different, has.rrn,
    Resident.wrote_freeRrn, Resident.store_freeRrn]

theorem merge_spec {left right : Rrn} (works : ∀ n, s.ioFails n = false)
    (different : right ≠ left) (gives : HasLeaf s right) (takes : HasLeaf s left) :
    ∃ changed, merge residentPager root s left right = (changed, .success) ∧
      LeafChange s.nodes changed.nodes ∧ right ∈ changed.freeRrn := by
  obtain ⟨node, rfl, result⟩ := @merge_resident s root left right works different gives
  exact ⟨_, result, LeafChange.store takes _ _, by simp⟩

section Rebalance

variable {before after : List Rrn} (works : ∀ n, s.ioFails n = false)
  (leaf : ∀ other ∈ before ++ p :: after, HasLeaf s other ∧ (s.read other).keys.Nodup)
include works leaf

theorem merge_post {left right : Rrn} (different : right ≠ left)
    (leftMember : left ∈ before ++ p :: after) (rightMember : right ∈ before ++ p :: after)
    (sibling : before ≠ [] ∨ after ≠ []) :
    RebalancePost s p before after (merge residentPager root s left right) := by
  obtain ⟨changed, result, change, listed⟩ := @merge_spec s root left right works different
    (leaf right rightMember).1 (leaf left leftMember).1
  rw [result]
  exact .merged sibling change rightMember listed

variable (distinct : (before ++ p :: after).Nodup)
include distinct

theorem redistribute_post {donor : Rrn} {order : Nat} (fromLeft : Bool)
    (member : donor ∈ before ∨ donor ∈ after)
    (enough : (order - 1) / 2 < (s.read donor).keysNum) :
    RebalancePost s p before after (redistribute residentPager root s donor p fromLeft) := by
  have listed : donor ∈ before ++ p :: after := by
    rw [List.mem_append, List.mem_cons]
    exact member.imp_right Or.inr
  have different : donor ≠ p := by
    rintro rfl
    rw [List.nodup_middle, List.nodup_cons, List.mem_append] at distinct
    exact distinct.1 member
  have some : (s.read donor).keys ≠ [] := by
    intro empty
    simp [BtreeNode.keysNum, empty] at enough
  obtain ⟨left, result, change, key, held, lost⟩ := @redistribute_spec s root donor p fromLeft
    works different (leaf donor listed).1 (leaf p (by simp)).1 some (leaf donor listed).2
  rw [result]
  exact .moved (member.imp List.ne_nil_of_mem List.ne_nil_of_mem) change listed held lost

theorem rebalance_post {order height : Nat} {name : Rrn} {tree : Tree Rrn Key height}
    (represents : Represents s.nodes height tree) (top : label height tree = root)
    (other : p ≠ root) (deep : height < depthLimit)
    (found : parentOf p height tree = some (name, before ++ p :: after)) :
    RebalancePost s p before after (rebalance residentPager order root s p) := by
  have apart : p ∉ before ∧ p ∉ after := by
    rw [List.nodup_middle, List.nodup_cons, List.mem_append, not_or] at distinct
    exact distinct.1
  have beside : ∀ donor, before.getLast? = some donor ∨ after.head? = some donor →
      donor ∈ before ∨ donor ∈ after := fun donor next =>
    next.imp List.mem_of_getLast? List.mem_of_head?
  have outcome := @rebalance_case s root p order height name before after tree represents top other
    (leaf p (by simp)).1.rrn deep found apart.1
  generalize rebalance residentPager order root s p = result at outcome ⊢
  cases outcome with
  | alone noLeft noRight => exact .alone noLeft noRight
  | borrow fromLeft next enough =>
      exact redistribute_post works leaf distinct fromLeft (beside _ next) enough
  | @merge left right sibling pair next few =>
      have side := beside sibling next
      have different : sibling ≠ p := by
        rintro rfl
        exact side.elim apart.1 apart.2
      have listed : sibling ∈ before ++ p :: after := by
        rw [List.mem_append, List.mem_cons]
        exact side.imp_right Or.inr
      have some := side.imp List.ne_nil_of_mem List.ne_nil_of_mem
      rcases pair with ⟨rfl, rfl⟩ | ⟨rfl, rfl⟩
      · exact merge_post works leaf different.symm listed (by simp) some
      · exact merge_post works leaf different (by simp) listed some

end Rebalance

end Leaves

section Erase

def erase (s : Resident) (p : Rrn) (keys : List Key) (dataRrn : Rrn) : Resident :=
  let s := s.store p { s.read p with keys := keys }
  if dataRrn ≠ noRrn then
    { s with tombstones := dataRrn :: s.tombstones, freeRrn := dataRrn :: s.freeRrn }
  else s

variable {s : Resident} {p dataRrn : Rrn} {keys : List Key}

theorem erase_nodes : (erase s p keys dataRrn).nodes =
    (s.store p { s.read p with keys := keys }).nodes := by
  rw [erase]
  split <;> rfl

theorem erase_read : (erase s p keys dataRrn).read p = { s.read p with keys := keys } := by
  rw [Resident.read, erase_nodes]
  simp

theorem erase_ioFails : (erase s p keys dataRrn).ioFails = s.ioFails := by
  rw [erase]
  split <;> rfl

theorem mem_erase_freeRrn {rrn : Rrn} : rrn ∈ (erase s p keys dataRrn).freeRrn ↔
    rrn ∈ s.freeRrn ∨ (rrn = dataRrn ∧ dataRrn ≠ noRrn) := by
  rw [erase]
  split
  · rename_i given
    simp [given, or_comm]
  · rename_i missing
    simp [missing]

theorem bRemove_stored {b : BTree Resident Rrn} {root : Rrn} {key : Key} {before after : List Key}
    {pos : UInt16} (rooted : b.root = some root) (works : ∀ n, b.io.ioFails n = false)
    (searched : bSearch residentPager b key.id = (b, some p, pos))
    (slot : pos.toNat = before.length) (split : (b.io.read p).keys = before ++ key :: after)
    (leaf : (b.io.read p).leaf = true) :
    bRemove residentPager b key.id =
      let erased := erase b.io p (before ++ after) key.dataRegisterRrn
      if p = root ∧ before ++ after = [] then
        ({ b with root := none, io := erased.drop root }, some .success)
      else if p ≠ root ∧ (before ++ after).length < (b.config.order - 1) / 2 then
        let balanced := rebalance residentPager b.config.order root erased.wrote p
        ({ b with io := balanced.1 }, some balanced.2)
      else ({ b with io := erased.wrote }, some .success) := by
  have same : strcmp key.id key.id = 0 := (strcmp_eq_zero_iff _ _).mpr rfl
  have found : (before ++ key :: after)[before.length]? = some key := by simp
  have lost : (before ++ key :: after).eraseIdx before.length = before ++ after := by
    rw [List.eraseIdx_append_of_length_le le_rfl, Nat.sub_self, List.eraseIdx_cons_zero]
  have notBranch : ¬(b.io.read p).leaf = false := by simp [leaf]
  have marked : (if key.dataRegisterRrn ≠ noRrn then
      { b.io.store p { b.io.read p with keys := before ++ after } with
        tombstones := key.dataRegisterRrn :: b.io.tombstones
        freeRrn := key.dataRegisterRrn :: b.io.freeRrn }
      else b.io.store p { b.io.read p with keys := before ++ after }) =
      erase b.io p (before ++ after) key.dataRegisterRrn := rfl
  have allWork : ∀ n, (erase b.io p (before ++ after) key.dataRegisterRrn).ioFails n = false := by
    rw [erase_ioFails]
    exact works
  rw [bRemove, rooted]
  dsimp only
  rw [searched]
  dsimp only
  rw [slot, residentPager_node, split, found]
  dsimp only
  rw [if_neg (not_not.mpr same), if_neg notBranch, lost]
  simp only [residentPager_setNode, residentPager_tombstone, residentPager_insertFreeRrn, ↓reduceIte,
    Resident.store_tombstones, Resident.store_freeRrn]
  dsimp only at marked
  rw [marked]
  simp only [residentPager_node, erase_read, BtreeNode.keysNum, List.length_eq_zero_iff]
  split
  · rfl
  · simp only [residentPager_write, allWork, Bool.false_eq_true, ↓reduceIte, BtreeStatus.value,
      Int.lt_irrefl, read_wrote, erase_read]

theorem bRemove_found {b : BTree Resident Rrn} {root : Rrn} {key : Key} {before after : List Key}
    {pos : UInt16} (rooted : b.root = some root) (works : ∀ n, b.io.ioFails n = false)
    (searched : bSearch residentPager b key.id = (b, some p, pos))
    (slot : pos.toNat = before.length) (split : (b.io.read p).keys = before ++ key :: after)
    (leaf : (b.io.read p).leaf = true) :
    (bRemove residentPager b key.id).1 =
      let erased := erase b.io p (before ++ after) key.dataRegisterRrn
      if p = root ∧ before ++ after = [] then { b with root := none, io := erased.drop root }
      else if p ≠ root ∧ (before ++ after).length < (b.config.order - 1) / 2 then
        { b with io := (rebalance residentPager b.config.order root erased.wrote p).1 }
      else { b with io := erased.wrote } := by
  rw [bRemove_stored rooted works searched slot split leaf]
  dsimp only
  split_ifs <;> rfl

end Erase

end Gaveta
