import Gaveta.BTree.RangeSearch
import Gaveta.BTree.Removal
import Gaveta.Library.Fill
import Gaveta.Library.Refinement
import Gaveta.Library.SortedRecords

/-! Runs of the four operations of a tree, against the sorted list of its keys. -/

namespace Gaveta

open PagedTree

inductive TreeRequest where
  | insert (id : CString) (rrn : Rrn)
  | remove (id : CString)
  | search (id : CString)
  | range (range : KeyRange)

inductive TreeAnswer where
  | status (status : BtreeStatus)
  | record (rrn : Option Rrn)
  | visited (rrns : List Rrn)
deriving DecidableEq

section Serve

variable {σ ρ : Type} [DecidableEq ρ]

def foundRrn (pager : Pager σ ρ) (s : σ) (found : Option ρ) (pos : UInt16) : Option Rrn :=
  found.bind fun p => (pager.node s p).keys[pos.toNat]?.map Key.dataRegisterRrn

/-- One call; nothing if the process exits in it, one of its loops does not end, or it reads a key
behind those of a leaf. -/
def serve (pager : Pager σ ρ) (b : BTree σ ρ) : TreeRequest → Option (BTree σ ρ × TreeAnswer)
  | .insert id rrn =>
      let inserted := bInsert pager b id rrn
      inserted.2.map fun status => (inserted.1, .status status)
  | .remove id =>
      let removed := bRemove pager b id
      removed.2.map fun status => (removed.1, .status status)
  | .search id =>
      let answer := bSearch pager b id
      some (answer.1, .record (foundRrn pager answer.1.io answer.2.1 answer.2.2))
  | .range range =>
      (bRangeSearch pager b range).map fun answer => (answer.1, .visited answer.2)

end Serve

/-- What the calls should do with the keys of a tree, in ascending order. -/
def dictionary (keys : List Key) : TreeRequest → List Key × TreeAnswer
  | .insert id rrn =>
      match SortedRecords.find Key.id id keys with
      | some _ => (keys, .status .errorDuplicate)
      | none =>
          (SortedRecords.insert Key.id { id := id, dataRegisterRrn := rrn } keys, .status .success)
  | .remove id =>
      match SortedRecords.find Key.id id keys with
      | some _ => (SortedRecords.remove Key.id id keys, .status .success)
      | none => (keys, .status .notFoundKey)
  | .search id => (keys, .record ((SortedRecords.find Key.id id keys).map Key.dataRegisterRrn))
  | .range range => (keys, .visited ((keys.filter range.holds).map Key.dataRegisterRrn))

/-- A stored id that is no separator, in a leaf that keeps enough keys or has no sibling. -/
def Removable (b : BTree Resident Rrn) (id : CString) : Prop :=
  ∃ height tree, ValidBTree b height tree ∧ (∃ key ∈ records height tree, key.id = id) ∧
    ¬MeetsSeparator Key.id id height tree ∧
    (siblings Key.id id height tree = 0 ∨
      (b.config.order - 1) / 2 < (descend Key.id id height tree).records.length)

/-- An insertion draws only new record numbers, a removal is `Removable` and a search is not for the
id of a separator. -/
def Serves (b : BTree Resident Rrn) : TreeRequest → Prop
  | .insert id rrn =>
      id.isEmpty = false ∧ DistinctRrns (bInsert residentPager b id rrn).1.io.created
  | .remove id => Removable b id
  | .search id => ¬SeparatorOf b id
  | .range _ => True

structure Catalogued (b : BTree Resident Rrn) (keys : List Key) (height : Nat)
    (tree : Tree Rrn Key height) : Prop where
  valid : ValidBTree b height tree
  created : ∀ rrn ∈ labels height tree, rrn ∈ b.io.created
  separators : ∀ value, Item.separator value ∈ inorder height tree →
    Item.record value ∈ inorder height tree
  topFilled : TopFilled ((b.config.order - 1) / 2) (b.config.order - 1) height tree
  records : records height tree = keys

structure DictionaryState (order : Nat) (b : BTree Resident Rrn) (keys : List Key) : Prop where
  order : b.config.order = order
  works : ∀ n, b.io.ioFails n = false
  tree : (b.root = none ∧ keys = []) ∨ ∃ height tree, Catalogued b keys height tree

def entriesOf (keys : List Key) : List (CString × Rrn) :=
  keys.map fun key => (key.id, key.dataRegisterRrn)

theorem firstRrn_entriesOf (keys : List Key) (id : CString) :
    firstRrn (entriesOf keys) id = (SortedRecords.find Key.id id keys).map Key.dataRegisterRrn := by
  rw [firstRrn, entriesOf, List.find?_map, SortedRecords.find, Option.map_map]
  refine congrArg (fun test => (keys.find? test).map Key.dataRegisterRrn) (funext fun key => ?_)
  exact decide_eq_decide.mpr Iff.rfl

section Tree

variable {b : BTree Resident Rrn} {keys : List Key} {height : Nat} {tree : Tree Rrn Key height}
  {id : CString} {rrn : Rrn}

namespace Catalogued

theorem sorted (held : Catalogued b keys height tree) : SortedRecords.Sorted Key.id keys :=
  held.records ▸ inOrder_records held.valid.search

theorem built (held : Catalogued b keys height tree) : Built (entriesOf keys) b height tree := by
  refine ⟨held.valid, held.created, held.separators, fun key => ?_⟩
  rw [held.records, firstRrn_entriesOf]
  constructor
  · intro member
    rw [SortedRecords.find_of_mem held.sorted member]
    rfl
  · intro found
    obtain ⟨other, located, same⟩ := Option.map_eq_some_iff.mp found
    have member := List.mem_of_find?_eq_some located
    have named : other.id = key.id := by simpa using List.find?_some located
    have equal : other = key := by
      obtain ⟨_, _⟩ := other
      obtain ⟨_, _⟩ := key
      exact Key.mk.injEq .. ▸ ⟨named, same⟩
    exact equal ▸ member

theorem grown {after : BTree Resident Rrn} {taller : Nat} {larger : Tree Rrn Key taller}
    {fresh : List Rrn} (held : Catalogued b keys height tree) (three : 3 ≤ b.config.order)
    (named : id.isEmpty = false)
    (grows : Grows Key.id b.config.order { id := id, dataRegisterRrn := rrn } tree taller larger
      fresh)
    (root : after.root = some (label taller larger))
    (config : after.config.order = b.config.order)
    (represents : Represents after.io.nodes taller larger)
    (changes : Changes b.io after.io (labels height tree) fresh)
    (distinct : DistinctRrns after.io.created) :
    SortedRecords.find Key.id id keys = none ∧
      Catalogued after (SortedRecords.insert Key.id { id := id, dataRegisterRrn := rrn } keys)
        taller larger := by
  have built := held.built.grown three named grows root config represents changes distinct
  have lists := grows.lists held.valid.search.inOrder
  obtain ⟨front, back, old, new, lower, upper⟩ := lists.records
  rw [← records_eq_filterMap] at old new
  have same : keys = front ++ back := held.records.symm.trans old
  have topFilled := held.topFilled
  have filled := held.valid.filled
  refine ⟨?_, built.valid, built.created, built.separators, ?_, ?_⟩
  · rw [SortedRecords.find_eq_none_iff]
    intro other member
    have listed := (mem_records_iff _ _ _).mp (held.records.symm ▸ member)
    exact lists.ne_key _ listed
  · rw [config]
    exact grows.topFilled (by omega) filled topFilled
  · rw [new, same, SortedRecords.insert_split lower upper]

theorem first (empty : b.root = none) (named : id.isEmpty = false) (three : 3 ≤ b.config.order)
    (distinct : DistinctRrns (bInsert residentPager b id rrn).1.io.created) :
    Catalogued (bInsert residentPager b id rrn).1 [{ id := id, dataRegisterRrn := rrn }] 0
      (Leaf.mk (getFreeRrn b.io.freeRrn).1 [{ id := id, dataRegisterRrn := rrn }] noRrn) := by
  have built := built_root empty named three distinct
  exact ⟨built.valid, built.created, built.separators, fun tall => absurd rfl tall, records_leaf _⟩

end Catalogued

theorem DictionaryState.insert {order : Nat} (state : DictionaryState order b keys)
    (three : 3 ≤ order) (named : id.isEmpty = false)
    (distinct : DistinctRrns (bInsert residentPager b id rrn).1.io.created) :
    ∃ after, serve residentPager b (.insert id rrn) =
        some (after, (dictionary keys (.insert id rrn)).2) ∧
      DictionaryState order after (dictionary keys (.insert id rrn)).1 := by
  obtain ⟨rfl, works, ⟨empty, rfl⟩ | ⟨height, tree, held⟩⟩ := state
  · have held := Catalogued.first empty named three distinct
    have created : bInsert residentPager b id rrn =
        createRoot residentPager b { id := id, dataRegisterRrn := rrn } := by
      rw [bInsert, empty]
    rw [created] at held
    rw [serve, created]
    refine ⟨(createRoot residentPager b { id := id, dataRegisterRrn := rrn }).1, ?_, rfl, works,
      Or.inr ⟨0, _, held⟩⟩
    simp [createRoot_resident, works, dictionary, SortedRecords.find]
  · have post := bInsert_post three held.valid.root ⟨held.valid.stored, held.created⟩ distinct
    rw [serve]
    generalize bInsert residentPager b id rrn = result at post distinct ⊢
    cases post with
    | duplicate meets =>
        obtain ⟨first, known⟩ := held.built.meets meets
        rw [firstRrn_entriesOf] at known
        obtain ⟨key, found, _⟩ := Option.map_eq_some_iff.mp known
        rw [dictionary, found]
        exact ⟨b, rfl, rfl, works, Or.inr ⟨height, tree, held⟩⟩
    | grown grows root config represents changes written =>
        obtain ⟨new, next⟩ := held.grown three named grows root config represents changes distinct
        rw [dictionary, new]
        exact ⟨_, rfl, config, by simpa [changes.ioFails] using works, Or.inr ⟨_, _, next⟩⟩
    | failed stops represents changes written failed => simp [works] at failed
    | exits inserts written failed => simp [works] at failed

namespace Catalogued

theorem find_stored (held : Catalogued b keys height tree) {key : Key}
    (member : key ∈ (descend Key.id key.id height tree).records) :
    SortedRecords.find Key.id key.id keys = some key := by
  refine SortedRecords.find_of_mem held.sorted ?_
  rw [← held.records]
  exact List.mem_flatMap.mpr ⟨_, descend_mem Key.id key.id height tree, member⟩

theorem find_absent (held : Catalogued b keys height tree)
    (absent : ∀ key ∈ (descend Key.id id height tree).records, key.id ≠ id) :
    SortedRecords.find Key.id id keys = none := by
  rw [SortedRecords.find_eq_none_iff, ← held.records]
  intro key listed same
  obtain ⟨leaf, member, inside⟩ := List.mem_flatMap.mp listed
  have arrives := descend_eq_of_mem Key.id held.valid.search.inOrder member inside
  rw [same] at arrives
  exact absent key (arrives ▸ inside) same

theorem without_other {leaf : Leaf Rrn Key} (held : Catalogued b keys height tree)
    (member : leaf ∈ leaves height tree) (other : leaf ≠ descend Key.id id height tree) :
    without id leaf = leaf := by
  have kept : leaf.records.filter (fun key => key.id ≠ id) = leaf.records := by
    refine List.filter_eq_self.mpr fun key inside => ?_
    simp only [ne_eq, decide_not, Bool.not_eq_eq_eq_not, Bool.not_true, decide_eq_false_iff_not]
    rintro rfl
    exact other (descend_eq_of_mem Key.id held.valid.search.inOrder member inside).symm
  rw [without, kept]

theorem removed_filled {before rest : List Key} {key : Key} (held : Catalogued b keys height tree)
    (three : 3 ≤ b.config.order) (tall : height ≠ 0)
    (split : (descend Key.id key.id height tree).records = before ++ key :: rest)
    (many : (b.config.order - 1) / 2 < (before ++ key :: rest).length) :
    Filled 1 ((b.config.order - 1) / 2) (b.config.order - 1) height
      (mapLeaves (without key.id) height tree) := by
  obtain ⟨height, rfl⟩ := Nat.exists_eq_add_one_of_ne_zero tall
  have filled := held.topFilled tall
  refine filled.mapLeaves (by omega) fun leaf member => ?_
  have most := filled.leaf_le leaf member
  by_cases own : leaf = descend Key.id key.id (height + 1) tree
  · have sorted := held.valid.search.leaf_sorted Key.id (descend_mem Key.id key.id (height + 1) tree)
    rw [split] at sorted
    rw [own, split] at most
    rw [without, own, split, filter_lost sorted]
    simp only [List.length_append, List.length_cons] at many most ⊢
    omega
  · rw [held.without_other member own]
    obtain ⟨child, childMember, inside⟩ := List.mem_flatMap.mp member
    exact ⟨(filled.2 child childMember).leaf_ge leaf inside, most⟩

theorem removed {before rest : List Key} {key : Key} (held : Catalogued b keys height tree)
    (three : 3 ≤ b.config.order) (passes : ¬MeetsSeparator Key.id key.id height tree)
    (split : (descend Key.id key.id height tree).records = before ++ key :: rest)
    (settled : height = 0 ∨ (b.config.order - 1) / 2 < (before ++ key :: rest).length) :
    Catalogued
      { b with
        io := (erase b.io (descend Key.id key.id height tree).label (before ++ rest)
          key.dataRegisterRrn).wrote }
      (SortedRecords.remove Key.id key.id keys) height (mapLeaves (without key.id) height tree) := by
  have valid := held.valid
  have named : ∀ leaf, (without key.id leaf).label = leaf.label := fun _ => rfl
  have fewer := inorder_mapLeaves (without_sublist key.id) tree
  have names : labels height (mapLeaves (without key.id) height tree) = labels height tree :=
    labels_mapLeaves named tree
  have represents := @erase_represents height tree b.io before rest key key.dataRegisterRrn
    valid.represents valid.search split
  have topFilled : TopFilled ((b.config.order - 1) / 2) (b.config.order - 1) height
      (mapLeaves (without key.id) height tree) := fun tall =>
    held.removed_filled three tall split (settled.resolve_left tall)
  have filled : Filled 0 ((b.config.order - 1) / 2) (b.config.order - 1) height
      (mapLeaves (without key.id) height tree) := by
    rcases Nat.eq_zero_or_pos height with flat | tall
    · subst flat
      exact ⟨Nat.zero_le _, (without_sublist key.id tree).length_le.trans valid.filled.2⟩
    · exact (topFilled tall.ne').weaken (Nat.zero_le 1)
  constructor
  · constructor
    · constructor
      · rw [label_mapLeaves named]
        exact valid.root
      · exact represents
      · exact valid.search.mapLeaves (without_sublist key.id)
      · exact filled
      · rw [leaves_mapLeaves]
        exact linked_map valid.linked named fun _ => rfl
      · rw [names]
        exact valid.distinct
    · exact fun item member => valid.named item (fewer.subset member)
  · rw [names]
    intro rrn member
    have same : (erase b.io (descend Key.id key.id height tree).label (before ++ rest)
        key.dataRegisterRrn).wrote.created = b.io.created := by
      rw [Resident.wrote, erase]
      split <;> rfl
    exact same ▸ held.created rrn member
  · intro value member
    have stored := held.separators value (fewer.subset member)
    have different : value.id ≠ key.id := by
      intro same
      have listed := (mem_separators_iff _ _ _).mpr (fewer.subset member)
      exact passes ((meetsSeparator_iff Key.id key.id valid.search.inOrder).mpr
        ⟨value, listed, same⟩)
    rw [← mem_records_iff] at stored ⊢
    rw [records_without, List.mem_filter]
    exact ⟨stored, by simpa using different⟩
  · exact topFilled
  · rw [records_without, held.records]
    refine congrArg (fun test => keys.filter test) (funext fun other => ?_)
    exact decide_eq_decide.mpr Iff.rfl

end Catalogued

theorem DictionaryState.remove {order : Nat} (state : DictionaryState order b keys)
    (three : 3 ≤ order) (bound : order ≤ 99) (removable : Removable b id) :
    ∃ after, serve residentPager b (.remove id) = some (after, (dictionary keys (.remove id)).2) ∧
      DictionaryState order after (dictionary keys (.remove id)).1 := by
  obtain ⟨rfl, works, ⟨empty, rfl⟩ | ⟨height, tree, held⟩⟩ := state
  · obtain ⟨height, tree, valid, _⟩ := removable
    have root := valid.root
    rw [empty] at root
    cases root
  obtain ⟨other, otherTree, valid, stored, passes, settled⟩ := removable
  cases held.valid.toOrderedBTree.unique valid.toOrderedBTree
  obtain ⟨before, key, rest, split, rfl, searched⟩ := valid.search_stored passes stored
  have leafMember := descend_mem Key.id key.id height tree
  have read := (valid.represents.leaves _ leafMember).leaf
  have found : SortedRecords.find Key.id key.id keys = some key :=
    held.find_stored (by simp [split])
  have settled : height = 0 ∨ (b.config.order - 1) / 2 < (before ++ key :: rest).length := by
    rcases settled with alone | many
    · refine Or.inl (by_contra fun tall => ?_)
      obtain ⟨height, rfl⟩ := Nat.exists_eq_add_one_of_ne_zero tall
      have beside : 0 < siblings Key.id key.id (height + 1) tree :=
        (held.topFilled tall).siblings_pos (by omega)
      omega
    · exact Or.inr (split ▸ many)
  have result := bRemove_stored valid.root works searched
    (leaf_position valid.filled (by omega) leafMember split) (by rw [read, leafNode, split])
    (by rw [read, leafNode])
  have next := held.removed three passes split settled
  have fails : ∀ n, (erase b.io (descend Key.id key.id height tree).label (before ++ rest)
      key.dataRegisterRrn).ioFails n = false := by
    rw [erase_ioFails]
    exact works
  rw [serve, result, dictionary, found]
  dsimp only
  split_ifs with emptied underflow
  · have flat := valid.flat leafMember emptied.1
    subst flat
    have single : keys = [key] := by
      rw [← held.records, records_leaf]
      rw [descend] at split
      rw [split]
      obtain ⟨rfl, rfl⟩ := List.append_eq_nil_iff.mp emptied.2
      rfl
    refine ⟨_, rfl, rfl, fails, Or.inl ⟨rfl, ?_⟩⟩
    simp [single, SortedRecords.remove]
  · have many : ¬(before ++ rest).length < (b.config.order - 1) / 2 := by
      rcases settled with flat | many
      · subst flat
        exact absurd rfl underflow.1
      · simp only [List.length_append, List.length_cons] at many ⊢
        omega
    exact absurd underflow.2 many
  · exact ⟨_, rfl, rfl, fails, Or.inr ⟨height, _, next⟩⟩

theorem DictionaryState.search {order : Nat} (state : DictionaryState order b keys)
    (bound : order ≤ 99) (passes : ¬SeparatorOf b id) :
    serve residentPager b (.search id) = some (b, (dictionary keys (.search id)).2) := by
  obtain ⟨rfl, works, ⟨empty, rfl⟩ | ⟨height, tree, held⟩⟩ := state
  · rw [serve, bSearch, empty]
    rfl
  have stored := held.valid.stored
  rw [held.valid.toOrderedBTree.separatorOf_iff] at passes
  have leafMember := descend_mem Key.id id height tree
  have read := (stored.represents.leaves _ leafMember).leaf
  rcases held.valid.bSearch_descend passes with
    ⟨before, key, after, split, rfl, answer⟩ | ⟨absent, answer⟩
  · have found : SortedRecords.find Key.id key.id keys = some key :=
      held.find_stored (by simp [split])
    have position := leaf_position stored.filled (by omega) leafMember split
    rw [serve, answer, dictionary, found, foundRrn]
    simp [read, leafNode, position, split]
  · have none := held.find_absent absent
    have most := stored.filled.leaf_le _ leafMember
    have beyond : ¬noPosition.toNat < (descend Key.id id height tree).records.length := by
      have large : noPosition.toNat = 65535 := rfl
      omega
    rw [serve, answer, dictionary, none, foundRrn]
    simp [read, leafNode, beyond]

theorem DictionaryState.range {order : Nat} (state : DictionaryState order b keys)
    (range : KeyRange) :
    serve residentPager b (.range range) = some (b, (dictionary keys (.range range)).2) := by
  obtain ⟨_, _, ⟨empty, rfl⟩ | ⟨height, tree, held⟩⟩ := state
  · rw [serve, bRangeSearch, empty]
    rfl
  · obtain ⟨visited, _, _⟩ :=
      range_search_exact b height tree held.valid.searchable range
    rw [serve, visited, held.records]
    rfl

theorem serve_simulates {order : Nat} (three : 3 ≤ order) (bound : order ≤ 99) :
    Refinement.Simulates (serve residentPager) dictionary Serves (DictionaryState order) := by
  intro b keys call state serves
  cases call with
  | insert id rrn => exact state.insert three serves.1 serves.2
  | remove id => exact state.remove three bound serves
  | search id => exact ⟨b, state.search bound serves, state⟩
  | range range => exact ⟨b, state.range range, state⟩

end Tree

theorem DictionaryState.start (config : BtreeConfig) (free : List Rrn) :
    DictionaryState config.order (allocTreeBuf config free fun _ => false) [] :=
  ⟨rfl, fun _ => rfl, Or.inl ⟨rfl, rfl⟩⟩

section Insertions

variable {b : BTree Resident Rrn}

def insertCall (entry : CString × Rrn) : TreeRequest := .insert entry.1 entry.2

theorem serve_insert {final : BTree Resident Rrn} {answer : TreeAnswer} {entry : CString × Rrn}
    (acts : serve residentPager b (insertCall entry) = some (final, answer)) :
    final = (bInsert residentPager b entry.1 entry.2).1 ∧
      ∀ rest, insertAll residentPager b (entry :: rest) = insertAll residentPager final rest := by
  obtain ⟨status, returned, same⟩ := Option.map_eq_some_iff.mp acts
  obtain ⟨rfl, rfl⟩ := Prod.mk.injEq .. ▸ same
  refine ⟨rfl, fun rest => ?_⟩
  rw [insertAll, returned]

theorem run_inserts {final : BTree Resident Rrn} {answers : List TreeAnswer}
    {entries : List (CString × Rrn)}
    (ran : Refinement.run (serve residentPager) b (entries.map insertCall) = some (final, answers)) :
    insertAll residentPager b entries = final := by
  induction entries generalizing b answers with
  | nil => exact congrArg Prod.fst (Option.some.inj ran)
  | cons entry rest ih =>
      rw [List.map_cons, Refinement.run] at ran
      split at ran
      · cases ran
      · rename_i next answer acts
        obtain ⟨⟨last, others⟩, later, same⟩ := Option.map_eq_some_iff.mp ran
        obtain ⟨rfl, _⟩ := Prod.mk.injEq .. ▸ same
        rw [(serve_insert acts).2 rest]
        exact ih later

theorem admitted_inserts {entries : List (CString × Rrn)}
    (named : ∀ entry ∈ entries, entry.1.isEmpty = false)
    (distinct : DistinctRrns (insertAll residentPager b entries).io.created) :
    Refinement.Admitted (serve residentPager) Serves b (entries.map insertCall) := by
  induction entries generalizing b with
  | nil => trivial
  | cons entry rest ih =>
      have drawn : DistinctRrns (bInsert residentPager b entry.1 entry.2).1.io.created := by
        rw [insertAll] at distinct
        split at distinct
        · exact distinct
        · obtain ⟨count, later⟩ := insertAll_drew (bInsert residentPager b entry.1 entry.2).1 rest
          rw [later.created] at distinct
          exact distinct.of_append
      refine ⟨⟨named entry (by simp), drawn⟩, fun next answer acts => ?_⟩
      rw [(serve_insert acts).2 rest] at distinct
      exact ih (fun other member => named other (by simp [member])) distinct

end Insertions

section Found

variable {b : BTree Resident Rrn} {id : CString} {p : Rrn} {key : Key}

theorem not_separator_of_found (three : 3 ≤ b.config.order)
    (found : (bSearch residentPager b id).2.1.isSome) : ¬SeparatorOf b id := by
  rintro ⟨height, tree, ordered, separator, member, same⟩
  have meets := (meetsSeparator_iff Key.id id ordered.search.inOrder).mpr ⟨separator, member, same⟩
  rw [bSearch_separator ordered.root (ordered.arranged three) meets] at found
  cases found

theorem removable_of_found {keys : List Key} {height : Nat} {tree : Tree Rrn Key height}
    (held : Catalogued b keys height tree) (three : 3 ≤ b.config.order)
    (stored : (SortedRecords.find Key.id id keys).isSome)
    (found : (bSearch residentPager b id).2.1 = some p)
    (many : (b.config.order - 1) / 2 < (b.io.read p).keys.length) : Removable b id := by
  have passes : ¬MeetsSeparator Key.id id height tree := fun meets =>
    not_separator_of_found three (by rw [found]; rfl) ⟨height, tree, held.valid.toOrderedBTree,
      (meetsSeparator_iff Key.id id held.valid.search.inOrder).mp meets⟩
  obtain ⟨key, located⟩ := Option.isSome_iff_exists.mp stored
  have listed : ∃ key ∈ records height tree, key.id = id :=
    ⟨key, held.records ▸ List.mem_of_find?_eq_some located, by simpa using List.find?_some located⟩
  obtain ⟨before, other, rest, split, same, searched⟩ := held.valid.search_stored passes listed
  have read := (held.valid.represents.leaves _ (descend_mem Key.id id height tree)).leaf
  rw [searched] at found
  obtain rfl := Option.some.inj found
  rw [read, leafNode] at many
  exact ⟨height, tree, held.valid, listed, passes, Or.inr many⟩

end Found

def catalogueCalls : List TreeRequest :=
  [.remove (singleId 97), .search (singleId 98), .range ⟨singleId 97, singleId 99⟩]

theorem catalogueCalls_admitted : Refinement.Admitted (serve residentPager) Serves
    (allocTreeBuf smallConfig [1, 2, 3] fun _ => false)
    (threeEntries.map insertCall ++ catalogueCalls) := by
  have inserts : Refinement.Admitted (serve residentPager) Serves
      (allocTreeBuf smallConfig [1, 2, 3] fun _ => false) (threeEntries.map insertCall) :=
    admitted_inserts (by decide) threeTree_distinct
  refine inserts.append fun middle answers ran => ?_
  obtain ⟨last, again, state⟩ := (serve_simulates (by decide) (by decide)).run
    (DictionaryState.start smallConfig [1, 2, 3]) inserts
  rw [ran, Option.some.injEq, Prod.mk.injEq] at again
  obtain ⟨rfl, _⟩ := again
  obtain rfl : threeTree = middle := run_inserts ran
  obtain ⟨_, _, ⟨empty, _⟩ | ⟨height, tree, held⟩⟩ := state
  · exact absurd empty (by decide +kernel)
  have removable : Removable threeTree (singleId 97) :=
    @removable_of_found _ _ 1 _ _ _ held (by decide +kernel) (by decide +kernel)
      (by decide +kernel) (by decide +kernel)
  refine ⟨removable, fun next answer acts => ?_⟩
  obtain ⟨rfl, _⟩ := Prod.mk.injEq .. ▸ Option.some.inj acts
  refine ⟨not_separator_of_found (by decide +kernel) (by decide +kernel), fun last answer acts => ?_⟩
  exact ⟨trivial, fun _ _ _ => trivial⟩

end Gaveta
