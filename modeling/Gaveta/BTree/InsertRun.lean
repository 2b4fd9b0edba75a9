import Gaveta.BTree.InsertStep
import Mathlib.Data.Fintype.Card
import Mathlib.Data.FinEnum
import Mathlib.Algebra.GroupWithZero.Nat

/-! `b_insert` on valid trees, and runs of insertions from the empty tree. -/

namespace Gaveta

open PagedTree

structure OrderedBTree (b : BTree Resident Rrn) (height : Nat) (tree : Tree Rrn Key height) :
    Prop where
  root : b.root = some (label height tree)
  represents : Represents b.io.nodes height tree
  search : SearchTree Key.id height tree
  filled : Filled 0 ((b.config.order - 1) / 2) (b.config.order - 1) height tree
  linked : Linked (leaves height tree) noRrn
  distinct : DistinctRrns (labels height tree)

/-- A valid B+ tree below the root of `b`.  Ids are not empty: an empty id marks an unused slot. -/
structure ValidBTree (b : BTree Resident Rrn) (height : Nat) (tree : Tree Rrn Key height) : Prop
    extends OrderedBTree b height tree where
  named : ∀ item ∈ inorder height tree, item.value.id.isEmpty = false

theorem ValidBTree.stored {b : BTree Resident Rrn} {height : Nat} {tree : Tree Rrn Key height}
    (valid : ValidBTree b height tree) : Stored b.config.order 0 b.io height tree :=
  ⟨⟨valid.represents, valid.search.inOrder,
      fun key listed => valid.named (.separator key) ((mem_separators_iff _ _ _).mp listed),
      valid.filled, valid.distinct.1⟩,
    fun key listed => valid.named (.record key) ((mem_records_iff _ _ _).mp listed)⟩

theorem height_lt_labels {height : Nat} (tree : Tree Rrn Key height) :
    height < (labels height tree).length := by
  induction height with
  | zero => simp [labels]
  | succ height ih =>
      have first := ih (Branch.first tree)
      simp only [labels, Branch.children, List.flatMap_cons, List.length_cons, List.length_append]
      omega

theorem height_lt_depthLimit {height : Nat} {tree : Tree Rrn Key height}
    (distinct : (labels height tree).Nodup) : height < depthLimit := by
  have bound := distinct.length_le_card
  have card : Fintype.card Rrn = depthLimit := by
    rw [← FinEnum.card_eq_fintypeCard]
    rfl
  have tall := height_lt_labels tree
  omega

inductive BInsertPost (b : BTree Resident Rrn) (k : Key) {height : Nat}
    (tree : Tree Rrn Key height) : BTree Resident Rrn × Option BtreeStatus → Prop
  | duplicate (meets : Meets Key.id k.id height tree) :
      BInsertPost b k tree (b, some .errorDuplicate)
  | grown {after : BTree Resident Rrn} {taller : Nat} {grown : Tree Rrn Key taller}
      {fresh : List Rrn}
      (grows : Grows Key.id b.config.order k tree taller grown fresh)
      (root : after.root = some (label taller grown))
      (config : after.config.order = b.config.order)
      (represents : Represents after.io.nodes taller grown)
      (changes : Changes b.io after.io (labels height tree) fresh)
      (written : ∀ n < stores Key.id b.config.order k height tree,
        b.io.ioFails (b.io.writes + n) = false) :
      BInsertPost b k tree (after, some .success)
  | failed {after : Resident} {rest : Tree Rrn Key height} {fresh : List Rrn} {n : Nat}
      (stops : Stops Key.id b.config.order k height tree rest n)
      (represents : Represents after.nodes height rest)
      (changes : Changes b.io after (labels height tree) fresh)
      (written : ∀ m < n, b.io.ioFails (b.io.writes + m) = false)
      (failed : b.io.ioFails (b.io.writes + n) = true) :
      BInsertPost b k tree ({ b with io := after }, some .errorIo)
  | exits {after : Resident} {left right : Tree Rrn Key height} {separator : Key}
      {fresh : List Rrn}
      (inserts : Inserts Key.id b.config.order k height tree (.halves left separator right) fresh)
      (written : ∀ n < 2 * fresh.length, b.io.ioFails (b.io.writes + n) = false)
      (failed : b.io.ioFails (b.io.writes + 2 * fresh.length) = true) :
      BInsertPost b k tree ({ b with io := after }, none)

theorem growRoot_resident (b : BTree Resident Rrn) (root : Rrn) (s : Resident) (promoKey : Key)
    (rChild : Rrn) :
    growRoot residentPager b root s promoKey rChild =
      let new := (getFreeRrn s.freeRrn).1
      let grown := (s.take.store new
        { keys := [promoKey], rrn := new, children := [(s.read root).rrn, (s.read rChild).rrn],
          nextLeaf := noRrn, leaf := false }).wrote
      if s.ioFails s.writes then ({ b with io := grown.drop new }, none)
      else
        ({ root := some new, config := { b.config with rootRrn := new }, io := grown },
          some .success) := by
  by_cases fails : s.ioFails s.writes
  · simp [growRoot, fails]
  · simp [growRoot, fails]

theorem finishInsert_drew (b : BTree Resident Rrn) (root : Rrn)
    (inserted : InsertResult Resident Rrn) :
    ∃ count, Drew inserted.1 (finishInsert residentPager b root inserted).1.io count := by
  rw [finishInsert]
  split
  · exact ⟨0, Drew.none rfl rfl⟩
  · split_ifs
    · rw [growRoot_resident]
      refine ⟨1, ?_⟩
      dsimp only
      split_ifs <;> exact Drew.one rfl rfl
    · exact ⟨0, Drew.none rfl rfl⟩

theorem growRoot_post {b : BTree Resident Rrn} {k : Key} {height : Nat}
    {tree left right : Tree Rrn Key height} {after : Resident} {separator : Key} {fresh : List Rrn}
    (stored : Growable b.config.order 0 b.io height tree)
    (inserts : Inserts Key.id b.config.order k height tree (.halves left separator right) fresh)
    (low : Represents after.nodes height left) (high : Represents after.nodes height right)
    (changes : Changes b.io after (labels height tree) fresh)
    (writes : after.writes = b.io.writes + 2 * fresh.length)
    (written : ∀ n < 2 * fresh.length, b.io.ioFails (b.io.writes + n) = false)
    (distinct : DistinctRrns (growRoot residentPager b (label height tree) after separator
      (label height right)).1.io.created) :
    BInsertPost b k tree
      (growRoot residentPager b (label height tree) after separator (label height right)) := by
  have same : label height left = label height tree := inserts.label
  rw [growRoot_resident] at distinct ⊢
  obtain ⟨new, taken⟩ : ∃ new, (getFreeRrn after.freeRrn).1 = new := ⟨_, rfl⟩
  simp only [taken, ← same, low.rrn, high.rrn, changes.ioFails, writes] at distinct ⊢
  by_cases fails : b.io.ioFails (b.io.writes + 2 * fresh.length)
  · rw [if_pos fails]
    exact .exits inserts written fails
  rw [if_neg fails] at distinct ⊢
  have grown : DistinctRrns (b.io.created ++ (fresh ++ [new])) := by
    simpa [taken, changes.created] using distinct
  have all := stored.separate grown
  have outside : new ∉ labels height left ++ labels height right := by
    rw [← List.append_assoc, List.nodup_append] at all
    exact fun member => all.2.2 new (inserts.labels.mem_iff.mp member) new (by simp) rfl
  have node : branchNode noRrn (Branch.mk new left [(separator, right)]) =
      { keys := [separator], rrn := new, children := [label height left, label height right],
        nextLeaf := noRrn, leaf := false } := rfl
  rw [← node]
  refine .grown (.taller inserts) rfl rfl
    (represents_branch after.nodes noRrn (by simp) ?_ ?_) ?_ (by rwa [inserts.stores_halves])
  · simp only [Branch.children, List.map_cons, List.map_nil, List.mem_cons, List.not_mem_nil,
      or_false]
    rintro child (rfl | rfl)
    · exact low
    · exact high
  · simp only [Branch.children, List.map_cons, List.map_nil, List.mem_cons, List.not_mem_nil,
      or_false]
    rintro child inside other listed
    have different : other ≠ new := by
      rintro rfl
      rcases inside with rfl | rfl
      · exact outside (List.mem_append_left _ listed)
      · exact outside (List.mem_append_right _ listed)
    simp [different]
  · refine ⟨fun other old fresh => ?_, by simp [taken, changes.created], changes.ioFails⟩
    simp only [List.mem_append, List.mem_singleton, not_or] at fresh
    simp [fresh.2, changes.nodes other old fresh.1]

theorem bInsert_post {b : BTree Resident Rrn} {id : CString} {rrn : Rrn} {height : Nat}
    {tree : Tree Rrn Key height} (three : 3 ≤ b.config.order)
    (root : b.root = some (label height tree)) (stored : Growable b.config.order 0 b.io height tree)
    (distinct : DistinctRrns (bInsert residentPager b id rrn).1.io.created) :
    BInsertPost b { id := id, dataRegisterRrn := rrn } tree (bInsert residentPager b id rrn) := by
  have whole : bInsert residentPager b id rrn =
      finishInsert residentPager b (label height tree)
        (insertKey residentPager b.config.order b.root depthLimit [] b.io (label height tree)
          { id := id, dataRegisterRrn := rrn } false) := by
    rw [bInsert, root]
  rw [whole] at distinct ⊢
  have inner : DistinctRrns (insertKey residentPager b.config.order b.root depthLimit [] b.io
      (label height tree) { id := id, dataRegisterRrn := rrn } false).1.created := by
    obtain ⟨count, drew⟩ := finishInsert_drew b (label height tree)
      (insertKey residentPager b.config.order b.root depthLimit [] b.io (label height tree)
        { id := id, dataRegisterRrn := rrn } false)
    rw [drew.created] at distinct
    exact distinct.of_append
  have post := insertKey_post three stored (height_lt_depthLimit stored.distinct) inner
  generalize insertKey residentPager b.config.order b.root depthLimit [] b.io
    (label height tree) { id := id, dataRegisterRrn := rrn } false = inserted at distinct post ⊢
  cases post with
  | duplicate promoted meets => exact .duplicate meets
  | done inserts represents changes writes written =>
      exact .grown (.level inserts) (root.trans (congrArg some inserts.label.symm)) rfl represents
        changes (by rwa [inserts.stores_whole])
  | promoted inserts low high changes writes written =>
      exact growRoot_post stored inserts low high changes writes written distinct
  | failed promoted stops represents changes written failed =>
      exact .failed stops represents changes written failed

def allocTreeBuf (config : BtreeConfig) (free : List Rrn) (ioFails : Nat → Bool) :
    BTree Resident Rrn :=
  { root := none
    config := config
    io :=
      { nodes := fun _ => none, freeRrn := free, created := [], ioFails := ioFails, writes := 0,
        tombstones := [] } }

def firstRrn (entries : List (CString × Rrn)) (id : CString) : Option Rrn :=
  (entries.find? fun entry => entry.1 = id).map Prod.snd

theorem firstRrn_append (entries : List (CString × Rrn)) (entry : CString × Rrn) (id : CString) :
    firstRrn (entries ++ [entry]) id =
      (firstRrn entries id).or (if entry.1 = id then some entry.2 else none) := by
  rw [firstRrn, firstRrn, List.find?_append, Option.map_or]
  by_cases same : entry.1 = id <;> simp [same]

structure Built (entries : List (CString × Rrn)) (b : BTree Resident Rrn) (height : Nat)
    (tree : Tree Rrn Key height) : Prop where
  valid : ValidBTree b height tree
  created : ∀ rrn ∈ labels height tree, rrn ∈ b.io.created
  separators : ∀ value, Item.separator value ∈ inorder height tree →
    Item.record value ∈ inorder height tree
  holds : ∀ key, key ∈ records height tree ↔ firstRrn entries key.id = some key.dataRegisterRrn

section Run

variable {b : BTree Resident Rrn} {entries : List (CString × Rrn)} {id : CString} {rrn : Rrn}
  {height : Nat} {tree : Tree Rrn Key height}

theorem Built.meets (built : Built entries b height tree)
    (meets : Meets Key.id id height tree) : ∃ rrn, firstRrn entries id = some rrn := by
  rcases meets with meets | ⟨value, member, rfl⟩
  · obtain ⟨separator, member, rfl⟩ :=
      (meetsSeparator_iff Key.id id built.valid.search.inOrder).mp meets
    have stored := built.separators separator ((mem_separators_iff _ _ _).mp member)
    exact ⟨_, (built.holds separator).mp ((mem_records_iff _ _ _).mpr stored)⟩
  · have stored : value ∈ records height tree :=
      List.mem_flatMap.mpr ⟨_, descend_mem Key.id value.id height tree, member⟩
    exact ⟨_, (built.holds value).mp stored⟩

theorem Built.grown {after : BTree Resident Rrn} {taller : Nat} {grown : Tree Rrn Key taller}
    {fresh : List Rrn} (three : 3 ≤ b.config.order) (built : Built entries b height tree)
    (named : id.isEmpty = false)
    (grows : Grows Key.id b.config.order { id := id, dataRegisterRrn := rrn } tree taller grown
      fresh)
    (root : after.root = some (label taller grown)) (config : after.config.order = b.config.order)
    (represents : Represents after.io.nodes taller grown)
    (changes : Changes b.io after.io (labels height tree) fresh)
    (distinct : DistinctRrns after.io.created) :
    Built (entries ++ [(id, rrn)]) after taller grown := by
  have lists := grows.lists built.valid.search.inOrder
  have filled := grows.filled (by omega) built.valid.filled
  have created : ∀ other ∈ labels taller grown, other ∈ after.io.created := by
    intro other member
    rw [changes.created, List.mem_append]
    exact (List.mem_append.mp (grows.labels.mem_iff.mp member)).imp_left (built.created other)
  refine ⟨⟨⟨root, represents, ?_, ?_, grows.linked built.valid.linked, ?_, ?_⟩, ?_⟩, created,
    lists.separators_stored built.separators, ?_⟩
  · exact .of_filled Key.id (lists.inOrder built.valid.search.inOrder) filled (by omega)
  · rw [config]
    exact filled
  · rw [grows.labels.nodup_iff]
    exact (Growable.mk built.valid.stored built.created).separate (changes.created ▸ distinct)
  · exact fun member => distinct.2 (created _ member)
  · intro item member
    rcases lists.values item member with same | ⟨old, oldMember, same⟩
    · rw [same]
      exact named
    · rw [← same]
      exact built.valid.named old oldMember
  · have new : firstRrn entries id = none := by
      rw [Option.eq_none_iff_forall_ne_some]
      intro other found
      have stored := (built.holds { id := id, dataRegisterRrn := other }).mpr found
      exact lists.ne_key _ ((mem_records_iff _ _ _).mp stored) rfl
    rintro ⟨other, otherRrn⟩
    rw [records_eq_filterMap, lists.mem_records, ← records_eq_filterMap, built.holds,
      firstRrn_append]
    by_cases same : id = other
    · subst same
      simp [new, eq_comm]
    · simp [same, Ne.symm same]

theorem createRoot_resident (b : BTree Resident Rrn) (k : Key) :
    createRoot residentPager b k =
      let new := (getFreeRrn b.io.freeRrn).1
      ({ b with
         root := some new
         io := (b.io.take.store new (leafNode (Leaf.mk new [k] noRrn))).wrote },
        some (if b.io.ioFails b.io.writes then .errorIo else .success)) := rfl

theorem built_root (empty : b.root = none) (named : id.isEmpty = false)
    (three : 3 ≤ b.config.order)
    (distinct : DistinctRrns (bInsert residentPager b id rrn).1.io.created) :
    Built [(id, rrn)] (bInsert residentPager b id rrn).1 0
      (Leaf.mk (getFreeRrn b.io.freeRrn).1 [{ id := id, dataRegisterRrn := rrn }] noRrn) := by
  have whole : bInsert residentPager b id rrn =
      createRoot residentPager b { id := id, dataRegisterRrn := rrn } := by
    rw [bInsert, empty]
  rw [whole, createRoot_resident] at distinct ⊢
  have new : (getFreeRrn b.io.freeRrn).1 ≠ noRrn := fun same => distinct.2 (by simp [same])
  refine ⟨⟨⟨rfl, ?_, ?_, ?_, ?_, ?_⟩, ?_⟩, ?_, ?_, ?_⟩
  · simp [Represents]
  · simp [SearchTree]
  · simp only [Filled, List.length_singleton]
    omega
  · simp [leaves, Linked]
  · simpa [DistinctRrns, labels] using new.symm
  · simpa [inorder] using named
  · simp [labels]
  · simp [inorder]
  · rintro ⟨other, otherRrn⟩
    simp [records_leaf, firstRrn, eq_comm]

theorem Built.duplicate (built : Built entries b height tree) (id : CString) (rrn : Rrn)
    (known : firstRrn entries id ≠ none) :
    bInsert residentPager b id rrn = (b, some .errorDuplicate) := by
  obtain ⟨first, found⟩ := Option.ne_none_iff_exists'.mp known
  have held := (built.holds { id := id, dataRegisterRrn := first }).mpr found
  have stored := built.valid.stored
  have meets : Meets Key.id id height tree := meets_of_mem Key.id stored.inOrder held
  have stopped := @insertKey_meets _ _ _ [] _ { id := id, dataRegisterRrn := rrn } false depthLimit
    b.root _ stored (height_lt_depthLimit stored.distinct) meets
  rw [bInsert, built.valid.root]
  dsimp only
  rw [← built.valid.root, stopped]
  rfl

structure RunState (order : Nat) (entries : List (CString × Rrn)) (b : BTree Resident Rrn) :
    Prop where
  order : b.config.order = order
  works : ∀ n, b.io.ioFails n = false
  tree : (entries = [] ∧ b.root = none ∧ b.io.created = []) ∨
    ∃ height tree, Built entries b height tree

theorem RunState.step {order : Nat} (state : RunState order entries b) (three : 3 ≤ order)
    (named : id.isEmpty = false)
    (distinct : DistinctRrns (bInsert residentPager b id rrn).1.io.created) :
    RunState order (entries ++ [(id, rrn)]) (bInsert residentPager b id rrn).1 ∧
      (bInsert residentPager b id rrn).2.isSome := by
  obtain ⟨order, works, ⟨rfl, empty, start⟩ | ⟨height, tree, built⟩⟩ := state
  · have whole : bInsert residentPager b id rrn =
        createRoot residentPager b { id := id, dataRegisterRrn := rrn } := by
      rw [bInsert, empty]
    have built := built_root empty named (by omega) distinct
    rw [whole, createRoot_resident] at built ⊢
    exact ⟨⟨order, works, Or.inr ⟨0, _, built⟩⟩, rfl⟩
  · subst order
    have post := bInsert_post three built.valid.root ⟨built.valid.stored, built.created⟩ distinct
    generalize bInsert residentPager b id rrn = result at post distinct ⊢
    cases post with
    | duplicate meets =>
        obtain ⟨first, found⟩ := built.meets meets
        refine ⟨⟨rfl, works, Or.inr ⟨height, tree, ?_⟩⟩, rfl⟩
        refine ⟨built.valid, built.created, built.separators, fun key => ?_⟩
        rw [built.holds, firstRrn_append]
        by_cases same : id = key.id
        · simp [← same, found]
        · simp [same]
    | grown grows root config represents changes written =>
        have next := built.grown three named grows root config represents changes distinct
        exact ⟨⟨config, by simpa [changes.ioFails] using works, Or.inr ⟨_, _, next⟩⟩, rfl⟩
    | failed stops represents changes written failed => simp [works] at failed
    | exits inserts written failed => simp [works] at failed

theorem bInsert_drew (b : BTree Resident Rrn) (id : CString) (rrn : Rrn) :
    ∃ count, Drew b.io (bInsert residentPager b id rrn).1.io count := by
  rw [bInsert]
  split
  · exact ⟨1, Drew.one rfl rfl⟩
  · obtain ⟨count, below⟩ := insertKey_drew
    obtain ⟨more, above⟩ := finishInsert_drew b _ _
    exact ⟨count + more, below.trans above⟩

theorem insertAll_drew (b : BTree Resident Rrn) (entries : List (CString × Rrn)) :
    ∃ count, Drew b.io (insertAll residentPager b entries).io count := by
  induction entries generalizing b with
  | nil => exact ⟨0, Drew.none rfl rfl⟩
  | cons entry entries ih =>
      obtain ⟨count, first⟩ := bInsert_drew b entry.1 entry.2
      rw [insertAll]
      split
      · exact ⟨count, first⟩
      · obtain ⟨more, later⟩ := ih (bInsert residentPager b entry.1 entry.2).1
        exact ⟨count + more, first.trans later⟩

theorem RunState.run {order : Nat} {rest : List (CString × Rrn)} (three : 3 ≤ order)
    (state : RunState order entries b) (named : ∀ entry ∈ rest, entry.1.isEmpty = false)
    (distinct : DistinctRrns (insertAll residentPager b rest).io.created) :
    RunState order (entries ++ rest) (insertAll residentPager b rest) := by
  induction rest generalizing entries b with
  | nil => simpa [insertAll] using state
  | cons entry rest ih =>
      have reached : DistinctRrns (bInsert residentPager b entry.1 entry.2).1.io.created := by
        rw [insertAll] at distinct
        split at distinct
        · exact distinct
        · obtain ⟨count, later⟩ :=
            insertAll_drew (bInsert residentPager b entry.1 entry.2).1 rest
          rw [later.created] at distinct
          exact distinct.of_append
      obtain ⟨next, returned⟩ := state.step three (named entry (by simp)) reached
      obtain ⟨status, returned⟩ := Option.isSome_iff_exists.mp returned
      have unfolded : insertAll residentPager b (entry :: rest) =
          insertAll residentPager (bInsert residentPager b entry.1 entry.2).1 rest := by
        rw [insertAll, returned]
      rw [unfolded] at distinct ⊢
      have whole := ih next (fun other member => named other (by simp [member])) distinct
      simpa using whole

theorem RunState.start (config : BtreeConfig) (free : List Rrn) :
    RunState config.order [] (allocTreeBuf config free fun _ => false) :=
  ⟨rfl, fun _ => rfl, Or.inl ⟨rfl, rfl, rfl⟩⟩

theorem firstRrn_ne_none (entries : List (CString × Rrn)) (id : CString)
    (member : id ∈ entries.map Prod.fst) : firstRrn entries id ≠ none := by
  obtain ⟨entry, inside, rfl⟩ := List.mem_map.mp member
  intro none
  simp only [firstRrn, Option.map_eq_none_iff, List.find?_eq_none, decide_eq_true_eq] at none
  exact none entry inside rfl

/-- Every run of insertions from the empty tree keeps a valid B+ tree with the first insertion of
every id, and inserting one of these ids again changes nothing. -/
theorem insertAll_correct (config : BtreeConfig) (free : List Rrn)
    (entries : List (CString × Rrn)) (three : 3 ≤ config.order)
    (named : ∀ entry ∈ entries, entry.1.isEmpty = false)
    (distinct : DistinctRrns (insertAll residentPager
      (allocTreeBuf config free fun _ => false) entries).io.created) :
    let b := insertAll residentPager (allocTreeBuf config free fun _ => false) entries
    ((entries = [] ∧ b.root = none) ∨
      ∃ height tree, ValidBTree b height tree ∧
        ∀ key, key ∈ records height tree ↔ firstRrn entries key.id = some key.dataRegisterRrn) ∧
    ∀ id ∈ entries.map Prod.fst, ∀ rrn,
      bInsert residentPager b id rrn = (b, some .errorDuplicate) := by
  intro b
  have state := (RunState.start config free).run three named distinct
  obtain ⟨_, _, ⟨empty, root, _⟩ | ⟨height, tree, built⟩⟩ := state
  · have none : entries = [] := by simpa using empty
    refine ⟨Or.inl ⟨none, root⟩, ?_⟩
    simp [none]
  · exact ⟨Or.inr ⟨height, tree, built.valid, built.holds⟩, fun id member rrn =>
      built.duplicate id rrn (firstRrn_ne_none entries id member)⟩

end Run

instance byteRange : NeZero 255 := ⟨Nat.succ_ne_zero 254⟩

def singleId (byte : Fin 255) : CString :=
  ⟨[byte.val + 1], by simp; omega⟩

def smallConfig : BtreeConfig := { schemaSize := 16, order := 3, rootRrn := 0, headerSize := 0 }

def threeEntries : List (CString × Rrn) := [(singleId 97, 1), (singleId 98, 2), (singleId 99, 3)]

def threeTree : BTree Resident Rrn :=
  insertAll residentPager (allocTreeBuf smallConfig [1, 2, 3] fun _ => false) threeEntries

theorem threeTree_distinct : DistinctRrns threeTree.io.created := by
  decide +kernel

theorem insertAll_correct_three :
    (∃ height tree, ValidBTree threeTree height tree ∧
      ∀ key, key ∈ records height tree ↔ firstRrn threeEntries key.id = some key.dataRegisterRrn) ∧
    ∀ id ∈ threeEntries.map Prod.fst, ∀ rrn,
      bInsert residentPager threeTree id rrn = (threeTree, some .errorDuplicate) := by
  obtain ⟨built, known⟩ := insertAll_correct smallConfig [1, 2, 3] threeEntries (by decide)
    (by decide) threeTree_distinct
  exact ⟨built.resolve_left fun empty => absurd empty.1 (by decide), known⟩

end Gaveta
