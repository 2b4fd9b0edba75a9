import Gaveta.BTree.Insert
import Gaveta.BTree.Remove

/-! Properties of a storage that hold after every tree operation because every access keeps them. -/

namespace Gaveta

variable {σ ρ : Type}

/-- A property of the states of a storage that every access keeps while `root` is in use, if there is
one, and while all keys are `allowed`.  The operations write a node back under the record number that
they have read. -/
structure Pager.Keeps (pager : Pager σ ρ) (root : Option ρ) (allowed : Key → Prop)
    (inv : σ → Prop) : Prop where
  keys : ∀ {s} p, inv s → ∀ key ∈ (pager.node s p).keys, allowed key
  setNode : ∀ {s p node}, inv s → node.rrn = (pager.node s p).rrn →
    (∀ key ∈ node.keys, allowed key) → inv (pager.setNode s p node)
  halves : ∀ {s p left right}, inv s → left.rrn = (pager.node s p).rrn →
    (∀ key ∈ left.keys, allowed key) → (∀ key ∈ right.keys, allowed key) →
    inv (pager.setNode (pager.allocBtreeNode s right).1 p left)
  allocBtreeNode : ∀ {s node}, inv s → (∀ key ∈ node.keys, allowed key) →
    inv (pager.allocBtreeNode s node).1
  allocated : ∀ {s node}, inv s → (∀ key ∈ node.keys, allowed key) →
    root ≠ some (pager.allocBtreeNode s node).2
  clearBtreeNode : ∀ {s} p, inv s → root ≠ some p → inv (pager.clearBtreeNode s p)
  loadBtreeNode : ∀ {s held} rrn, inv s → (∀ p ∈ root, p ∈ held) →
    inv (pager.loadBtreeNode held s rrn).1
  writeIndexRecord : ∀ {s held} p, inv s → (∀ p ∈ root, p ∈ held) →
    inv (pager.writeIndexRecord held s p).1
  getFreeRrn : ∀ {s}, inv s → inv (pager.getFreeRrn s).1
  insertFreeRrn : ∀ {s} rrn, inv s → inv (pager.insertFreeRrn s rrn)
  writeTombstone : ∀ {s} rrn, inv s → inv (pager.writeTombstone s rrn).1

theorem splitNode_left_rrn (order : Nat) (p : BtreeNode) (incomingKey : Key)
    (rChild : Option Rrn) (newRrn : Rrn) :
    (splitNode order p incomingKey rChild newRrn).left.rrn = p.rrn := by
  rw [splitNode]
  split <;> rfl

theorem splitNode_keys {allowed : Key → Prop} (order : Nat) {p : BtreeNode} {incomingKey : Key}
    (rChild : Option Rrn) (newRrn : Rrn) (old : ∀ key ∈ p.keys, allowed key)
    (new : allowed incomingKey) :
    (∀ key ∈ (splitNode order p incomingKey rChild newRrn).left.keys, allowed key) ∧
      allowed (splitNode order p incomingKey rChild newRrn).promoKey ∧
      ∀ key ∈ (splitNode order p incomingKey rChild newRrn).right.keys, allowed key := by
  rw [splitNode]
  generalize splitPosition p.keys incomingKey.id p.keysNum = pos
  have opened : ∀ key ∈ openSlot p.keys pos incomingKey, allowed key := by
    intro key member
    rcases mem_openSlot.mp member with rfl | member
    · exact new
    · exact old key member
  dsimp only
  split
  · refine ⟨fun key member => opened key (List.mem_of_mem_take member), ?_,
      fun key member => opened key (List.mem_of_mem_drop (List.mem_of_mem_take member))⟩
    rw [List.headD_eq_head?_getD]
    cases found : (List.head? _ : Option Key) with
    | none => exact new
    | some key =>
        exact opened key (List.mem_of_mem_drop (List.mem_of_mem_take (List.mem_of_mem_head? found)))
  · refine ⟨fun key member => opened key (List.mem_of_mem_take member), ?_,
      fun key member => opened key (List.mem_of_mem_drop (List.mem_of_mem_take member))⟩
    rw [List.getD_eq_getElem?_getD]
    cases found : (openSlot p.keys pos incomingKey)[(order - 1) / 2]? with
    | none => exact new
    | some key => exact opened key (List.mem_of_getElem? found)

namespace Pager.Keeps

variable {pager : Pager σ ρ} {inv : σ → Prop} {allowed : Key → Prop} {top : Option ρ}

structure Inserted (inv : σ → Prop) (allowed : Key → Prop) (result : InsertResult σ ρ) : Prop where
  state : inv result.1
  promoted : ∀ promoKey rChild, result.2.1 = .promotion promoKey rChild → allowed promoKey

theorem Inserted.status {s : σ} {status : BtreeStatus} {promoted : Bool} (state : inv s) :
    Inserted (ρ := ρ) inv allowed (s, .status status, promoted) :=
  ⟨state, fun _ _ same => by cases same⟩

section Insert

variable {s : σ}

theorem split (keeps : pager.Keeps top allowed inv) (order : Nat) {held : List ρ} {p : ρ}
    {incomingKey : Key} (rChild : Option ρ) (promoted : Bool) (start : inv s)
    (new : allowed incomingKey) (inUse : ∀ q ∈ top, q ∈ p :: held) :
    Inserted inv allowed (split pager order held s p incomingKey rChild promoted) := by
  have taken := keeps.getFreeRrn start
  have named := splitNode_left_rrn order (pager.node (pager.getFreeRrn s).1 p) incomingKey
    (rChild.map fun child => (pager.node (pager.getFreeRrn s).1 child).rrn)
    (pager.getFreeRrn s).2
  obtain ⟨lower, middle, upper⟩ := splitNode_keys order
    (rChild.map fun child => (pager.node (pager.getFreeRrn s).1 child).rrn)
    (pager.getFreeRrn s).2 (keeps.keys p taken) new
  have halved := keeps.halves taken named lower upper
  have other := keeps.allocated taken upper
  have framed : ∀ new, ∀ q ∈ top, q ∈ new :: p :: (rChild.toList ++ held) := by
    intro new q used
    have listed := inUse q used
    simp only [List.mem_cons, List.mem_append] at listed ⊢
    tauto
  simp only [Gaveta.split]
  split_ifs
  · exact .status taken
  · exact .status (keeps.clearBtreeNode _ (keeps.writeIndexRecord _ halved (framed _)) other)
  · exact .status (keeps.clearBtreeNode _
      (keeps.writeIndexRecord _ (keeps.writeIndexRecord _ halved (framed _)) (framed _)) other)
  · refine ⟨keeps.writeIndexRecord _ (keeps.writeIndexRecord _ halved (framed _)) (framed _), ?_⟩
    rintro _ _ ⟨⟩
    exact middle

theorem placeKey (keeps : pager.Keeps top allowed inv) (order : Nat) {held : List ρ} {p : ρ}
    {k : Key} (rChild : Option ρ) (pos : Nat) (promoted : Bool) (start : inv s) (new : allowed k)
    (inUse : ∀ q ∈ top, q ∈ p :: held) :
    Inserted inv allowed (placeKey pager order held s p k rChild pos promoted) := by
  rw [Gaveta.placeKey]
  split_ifs
  · refine .status (keeps.writeIndexRecord _ (keeps.setNode start rfl ?_) fun q used => ?_)
    · intro key member
      rcases mem_openSlot.mp member with rfl | member
      · exact new
      · exact keeps.keys p start key member
    · have listed := inUse q used
      simp only [List.mem_cons, List.mem_append] at listed ⊢
      tauto
  · exact keeps.split order rChild promoted start new inUse

theorem growRoot (keeps : pager.Keeps top allowed inv) (b : BTree σ ρ) {root : ρ} {promoKey : Key}
    (rChild : ρ) (start : inv s) (new : allowed promoKey) (inUse : ∀ q ∈ top, q = root) :
    inv (growRoot pager b root s promoKey rChild).1.io := by
  have taken := keeps.getFreeRrn start
  have framed : ∀ new, ∀ q ∈ top, q ∈ [new, rChild, root] := by
    intro new q used
    simp [inUse q used]
  have single : ∀ key ∈ [promoKey], allowed key := by simpa using new
  have written := fun (node : BtreeNode) (keys : node.keys = [promoKey]) new p =>
    keeps.writeIndexRecord p (keeps.allocBtreeNode taken (keys ▸ single)) (framed new)
  simp only [Gaveta.growRoot]
  split_ifs
  · exact keeps.clearBtreeNode _ (written _ rfl _ _) (keeps.allocated taken single)
  · exact written _ rfl _ _

variable [DecidableEq ρ]

theorem dropUncached (keeps : pager.Keeps top allowed inv) {root : Option ρ}
    (same : ∀ q ∈ top, root = some q) (child : ρ) (start : inv s) :
    inv (dropUncached pager root s child) := by
  rw [Gaveta.dropUncached]
  split_ifs with uncached
  · exact keeps.clearBtreeNode child start fun here => uncached.1 (same child here)
  · exact start

theorem insertKey (keeps : pager.Keeps top allowed inv) (order : Nat) {root : Option ρ}
    (same : ∀ q ∈ top, root = some q) (fuel : Nat) {held : List ρ} {p : ρ} {k : Key}
    (promoted : Bool) (start : inv s) (new : allowed k) (inUse : ∀ q ∈ top, q ∈ p :: held) :
    Inserted inv allowed (insertKey pager order root fuel held s p k promoted) := by
  induction fuel generalizing held s p promoted with
  | zero => exact .status start
  | succ fuel ih =>
      rw [Gaveta.insertKey]
      dsimp only
      split_ifs
      · exact .status start
      · exact keeps.placeKey order none _ promoted start new inUse
      · have loaded := keeps.loadBtreeNode
          ((pager.node s p).child (searchInBtreeNode (pager.node s p) k.id).2) start inUse
        split
        · exact .status loaded
        · rename_i child _
          have deeper : ∀ q ∈ top, q ∈ child :: p :: held := fun q used =>
            List.mem_cons_of_mem _ (inUse q used)
          have inserted := ih promoted loaded deeper
          have below := keeps.dropUncached same child inserted.state
          split
          · exact .status below
          · rename_i promoKey rChild promotes
            refine keeps.placeKey order _ _ _ below (inserted.promoted _ _ promotes) ?_
            intro q used
            have listed := inUse q used
            simp only [List.mem_cons] at listed ⊢
            tauto

omit [DecidableEq ρ] in
theorem finishInsert {b : BTree σ ρ} (keeps : pager.Keeps top allowed inv) {root : ρ}
    {result : InsertResult σ ρ} (inserted : Inserted inv allowed result)
    (inUse : ∀ q ∈ top, q = root) : inv (finishInsert pager b root result).1.io := by
  rw [Gaveta.finishInsert]
  split
  · exact inserted.state
  · rename_i promoKey rChild promotes
    split_ifs
    · exact keeps.growRoot b rChild inserted.state (inserted.promoted _ _ promotes) inUse
    · exact inserted.state

theorem bInsert {b : BTree σ ρ} (keeps : pager.Keeps top allowed inv)
    (same : ∀ q ∈ top, b.root = some q) (id : CString) (rrn : Rrn) (start : inv b.io)
    (new : allowed { id := id, dataRegisterRrn := rrn }) :
    inv (bInsert pager b id rrn).1.io := by
  rw [Gaveta.bInsert]
  split
  · rename_i empty
    refine keeps.writeIndexRecord _ (keeps.allocBtreeNode (keeps.getFreeRrn start) ?_) ?_
    · simpa using new
    · intro q used
      cases empty.symm.trans (same q used)
  · rename_i root found
    have top_eq : ∀ q ∈ top, q = root := fun q used =>
      (Option.some.inj (found.symm.trans (same q used))).symm
    refine keeps.finishInsert (keeps.insertKey _ same _ _ start new ?_) top_eq
    simpa using top_eq

theorem insertAll {b : BTree σ ρ} (keeps : pager.Keeps none allowed inv)
    (entries : List (CString × Rrn)) (start : inv b.io)
    (new : ∀ entry ∈ entries, allowed { id := entry.1, dataRegisterRrn := entry.2 }) :
    inv (insertAll pager b entries).io := by
  induction entries generalizing b with
  | nil => exact start
  | cons entry rest ih =>
      have first := keeps.bInsert (by simp) entry.1 entry.2 start (new entry (by simp))
      rw [Gaveta.insertAll]
      split
      · exact first
      · exact ih first fun other member => new other (by simp [member])

end Insert

section Remove

variable {s : σ} {root : ρ}

theorem setKeys (keeps : pager.Keeps top allowed inv) (p : ρ) {keys : List Key} (start : inv s)
    (known : ∀ key ∈ keys, allowed key) :
    inv (pager.setNode s p { pager.node s p with keys := keys }) :=
  keeps.setNode start rfl known

theorem redistribute (keeps : pager.Keeps top allowed inv) (same : ∀ q ∈ top, q = root)
    (donor receiver : ρ) (fromLeft : Bool) (start : inv s) :
    inv (redistribute pager root s donor receiver fromLeft).1 := by
  have inUse : ∀ q ∈ top, q ∈ [donor, receiver, root] := by
    intro q used
    simp [same q used]
  have given := keeps.keys donor start
  have taken := keeps.keys receiver start
  have moved := fun grown kept (known : ∀ key ∈ grown, allowed key)
      (left : ∀ key ∈ kept, allowed key) =>
    keeps.writeIndexRecord donor
      (keeps.setKeys donor (keeps.setKeys receiver start known) left) inUse
  rw [Gaveta.redistribute]
  dsimp only
  have known : ∀ key ∈ (if fromLeft = true then
      (pager.node s donor).keys.getLast?.toList ++ (pager.node s receiver).keys
      else (pager.node s receiver).keys ++ (pager.node s donor).keys.head?.toList),
      allowed key := by
    intro key member
    split_ifs at member
    · rcases List.mem_append.mp member with last | old
      · exact given key (List.mem_of_getLast? (Option.mem_toList.mp last))
      · exact taken key old
    · rcases List.mem_append.mp member with old | first
      · exact taken key old
      · exact given key (List.mem_of_mem_head? (Option.mem_toList.mp first))
  have left : ∀ key ∈ (if fromLeft = true then (pager.node s donor).keys.dropLast
      else (pager.node s donor).keys.tail), allowed key := by
    intro key member
    split_ifs at member
    · exact given key ((List.dropLast_subset _) member)
    · exact given key (List.mem_of_mem_tail member)
  generalize (if fromLeft = true then _ else _ : List Key) = grown at known ⊢
  generalize (if fromLeft = true then _ else _ : List Key) = kept at left ⊢
  split
  · exact moved grown kept known left
  · exact keeps.writeIndexRecord _ (moved grown kept known left) inUse

theorem merge (keeps : pager.Keeps top allowed inv) (same : ∀ q ∈ top, q = root)
    (left right : ρ) (start : inv s) :
    inv (merge pager root s left right).1 := by
  have joined : inv (pager.setNode s left
      { pager.node s left with
        keys := (pager.node s left).keys ++ (pager.node s right).keys
        nextLeaf := (pager.node s right).nextLeaf }) := by
    refine keeps.setNode start rfl fun key member => ?_
    rcases List.mem_append.mp member with member | member
    · exact keeps.keys left start key member
    · exact keeps.keys right start key member
  have grown : inv (pager.writeIndexRecord [left, right, root] _ left).1 :=
    keeps.writeIndexRecord left joined fun q used => by simp [same q used]
  rw [Gaveta.merge]
  dsimp only
  split
  · exact grown
  · exact keeps.insertFreeRrn _ grown

variable [DecidableEq ρ]

theorem searchKey (keeps : pager.Keeps top allowed inv) {above : Option ρ}
    (same : ∀ q ∈ top, above = some q) (fuel : Nat) {held : List ρ} {p : ρ}
    (id : CString) (start : inv s) (inUse : ∀ q ∈ top, q ∈ p :: held) :
    inv (searchKey pager above fuel held s p id).1 := by
  induction fuel generalizing held s p with
  | zero => exact start
  | succ fuel ih =>
      rw [Gaveta.searchKey]
      dsimp only
      split_ifs
      · exact start
      · exact start
      · have loaded := keeps.loadBtreeNode
          ((pager.node s p).child (searchInBtreeNode (pager.node s p) id).2) start inUse
        split
        · exact loaded
        · exact keeps.dropUncached same _ (ih loaded fun q used =>
            List.mem_cons_of_mem _ (inUse q used))

theorem bSearch {b : BTree σ ρ} (keeps : pager.Keeps top allowed inv)
    (same : ∀ q ∈ top, b.root = some q) (id : CString) (start : inv b.io) :
    inv (bSearch pager b id).1.io := by
  rw [Gaveta.bSearch]
  split
  · exact start
  · rename_i root found
    have searched : inv (Gaveta.searchKey pager b.root depthLimit [] b.io root id).1 :=
      keeps.searchKey same depthLimit id start fun q used => by
        simp [Option.some.inj (found.symm.trans (same q used))]
    dsimp only
    split
    · exact searched
    · split_ifs <;> exact searched

omit [DecidableEq ρ] in
theorem findBelow {loadRrn : σ → Rrn → σ × Option ρ} {find : σ → ρ → σ × Option ρ}
    {drop : σ → ρ → σ} (loads : ∀ {s} rrn, inv s → inv (loadRrn s rrn).1)
    (finds : ∀ {s} child, inv s → inv (find s child).1)
    (drops : ∀ {s} child, inv s → inv (drop s child)) (rrns : List Rrn) (start : inv s) :
    inv (findBelow loadRrn find drop s rrns).1 := by
  induction rrns generalizing s with
  | nil => exact start
  | cons rrn rest ih =>
      have loaded := loads rrn start
      rw [Gaveta.findBelow]
      dsimp only
      split
      · exact ih loaded
      · rename_i child _
        have dropped := drops child (finds child loaded)
        split
        · exact dropped
        · exact ih dropped

theorem findParent (keeps : pager.Keeps top allowed inv) (same : ∀ q ∈ top, q = root)
    (fuel : Nat) {held : List ρ}
    {current : ρ} (target : ρ) (start : inv s) (inUse : ∀ q ∈ top, q ∈ current :: held) :
    inv (findParent pager root fuel held s current target).1 := by
  induction fuel generalizing held s current with
  | zero => exact start
  | succ fuel ih =>
      rw [Gaveta.findParent]
      split_ifs
      · exact start
      · exact start
      · exact start
      · refine findBelow (fun rrn before => keeps.loadBtreeNode rrn before ?_)
          (fun child before => ih before fun q used => List.mem_cons_of_mem _ (inUse q used))
          (fun child => keeps.dropUncached (fun q used => congrArg some (same q used).symm) child) _
          start
        intro q used
        have listed := inUse q used
        simp only [List.mem_cons] at listed ⊢
        tauto

theorem getSibling (keeps : pager.Keeps top allowed inv) (same : ∀ q ∈ top, q = root) (p : ρ)
    (left : Bool) (start : inv s) :
    inv (getSibling pager root s p left).1 := by
  have searched : inv (Gaveta.findParent pager root depthLimit [p] s root p).1 :=
    keeps.findParent same depthLimit p start fun q used => by simp [same q used]
  have inUse : ∀ parent, ∀ q ∈ top, q ∈ [parent, p, root] := by
    intro parent q used
    simp [same q used]
  rw [Gaveta.getSibling]
  dsimp only
  split
  · exact searched
  · split_ifs
    · exact keeps.loadBtreeNode _ searched (inUse _)
    · exact keeps.loadBtreeNode _ searched (inUse _)
    · exact searched

theorem rebalance (keeps : pager.Keeps top allowed inv) (same : ∀ q ∈ top, q = root)
    (order : Nat) (p : ρ) (start : inv s) :
    inv (rebalance pager order root s p).1 := by
  have onLeft := keeps.getSibling same p true start
  have onRight := keeps.getSibling same p false onLeft
  rw [Gaveta.rebalance]
  dsimp only
  split
  · exact keeps.redistribute same _ p true onLeft
  · split
    · exact keeps.redistribute same _ p false onRight
    · split
      · exact keeps.merge same _ p onRight
      · exact keeps.merge same p _ onRight
      · exact onRight

omit [DecidableEq ρ] in
theorem releaseRecord (keeps : pager.Keeps top allowed inv) (rrn : Rrn) (start : inv s) :
    inv (if rrn ≠ noRrn then
      if (pager.writeTombstone s rrn).2 then
        pager.insertFreeRrn (pager.writeTombstone s rrn).1 rrn
      else (pager.writeTombstone s rrn).1
    else s) := by
  have marked := keeps.writeTombstone rrn start
  split_ifs
  · exact keeps.insertFreeRrn rrn marked
  · exact marked
  · exact start

theorem bRemove {b : BTree σ ρ} (keeps : pager.Keeps top allowed inv)
    (same : ∀ q ∈ top, b.root = some q) (id : CString) (start : inv b.io) :
    ((bRemove pager b id).1.root = none ∧ top ≠ none) ∨ inv (bRemove pager b id).1.io := by
  rw [Gaveta.bRemove]
  split
  · exact Or.inr start
  · rename_i root found
    have searched := keeps.bSearch same id start
    have top_eq : ∀ q ∈ top, q = root := fun q used =>
      (Option.some.inj (found.symm.trans (same q used))).symm
    dsimp only
    split
    · exact Or.inr searched
    · split
      · exact Or.inr searched
      · rename_i p _ _ key _
        have erased := keeps.setKeys p searched fun other member =>
          keeps.keys p searched other
            (List.mem_of_mem_eraseIdx (i := (Gaveta.bSearch pager b id).2.2.toNat) member)
        split
        · exact Or.inr searched
        · split
          · exact Or.inr searched
          · have freed := keeps.releaseRecord key.dataRegisterRrn erased
            generalize (if key.dataRegisterRrn ≠ noRrn then _ else _ : σ) = stored at freed ⊢
            have written : inv (pager.writeIndexRecord [p, root] stored p).1 :=
              keeps.writeIndexRecord p freed fun q used => by simp [top_eq q used]
            split
            · cases top with
              | none => exact Or.inr (keeps.clearBtreeNode _ freed (by simp))
              | some _ => exact Or.inl ⟨rfl, by simp⟩
            · split
              · exact Or.inr written
              · split
                · exact Or.inr (keeps.rebalance top_eq _ p written)
                · exact Or.inr written

end Remove

end Pager.Keeps

end Gaveta
