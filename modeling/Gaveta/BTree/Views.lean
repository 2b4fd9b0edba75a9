import Gaveta.BTree.CachedRemoval

/-! Storages that keep something besides what another storage keeps. -/

namespace Gaveta

variable {σ τ ρ : Type}

/-- `fine` does and answers what `plain` does on what `view` shows of its states. -/
structure Pager.Views (fine : Pager σ ρ) (plain : Pager τ ρ) (view : σ → τ) : Prop where
  node : ∀ s p, fine.node s p = plain.node (view s) p
  setNode : ∀ s p node, view (fine.setNode s p node) = plain.setNode (view s) p node
  alloc : ∀ s node, view (fine.allocBtreeNode s node).1 = (plain.allocBtreeNode (view s) node).1
  allocated : ∀ s node, (fine.allocBtreeNode s node).2 = (plain.allocBtreeNode (view s) node).2
  clear : ∀ s p, view (fine.clearBtreeNode s p) = plain.clearBtreeNode (view s) p
  cached : ∀ s p, fine.cached s p = plain.cached (view s) p
  load : ∀ held s rrn,
    view (fine.loadBtreeNode held s rrn).1 = (plain.loadBtreeNode held (view s) rrn).1
  loaded : ∀ held s rrn,
    (fine.loadBtreeNode held s rrn).2 = (plain.loadBtreeNode held (view s) rrn).2
  write : ∀ held s p,
    view (fine.writeIndexRecord held s p).1 = (plain.writeIndexRecord held (view s) p).1
  written : ∀ held s p,
    (fine.writeIndexRecord held s p).2 = (plain.writeIndexRecord held (view s) p).2
  take : ∀ s, view (fine.getFreeRrn s).1 = (plain.getFreeRrn (view s)).1
  taken : ∀ s, (fine.getFreeRrn s).2 = (plain.getFreeRrn (view s)).2
  free : ∀ s rrn, view (fine.insertFreeRrn s rrn) = plain.insertFreeRrn (view s) rrn
  mark : ∀ s rrn, view (fine.writeTombstone s rrn).1 = (plain.writeTombstone (view s) rrn).1
  marked : ∀ s rrn, (fine.writeTombstone s rrn).2 = (plain.writeTombstone (view s) rrn).2

def Seen {α : Type} (view : σ → τ) (fine : σ × α) (plain : τ × α) : Prop :=
  view fine.1 = plain.1 ∧ fine.2 = plain.2

def BTree.seen (view : σ → τ) (b : BTree σ ρ) : BTree τ ρ where
  root := b.root
  config := b.config
  io := view b.io

theorem bRemove_eq [DecidableEq ρ] {pager : Pager σ ρ} {b after : BTree σ ρ} {root : ρ}
    {found : Option ρ} {pos : UInt16} {keyId : CString} (rooted : b.root = some root)
    (searched : bSearch pager b keyId = (after, found, pos)) :
    bRemove pager b keyId =
      match found with
      | none => (after, some .notFoundKey)
      | some p =>
          match (pager.node after.io p).keys[pos.toNat]? with
          | none => (after, none)
          | some key =>
              if strcmp key.id keyId ≠ 0 then (after, some .notFoundKey)
              else if (pager.node after.io p).leaf = false then (after, some .success)
              else removeSlot pager b root after.io p pos.toNat key := by
  obtain ⟨top, config, s⟩ := b
  cases rooted
  cases found with
  | none => simp only [bRemove, searched]
  | some p =>
      cases slot : (pager.node after.io p).keys[pos.toNat]? with
      | none => simp only [bRemove, searched, slot]
      | some key =>
          simp only [bRemove, searched, slot]
          rfl

namespace Pager.Views

variable [DecidableEq ρ] {fine : Pager σ ρ} {plain : Pager τ ρ} {view : σ → τ} {s : σ}

omit [DecidableEq ρ] in
theorem split (views : fine.Views plain view) (order : Nat) (held : List ρ) (p : ρ)
    (incomingKey : Key) (rChild : Option ρ) (promoted : Bool) :
    Seen view (split fine order held s p incomingKey rChild promoted)
      (split plain order held (view s) p incomingKey rChild promoted) := by
  simp only [Gaveta.split, views.taken, views.take, views.node, views.alloc, views.allocated,
    views.setNode, views.written, views.write]
  split_ifs
  · exact ⟨views.take s, rfl⟩
  · simp only [Seen, views.clear, views.write, views.setNode, views.alloc, views.take, and_self]
  · simp only [Seen, views.clear, views.write, views.setNode, views.alloc, views.take, and_self]
  · simp only [Seen, views.write, views.setNode, views.alloc, views.take, and_self]

omit [DecidableEq ρ] in
theorem placeKey (views : fine.Views plain view) (order : Nat) (held : List ρ) (p : ρ) (k : Key)
    (rChild : Option ρ) (pos : Nat) (promoted : Bool) :
    Seen view (placeKey fine order held s p k rChild pos promoted)
      (placeKey plain order held (view s) p k rChild pos promoted) := by
  simp only [Gaveta.placeKey, views.node, views.written, views.setNode]
  split_ifs
  · simp only [Seen, views.write, views.setNode, and_self]
  · exact views.split order held p k rChild promoted

theorem dropUncached (views : fine.Views plain view) (root : Option ρ) (child : ρ) :
    view (dropUncached fine root s child) = dropUncached plain root (view s) child := by
  simp only [Gaveta.dropUncached, views.cached]
  split_ifs
  · exact views.clear s child
  · rfl

theorem insertKey (views : fine.Views plain view) (order : Nat) (root : Option ρ) (fuel : Nat)
    (held : List ρ) (p : ρ) (k : Key) (promoted : Bool) :
    Seen view (insertKey fine order root fuel held s p k promoted)
      (insertKey plain order root fuel held (view s) p k promoted) := by
  induction fuel generalizing s held p promoted with
  | zero => exact ⟨rfl, rfl⟩
  | succ fuel ih =>
      simp only [Gaveta.insertKey, views.node, views.loaded]
      split_ifs
      · exact ⟨rfl, rfl⟩
      · exact views.placeKey order held p k none _ promoted
      · generalize (plain.node (view s) p).child _ = rrn
        rw [← views.load]
        cases (plain.loadBtreeNode (p :: held) (view s) rrn).2 with
        | none => exact ⟨rfl, rfl⟩
        | some child =>
            obtain ⟨state, result⟩ := @ih (fine.loadBtreeNode (p :: held) s rrn).1 (p :: held) child
              promoted
            simp only [result, ← state, ← views.dropUncached]
            split
            · exact ⟨rfl, rfl⟩
            · exact views.placeKey ..

omit [DecidableEq ρ] in
theorem createRoot (views : fine.Views plain view) (b : BTree σ ρ) (newKey : Key) :
    Seen (BTree.seen view) (createRoot fine b newKey) (createRoot plain (b.seen view) newKey) := by
  simp only [Seen, Gaveta.createRoot, BTree.seen, views.taken, views.take, views.alloc,
    views.allocated, views.written, views.write, and_self]

omit [DecidableEq ρ] in
theorem growRoot (views : fine.Views plain view) (b : BTree σ ρ) (root : ρ) (promoKey : Key)
    (rChild : ρ) :
    Seen (BTree.seen view) (growRoot fine b root s promoKey rChild)
      (growRoot plain (b.seen view) root (view s) promoKey rChild) := by
  simp only [Gaveta.growRoot, views.taken, views.take, views.node, views.alloc, views.allocated,
    views.written]
  split_ifs
  · simp only [Seen, BTree.seen, views.clear, views.write, views.alloc, views.take, and_self]
  · simp only [Seen, BTree.seen, views.write, views.alloc, views.take, and_self]

theorem bInsert (views : fine.Views plain view) (b : BTree σ ρ) (id : CString) (rrn : Rrn) :
    Seen (BTree.seen view) (bInsert fine b id rrn) (bInsert plain (b.seen view) id rrn) := by
  obtain ⟨_ | root, config, s⟩ := b
  · exact views.createRoot _ _
  · obtain ⟨state, result⟩ := @insertKey σ τ ρ _ fine plain view s views config.order (some root)
      depthLimit [] root { id := id, dataRegisterRrn := rrn } false
    simp only [Gaveta.bInsert, BTree.seen, finishInsert, result, ← state]
    split
    · exact ⟨rfl, rfl⟩
    · split_ifs
      · exact views.growRoot ⟨some root, config, s⟩ root _ _
      · exact ⟨rfl, rfl⟩

theorem searchKey (views : fine.Views plain view) (root : Option ρ) (fuel : Nat) (held : List ρ)
    (p : ρ) (id : CString) :
    Seen view (searchKey fine root fuel held s p id)
      (searchKey plain root fuel held (view s) p id) := by
  induction fuel generalizing s held p with
  | zero => exact ⟨rfl, rfl⟩
  | succ fuel ih =>
      simp only [Gaveta.searchKey, views.node, views.loaded]
      split_ifs
      · exact ⟨rfl, rfl⟩
      · exact ⟨rfl, rfl⟩
      · generalize (plain.node (view s) p).child _ = rrn
        rw [← views.load]
        cases (plain.loadBtreeNode (p :: held) (view s) rrn).2 with
        | none => exact ⟨rfl, rfl⟩
        | some next =>
            obtain ⟨state, result⟩ := @ih (fine.loadBtreeNode (p :: held) s rrn).1 (p :: held) next
            exact ⟨by rw [views.dropUncached, state], result⟩

theorem bSearch (views : fine.Views plain view) (b : BTree σ ρ) (id : CString) :
    Seen (BTree.seen view) (bSearch fine b id) (bSearch plain (b.seen view) id) := by
  obtain ⟨_ | root, config, s⟩ := b
  · exact ⟨rfl, rfl⟩
  · obtain ⟨state, result⟩ := @searchKey σ τ ρ _ fine plain view s views (some root) depthLimit []
      root id
    simp only [Gaveta.bSearch, BTree.seen, views.node, result, ← state]
    split
    · exact ⟨rfl, rfl⟩
    · split_ifs
      · exact ⟨rfl, rfl⟩
      · exact ⟨rfl, rfl⟩

omit [DecidableEq ρ] in
theorem findBelow {loadFine : σ → Rrn → σ × Option ρ} {loadPlain : τ → Rrn → τ × Option ρ}
    {findFine : σ → ρ → σ × Option ρ} {findPlain : τ → ρ → τ × Option ρ} {dropFine : σ → ρ → σ}
    {dropPlain : τ → ρ → τ} (loads : ∀ s rrn, Seen view (loadFine s rrn) (loadPlain (view s) rrn))
    (finds : ∀ s child, Seen view (findFine s child) (findPlain (view s) child))
    (drops : ∀ s child, view (dropFine s child) = dropPlain (view s) child) (rrns : List Rrn) :
    Seen view (findBelow loadFine findFine dropFine s rrns)
      (findBelow loadPlain findPlain dropPlain (view s) rrns) := by
  induction rrns generalizing s with
  | nil => exact ⟨rfl, rfl⟩
  | cons rrn rest ih =>
      obtain ⟨state, loaded⟩ := loads s rrn
      simp only [Gaveta.findBelow, loaded, ← state]
      cases (loadPlain (view s) rrn).2 with
      | none => exact ih
      | some child =>
          obtain ⟨searched, found⟩ := finds (loadFine s rrn).1 child
          simp only [found, ← searched, ← drops]
          split
          · exact ⟨rfl, rfl⟩
          · exact ih

theorem findParent (views : fine.Views plain view) (root : ρ) (fuel : Nat) (held : List ρ)
    (current target : ρ) :
    Seen view (findParent fine root fuel held s current target)
      (findParent plain root fuel held (view s) current target) := by
  induction fuel generalizing s held current with
  | zero => exact ⟨rfl, rfl⟩
  | succ fuel ih =>
      simp only [Gaveta.findParent, views.node]
      split_ifs
      · exact ⟨rfl, rfl⟩
      · exact ⟨rfl, rfl⟩
      · exact ⟨rfl, rfl⟩
      · exact findBelow (fun s rrn => ⟨views.load _ s rrn, views.loaded _ s rrn⟩)
          (fun _ child => ih (current :: held) child) (fun _ child => views.dropUncached _ child) _

theorem getSibling (views : fine.Views plain view) (root p : ρ) (left : Bool) :
    Seen view (getSibling fine root s p left) (getSibling plain root (view s) p left) := by
  obtain ⟨state, found⟩ := @findParent σ τ ρ _ fine plain view s views root depthLimit [p] root p
  simp only [Gaveta.getSibling, found, ← state, views.node]
  split
  · exact ⟨rfl, rfl⟩
  · split_ifs
    · exact ⟨views.load .., views.loaded ..⟩
    · exact ⟨views.load .., views.loaded ..⟩
    · exact ⟨rfl, rfl⟩

omit [DecidableEq ρ] in
theorem redistribute (views : fine.Views plain view) (root donor receiver : ρ) (fromLeft : Bool) :
    Seen view (redistribute fine root s donor receiver fromLeft)
      (redistribute plain root (view s) donor receiver fromLeft) := by
  simp only [Gaveta.redistribute, views.node, views.setNode, views.written]
  split_ifs <;> simp only [Seen, views.write, views.written, views.setNode, and_self]

omit [DecidableEq ρ] in
theorem merge (views : fine.Views plain view) (root left right : ρ) :
    Seen view (merge fine root s left right) (merge plain root (view s) left right) := by
  simp only [Gaveta.merge, views.node, views.setNode, views.write, views.written]
  split_ifs <;> simp only [Seen, views.write, views.written, views.setNode, views.free, and_self]

theorem rebalance (views : fine.Views plain view) (order : Nat) (root p : ρ) :
    Seen view (rebalance fine order root s p) (rebalance plain order root (view s) p) := by
  obtain ⟨leftState, left⟩ := @getSibling σ τ ρ _ fine plain view s views root p true
  obtain ⟨rightState, right⟩ :=
    @getSibling σ τ ρ _ fine plain view (Gaveta.getSibling fine root s p true).1 views root p false
  rw [leftState] at rightState right
  simp only [Gaveta.rebalance, views.node, left, leftState, right, rightState]
  split
  · rw [← leftState]
    exact views.redistribute ..
  · split
    · rw [← rightState]
      exact views.redistribute ..
    · split
      · rw [← rightState]
        exact views.merge ..
      · rw [← rightState]
        exact views.merge ..
      · exact ⟨rightState, rfl⟩

omit [DecidableEq ρ] in
theorem releaseRecord (views : fine.Views plain view) (rrn : Rrn) :
    view (if rrn ≠ noRrn then
        if (fine.writeTombstone s rrn).2 then fine.insertFreeRrn (fine.writeTombstone s rrn).1 rrn
        else (fine.writeTombstone s rrn).1
      else s) =
      if rrn ≠ noRrn then
        if (plain.writeTombstone (view s) rrn).2 then
          plain.insertFreeRrn (plain.writeTombstone (view s) rrn).1 rrn
        else (plain.writeTombstone (view s) rrn).1
      else view s := by
  rw [views.marked]
  split_ifs
  · rw [views.free, views.mark]
  · exact views.mark s rrn
  · rfl

theorem removeSlot (views : fine.Views plain view) (b : BTree σ ρ) (root p : ρ) (pos : Nat)
    (key : Key) :
    Seen (BTree.seen view) (removeSlot fine b root s p pos key)
      (removeSlot plain (b.seen view) root (view s) p pos key) := by
  have released := @releaseRecord σ τ ρ fine plain view (fine.setNode s p
    { fine.node s p with keys := (fine.node s p).keys.eraseIdx pos }) views key.dataRegisterRrn
  rw [views.setNode, views.node] at released
  simp only [Gaveta.removeSlot, BTree.seen, views.node] at released ⊢
  rw [← released]
  generalize (if key.dataRegisterRrn ≠ noRrn then _ else _ : σ) = stored
  simp only [views.written, views.write]
  split_ifs
  · exact ⟨congrArg (BTree.mk none b.config) (views.clear stored root), rfl⟩
  · exact ⟨congrArg (BTree.mk b.root b.config) (views.write _ stored p), rfl⟩
  · obtain ⟨state, result⟩ := @rebalance σ τ ρ _ fine plain view
      (fine.writeIndexRecord [p, root] stored p).1 views b.config.order root p
    rw [views.write] at state result
    exact ⟨congrArg (BTree.mk b.root b.config) state, congrArg some result⟩
  · exact ⟨congrArg (BTree.mk b.root b.config) (views.write _ stored p), rfl⟩

theorem bRemove (views : fine.Views plain view) (b : BTree σ ρ) (keyId : CString) :
    Seen (BTree.seen view) (bRemove fine b keyId) (bRemove plain (b.seen view) keyId) := by
  obtain ⟨_ | root, config, s⟩ := b
  · exact ⟨rfl, rfl⟩
  · obtain ⟨state, result⟩ := views.bSearch ⟨some root, config, s⟩ keyId
    cases searched : Gaveta.bSearch fine ⟨some root, config, s⟩ keyId with
    | mk after answer =>
        obtain ⟨found, pos⟩ := answer
        obtain ⟨top, other, t⟩ := after
        rw [searched] at state result
        have plainly : Gaveta.bSearch plain (BTree.seen view ⟨some root, config, s⟩) keyId =
            (⟨top, other, view t⟩, found, pos) := Prod.ext state.symm result.symm
        rw [bRemove_eq rfl searched, bRemove_eq rfl plainly]
        cases found with
        | none => exact ⟨rfl, rfl⟩
        | some p =>
            simp only [views.node]
            cases (plain.node (view t) p).keys[pos.toNat]? with
            | none => exact ⟨rfl, rfl⟩
            | some key =>
                dsimp only
                split_ifs
                · exact ⟨rfl, rfl⟩
                · exact ⟨rfl, rfl⟩
                · exact views.removeSlot ..

end Pager.Views

end Gaveta
