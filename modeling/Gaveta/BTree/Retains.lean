import Gaveta.BTree.Views

/-! Storages from which no call takes a node that the tree still uses, as long as the nodes fit. -/

namespace Gaveta

variable {σ τ ρ : Type}

theorem Pager.Views.keeps {fine : Pager σ ρ} {plain : Pager τ ρ} {view : σ → τ} {root : Option ρ}
    {allowed : Key → Prop} {inv : τ → Prop} (views : fine.Views plain view)
    (keeps : plain.Keeps root allowed inv) : fine.Keeps root allowed fun s => inv (view s) where
  keys p start := by
    rw [views.node]
    exact keeps.keys p start
  setNode start name known := by
    rw [views.node] at name
    rw [views.setNode]
    exact keeps.setNode start name known
  halves start name lower upper := by
    rw [views.node] at name
    rw [views.setNode, views.alloc]
    exact keeps.halves start name lower upper
  allocBtreeNode start known := by
    rw [views.alloc]
    exact keeps.allocBtreeNode start known
  allocated start known := by
    rw [views.allocated]
    exact keeps.allocated start known
  clearBtreeNode p start other := by
    rw [views.clear]
    exact keeps.clearBtreeNode p start other
  loadBtreeNode rrn start inUse := by
    rw [views.load]
    exact keeps.loadBtreeNode rrn start inUse
  writeIndexRecord p start inUse := by
    rw [views.write]
    exact keeps.writeIndexRecord p start inUse
  getFreeRrn start := by
    rw [views.take]
    exact keeps.getFreeRrn start
  insertFreeRrn rrn start := by
    rw [views.free]
    exact keeps.insertFreeRrn rrn start
  writeTombstone rrn start := by
    rw [views.mark]
    exact keeps.writeTombstone rrn start

structure Onward (known : σ → ρ → Prop) (inv : σ → Prop) (s t : σ) : Prop where
  state : inv t
  kept : ∀ p, known s p → known t p

structure Reaches (known : σ → ρ → Prop) (inv : σ → Prop) (s : σ) (result : σ × Option ρ) : Prop where
  onward : Onward known inv s result.1
  found : ∀ p ∈ result.2, known result.1 p

/-- A storage that keeps the nodes that are `known` while it `fits`, and writes them without a failure.
The nodes in the list of `inv` are changed and not yet written. -/
structure Pager.Retains (pager : Pager σ ρ) (fits : σ → Prop) (known : σ → ρ → Prop)
    (inv : List ρ → σ → Prop) : Prop where
  unfit : pager.Keeps none (fun _ => True) fun s => ¬fits s
  cached : ∀ {s p}, inv [] s → known s p → pager.cached s p = true
  setNode : ∀ {s p dirty} node, inv dirty s → known s p → node.rrn = (pager.node s p).rrn →
    Onward known (inv (p :: dirty)) s (pager.setNode s p node)
  writeIndexRecord : ∀ {s p dirty} held, inv (p :: dirty) s → known s p →
    ∃ t, pager.writeIndexRecord held s p = (t, .success) ∧ Onward known (inv dirty) s t
  loadBtreeNode : ∀ {s} held rrn, inv [] s →
    Reaches known (inv []) s (pager.loadBtreeNode held s rrn)
  drawn : ∀ {s}, fits (pager.getFreeRrn s).1 → (pager.getFreeRrn s).2 ≠ noRrn
  halves : ∀ {s p} left right held, inv [] s → known s p → fits (pager.getFreeRrn s).1 →
    left.rrn = (pager.node (pager.getFreeRrn s).1 p).rrn → right.rrn = (pager.getFreeRrn s).2 →
    ∃ made new t u, pager.allocBtreeNode (pager.getFreeRrn s).1 right = (made, new) ∧
      pager.writeIndexRecord (new :: held) (pager.setNode made p left) p = (t, .success) ∧
      pager.writeIndexRecord (new :: held) t new = (u, .success) ∧
      Onward known (inv []) s u ∧ known u new
  create : ∀ {s} node held, inv [] s → fits (pager.getFreeRrn s).1 →
    node.rrn = (pager.getFreeRrn s).2 →
    ∃ made new t, pager.allocBtreeNode (pager.getFreeRrn s).1 node = (made, new) ∧
      pager.writeIndexRecord (new :: held) made new = (t, .success) ∧
      Onward known (inv []) s t ∧ known t new
  insertFreeRrn : ∀ {s dirty} rrn, inv dirty s →
    Onward known (inv dirty) s (pager.insertFreeRrn s rrn)
  writeTombstone : ∀ {s dirty} rrn, inv dirty s →
    Onward known (inv dirty) s (pager.writeTombstone s rrn).1

structure RetainedTree (known : σ → ρ → Prop) (inv : List ρ → σ → Prop) (b : BTree σ ρ) : Prop where
  state : inv [] b.io
  root : ∀ root ∈ b.root, known b.io root

section Onward

variable {known : σ → ρ → Prop} {inv later : σ → Prop} {s t u : σ} {p : ρ}

theorem Onward.refl (start : inv s) : Onward known inv s s := ⟨start, fun _ here => here⟩

theorem Onward.trans (first : Onward known later s t) (second : Onward known inv t u) :
    Onward known inv s u :=
  ⟨second.state, fun p here => second.kept p (first.kept p here)⟩

theorem Reaches.none (start : inv s) : Reaches known inv s (s, none) :=
  ⟨.refl start, fun _ found => by cases found⟩

theorem Reaches.some (start : inv s) (here : known s p) : Reaches known inv s (s, some p) := by
  refine ⟨.refl start, ?_⟩
  rintro _ ⟨⟩
  exact here

theorem Reaches.after {result : σ × Option ρ} (first : Onward known later s t)
    (reaches : Reaches known inv t result) : Reaches known inv s result :=
  ⟨first.trans reaches.onward, reaches.found⟩

end Onward

namespace Pager.Retains

variable {pager : Pager σ ρ} {fits : σ → Prop} {known : σ → ρ → Prop} {inv : List ρ → σ → Prop}
  {s : σ} {p : ρ}

section Insert

structure Inserted (known : σ → ρ → Prop) (inv : List ρ → σ → Prop) (s : σ)
    (result : InsertResult σ ρ) : Prop where
  onward : Onward known (inv []) s result.1
  promoted : ∀ promoKey rChild, result.2.1 = .promotion promoKey rChild → known result.1 rChild

theorem Inserted.status {t : σ} {status : BtreeStatus} {promoted : Bool}
    (onward : Onward known (inv []) s t) : Inserted known inv s (t, .status status, promoted) :=
  ⟨onward, fun _ _ same => by cases same⟩

theorem Inserted.after {t : σ} {result : InsertResult σ ρ} (first : Onward known (inv []) s t)
    (inserted : Inserted known inv t result) : Inserted known inv s result :=
  ⟨first.trans inserted.onward, inserted.promoted⟩

theorem rewrite (retains : pager.Retains fits known inv) (node : BtreeNode) (held : List ρ)
    (start : inv [] s) (here : known s p) (name : node.rrn = (pager.node s p).rrn) :
    ∃ t, pager.writeIndexRecord held (pager.setNode s p node) p = (t, .success) ∧
      Onward known (inv []) s t := by
  have set := retains.setNode node start here name
  obtain ⟨t, written, onward⟩ := retains.writeIndexRecord held set.state (set.kept p here)
  exact ⟨t, written, set.trans onward⟩

theorem split (retains : pager.Retains fits known inv) (order : Nat) {held : List ρ}
    {incomingKey : Key} {rChild : Option ρ} {promoted : Bool} (start : inv [] s) (here : known s p)
    (room : fits (split pager order held s p incomingKey rChild promoted).1) :
    Inserted known inv s (split pager order held s p incomingKey rChild promoted) := by
  obtain ⟨cut, shape⟩ : ∃ cut, splitNode order (pager.node (pager.getFreeRrn s).1 p) incomingKey
    (rChild.map fun child => (pager.node (pager.getFreeRrn s).1 child).rrn)
    (pager.getFreeRrn s).2 = cut := ⟨_, rfl⟩
  have name : cut.left.rrn = (pager.node (pager.getFreeRrn s).1 p).rrn := by
    rw [← shape, splitNode_left_rrn]
  have newName : cut.right.rrn = (pager.getFreeRrn s).2 := by
    rw [← shape, splitNode_right_rrn]
  have drawn : fits (pager.getFreeRrn s).1 := by
    by_contra unfit
    refine absurd room ?_
    have halved := @Keeps.halves _ _ _ _ _ _ retains.unfit _ p cut.left cut.right unfit name
      (fun _ _ => trivial) fun _ _ => trivial
    have first := fun held =>
      @Keeps.writeIndexRecord _ _ _ _ _ _ retains.unfit _ held p halved (by simp)
    have second := fun held new =>
      @Keeps.writeIndexRecord _ _ _ _ _ _ retains.unfit _ held new (first held) (by simp)
    simp only [Gaveta.split, shape]
    split_ifs
    · exact unfit
    · exact retains.unfit.clearBtreeNode _ (first _) (by simp)
    · exact retains.unfit.clearBtreeNode _ (second _ _) (by simp)
    · exact second _ _
  obtain ⟨made, new, t, u, allocated, first, second, onward, child⟩ :=
    retains.halves cut.left cut.right (p :: (rChild.toList ++ held)) start here drawn name newName
  have whole : Gaveta.split pager order held s p incomingKey rChild promoted =
      (u, .promotion cut.promoKey new, true) := by
    simp only [Gaveta.split, shape, retains.drawn drawn, allocated, first, second, ne_eq,
      not_true_eq_false, ↓reduceIte]
  rw [whole]
  refine ⟨onward, ?_⟩
  rintro _ _ ⟨⟩
  exact child

theorem placeKey (retains : pager.Retains fits known inv) (order : Nat) {held : List ρ} {k : Key}
    {rChild : Option ρ} {pos : Nat} {promoted : Bool} (start : inv [] s) (here : known s p)
    (room : fits (placeKey pager order held s p k rChild pos promoted).1) :
    Inserted known inv s (placeKey pager order held s p k rChild pos promoted) := by
  rw [Gaveta.placeKey] at room ⊢
  split_ifs at room ⊢
  · obtain ⟨t, written, onward⟩ :=
      retains.rewrite (insertInBtreeNode (pager.node s p) k
        (rChild.map fun child => (pager.node s child).rrn) pos) (p :: (rChild.toList ++ held))
        start here rfl
    dsimp only
    rw [written]
    exact .status onward
  · exact retains.split order start here room

variable [DecidableEq ρ]

theorem dropUncached (retains : pager.Retains fits known inv) (root : Option ρ) (start : inv [] s)
    (here : known s p) : dropUncached pager root s p = s := by
  apply if_neg
  rintro ⟨_, uncached⟩
  rw [retains.cached start here] at uncached
  cases uncached

theorem insertKey (retains : pager.Retains fits known inv) (order : Nat) (root : Option ρ)
    (fuel : Nat) (held : List ρ) (k : Key) (promoted : Bool) (start : inv [] s) (here : known s p)
    (room : fits (insertKey pager order root fuel held s p k promoted).1) :
    Inserted known inv s (insertKey pager order root fuel held s p k promoted) := by
  induction fuel generalizing held s p promoted with
  | zero => exact .status (.refl start)
  | succ fuel ih =>
      rw [Gaveta.insertKey] at room ⊢
      dsimp only at room ⊢
      split_ifs at room ⊢
      · exact .status (.refl start)
      · exact retains.placeKey order start here room
      · have loaded := retains.loadBtreeNode (p :: held)
          ((pager.node s p).child (searchInBtreeNode (pager.node s p) k.id).2) start
        generalize pager.loadBtreeNode (p :: held) s _ = result at room loaded ⊢
        obtain ⟨t, child⟩ := result
        cases child with
        | none => exact .status loaded.onward
        | some child =>
            dsimp only at room ⊢
            have below := ih (p :: held) promoted loaded.onward.state (loaded.found child rfl)
            generalize Gaveta.insertKey pager order root fuel (p :: held) t child k promoted = result
              at room below ⊢
            have enough : fits result.1 := by
              by_contra unfit
              have dropped :=
                @Keeps.dropUncached _ _ _ _ _ _ _ _ retains.unfit root (by simp) child unfit
              refine absurd room ?_
              split
              · exact dropped
              · exact (retains.unfit.placeKey order _ _ _ dropped trivial (by simp)).state
            have inner := below enough
            have onward := loaded.onward.trans inner.onward
            rw [retains.dropUncached root inner.onward.state
              (inner.onward.kept child (loaded.found child rfl))] at room ⊢
            obtain ⟨u, insertion, flag⟩ := result
            cases insertion with
            | status status => exact .status onward
            | promotion promoKey rChild =>
                exact (retains.placeKey order onward.state (onward.kept p here) room).after onward

omit [DecidableEq ρ] in
theorem createRoot (retains : pager.Retains fits known inv) {b : BTree σ ρ} {k : Key}
    (start : inv [] b.io) (room : fits (createRoot pager b k).1.io) :
    RetainedTree known inv (createRoot pager b k).1 := by
  have drawn : fits (pager.getFreeRrn b.io).1 := by
    by_contra unfit
    refine absurd room ?_
    rw [Gaveta.createRoot]
    exact retains.unfit.writeIndexRecord _
      (retains.unfit.allocBtreeNode unfit fun _ _ => trivial) (by simp)
  obtain ⟨made, new, t, allocated, written, onward, child⟩ :=
    retains.create
      { keys := [k], rrn := (pager.getFreeRrn b.io).2, children := [], nextLeaf := noRrn,
        leaf := true }
      [] start drawn rfl
  simp only [Gaveta.createRoot, allocated, written]
  refine ⟨onward.state, ?_⟩
  rintro _ ⟨⟩
  exact child

omit [DecidableEq ρ] in
theorem growRoot (retains : pager.Retains fits known inv) {b : BTree σ ρ} {root rChild : ρ}
    {promoKey : Key} (start : inv [] s) (room : fits (growRoot pager b root s promoKey rChild).1.io) :
    RetainedTree known inv (growRoot pager b root s promoKey rChild).1 := by
  have drawn : fits (pager.getFreeRrn s).1 := by
    by_contra unfit
    refine absurd room ?_
    have written := fun node held new => @Keeps.writeIndexRecord _ _ _ _ _ _ retains.unfit _ held new
      (@Keeps.allocBtreeNode _ _ _ _ _ _ retains.unfit _ node unfit fun _ _ => trivial) (by simp)
    simp only [Gaveta.growRoot]
    split_ifs
    · exact retains.unfit.clearBtreeNode _ (written _ _ _) (by simp)
    · exact written _ _ _
  obtain ⟨made, new, t, allocated, written, onward, child⟩ :=
    retains.create
      { keys := [promoKey]
        rrn := (pager.getFreeRrn s).2
        children := [(pager.node (pager.getFreeRrn s).1 root).rrn,
          (pager.node (pager.getFreeRrn s).1 rChild).rrn]
        nextLeaf := noRrn
        leaf := false }
      [rChild, root] start drawn rfl
  simp only [Gaveta.growRoot, allocated, written, ne_eq, not_true_eq_false, ↓reduceIte]
  refine ⟨onward.state, ?_⟩
  rintro _ ⟨⟩
  exact child

theorem bInsert (retains : pager.Retains fits known inv) {b : BTree σ ρ} (id : CString) (rrn : Rrn)
    (tree : RetainedTree known inv b) (room : fits (bInsert pager b id rrn).1.io) :
    RetainedTree known inv (bInsert pager b id rrn).1 := by
  rw [Gaveta.bInsert] at room ⊢
  cases rooted : b.root with
  | none =>
      rw [rooted] at room
      exact retains.createRoot tree.state room
  | some root =>
      rw [rooted] at room
      dsimp only at room ⊢
      have here := tree.root root rooted
      have below := retains.insertKey b.config.order (some root) depthLimit [] ⟨id, rrn⟩ false
        tree.state here
      generalize Gaveta.insertKey pager b.config.order (some root) depthLimit [] b.io root ⟨id, rrn⟩
        false = result at room below ⊢
      have enough : fits result.1 := by
        by_contra unfit
        exact retains.unfit.finishInsert (b := b) ⟨unfit, fun _ _ _ => trivial⟩ (by simp) room
      have inner := below enough
      have kept : RetainedTree known inv { b with io := result.1 } := by
        refine ⟨inner.onward.state, fun other same => ?_⟩
        cases rooted.symm.trans same
        exact inner.onward.kept root here
      obtain ⟨t, insertion, flag⟩ := result
      cases insertion with
      | status status => exact kept
      | promotion promoKey rChild =>
          cases flag with
          | false => exact kept
          | true => exact retains.growRoot inner.onward.state room

end Insert

section Search

variable [DecidableEq ρ]

theorem searchKey (retains : pager.Retains fits known inv) (root : Option ρ) (fuel : Nat)
    (held : List ρ) (id : CString) (start : inv [] s) (here : known s p) :
    Reaches known (inv []) s ((searchKey pager root fuel held s p id).1,
      (searchKey pager root fuel held s p id).2.2) := by
  induction fuel generalizing held s p with
  | zero => exact .none start
  | succ fuel ih =>
      rw [Gaveta.searchKey]
      dsimp only
      split_ifs
      · exact .some start here
      · exact .some start here
      · have loaded := retains.loadBtreeNode (p :: held)
          ((pager.node s p).child (searchInBtreeNode (pager.node s p) id).2) start
        generalize pager.loadBtreeNode (p :: held) s _ = result at loaded ⊢
        obtain ⟨t, child⟩ := result
        cases child with
        | none => exact loaded
        | some child =>
            have inside := loaded.found child rfl
            have below := ih (p :: held) loaded.onward.state inside
            have kept := retains.dropUncached root below.onward.state
              (below.onward.kept child inside)
            dsimp only
            rw [kept]
            exact below.after loaded.onward

theorem bSearch (retains : pager.Retains fits known inv) {b after : BTree σ ρ} {id : CString}
    {found : Option ρ} {pos : UInt16} (tree : RetainedTree known inv b)
    (searched : bSearch pager b id = (after, found, pos)) :
    RetainedTree known inv after ∧ after.root = b.root ∧ ∀ p ∈ found, known after.io p := by
  rw [Gaveta.bSearch] at searched
  split at searched
  · cases searched
    exact ⟨tree, rfl, fun _ found => by cases found⟩
  · rename_i root rooted
    have reached := retains.searchKey b.root depthLimit [] id tree.state (tree.root root rooted)
    generalize Gaveta.searchKey pager b.root depthLimit [] b.io root id = result at searched reached
    have kept : RetainedTree known inv { b with io := result.1 } :=
      ⟨reached.onward.state, fun other same => reached.onward.kept other (tree.root other same)⟩
    dsimp only at searched
    split at searched
    · cases searched
      exact ⟨kept, rfl, fun _ found => by cases found⟩
    · rename_i q reachedAt
      split_ifs at searched
      · cases searched
        refine ⟨kept, rfl, ?_⟩
        rintro _ ⟨⟩
        exact reached.found q reachedAt
      · cases searched
        exact ⟨kept, rfl, fun _ found => by cases found⟩

end Search

section Remove

variable {root donor receiver left right : ρ}

theorem redistribute (retains : pager.Retains fits known inv) (fromLeft : Bool) (start : inv [] s)
    (gives : known s donor) (takes : known s receiver) :
    Onward known (inv []) s (redistribute pager root s donor receiver fromLeft).1 := by
  rw [Gaveta.redistribute]
  dsimp only
  generalize (if fromLeft = true then _ else _ : List Key) = grown
  generalize (if fromLeft = true then _ else _ : List Key) = kept
  have taken := retains.setNode { pager.node s receiver with keys := grown } start takes rfl
  generalize pager.setNode s receiver _ = t at taken ⊢
  have given := retains.setNode { pager.node t donor with keys := kept } taken.state
    (taken.kept donor gives) rfl
  generalize pager.setNode t donor _ = u at given ⊢
  have both := taken.trans given
  obtain ⟨v, written, first⟩ :=
    retains.writeIndexRecord [donor, receiver, root] given.state (both.kept donor gives)
  have half := both.trans first
  obtain ⟨w, last, second⟩ :=
    retains.writeIndexRecord [donor, receiver, root] first.state (half.kept receiver takes)
  rw [written, last]
  exact half.trans second

theorem merge (retains : pager.Retains fits known inv) (start : inv [] s) (here : known s left) :
    Onward known (inv []) s (merge pager root s left right).1 := by
  rw [Gaveta.merge]
  obtain ⟨t, written, onward⟩ := retains.rewrite
    { pager.node s left with
      keys := (pager.node s left).keys ++ (pager.node s right).keys
      nextLeaf := (pager.node s right).nextLeaf } [left, right, root] start here rfl
  dsimp only
  rw [written]
  exact onward.trans (retains.insertFreeRrn _ onward.state)

theorem findBelow {loadRrn : σ → Rrn → σ × Option ρ} {find : σ → ρ → σ × Option ρ} {drop : σ → ρ → σ}
    {inv : σ → Prop} (loads : ∀ {s} rrn, inv s → Reaches known inv s (loadRrn s rrn))
    (finds : ∀ {s} child, inv s → known s child → Reaches known inv s (find s child))
    (drops : ∀ {s} child, inv s → known s child → drop s child = s) (rrns : List Rrn)
    (start : inv s) : Reaches known inv s (findBelow loadRrn find drop s rrns) := by
  induction rrns generalizing s with
  | nil => exact .none start
  | cons rrn rest ih =>
      have loaded := loads rrn start
      rw [Gaveta.findBelow]
      generalize loadRrn s rrn = result at loaded ⊢
      obtain ⟨t, child⟩ := result
      cases child with
      | none => exact (ih loaded.onward.state).after loaded.onward
      | some child =>
          have inside := loaded.found child rfl
          have below := finds child loaded.onward.state inside
          have kept := drops child below.onward.state (below.onward.kept child inside)
          dsimp only
          rw [kept]
          generalize find t child = result at below ⊢
          obtain ⟨u, parent⟩ := result
          cases parent with
          | some parent => exact below.after loaded.onward
          | none => exact (ih below.onward.state).after (loaded.onward.trans below.onward)

variable [DecidableEq ρ]

theorem findParent (retains : pager.Retains fits known inv) (fuel : Nat) (held : List ρ)
    {current : ρ} (root target : ρ) (start : inv [] s) (here : known s current) :
    Reaches known (inv []) s (findParent pager root fuel held s current target) := by
  induction fuel generalizing held s current with
  | zero => exact .none start
  | succ fuel ih =>
      rw [Gaveta.findParent]
      split_ifs
      · exact .none start
      · exact .some start here
      · exact .none start
      · exact findBelow (retains.loadBtreeNode _) (fun child start inside => ih _ start inside)
          (fun child => retains.dropUncached (some root)) _ start

theorem getSibling (retains : pager.Retains fits known inv) (p : ρ) (onLeft : Bool) (start : inv [] s)
    (top : known s root) : Reaches known (inv []) s (getSibling pager root s p onLeft) := by
  have searched := retains.findParent depthLimit [p] root p start top
  rw [Gaveta.getSibling]
  generalize Gaveta.findParent pager root depthLimit [p] s root p = result at searched ⊢
  obtain ⟨t, parent⟩ := result
  cases parent with
  | none => exact searched
  | some parent =>
      dsimp only
      split_ifs
      · exact (retains.loadBtreeNode _ _ searched.onward.state).after searched.onward
      · exact (retains.loadBtreeNode _ _ searched.onward.state).after searched.onward
      · exact (Reaches.none searched.onward.state).after searched.onward

theorem rebalance (retains : pager.Retains fits known inv) (order : Nat) (start : inv [] s)
    (top : known s root) (here : known s p) :
    Onward known (inv []) s (rebalance pager order root s p).1 := by
  have onLeft := retains.getSibling p true start top
  rw [Gaveta.rebalance]
  dsimp only
  generalize Gaveta.getSibling pager root s p true = result at onLeft ⊢
  obtain ⟨t, left⟩ := result
  dsimp only
  split
  · rename_i node rich
    exact onLeft.onward.trans (retains.redistribute true onLeft.onward.state
      (onLeft.found node (Option.eq_some_of_filter_eq_some rich)) (onLeft.onward.kept p here))
  have onRight := retains.getSibling p false onLeft.onward.state
    (onLeft.onward.kept root top)
  generalize Gaveta.getSibling pager root t p false = result at onRight ⊢
  obtain ⟨u, right⟩ := result
  dsimp only
  have both := onLeft.onward.trans onRight.onward
  split
  · rename_i node rich
    exact both.trans (retains.redistribute false onRight.onward.state
      (onRight.found node (Option.eq_some_of_filter_eq_some rich)) (both.kept p here))
  cases left with
  | some node =>
      exact both.trans (retains.merge onRight.onward.state
        (onRight.onward.kept node (onLeft.found node rfl)))
  | none =>
      cases right with
      | some node => exact both.trans (retains.merge onRight.onward.state (both.kept p here))
      | none => exact both

theorem removeSlot (retains : pager.Retains fits known inv) {b : BTree σ ρ} {pos : Nat} {key : Key}
    (rooted : b.root = some root) (start : inv [] s) (top : known s root) (here : known s p)
    (keeps : (removeSlot pager b root s p pos key).1.root = b.root) :
    RetainedTree known inv (removeSlot pager b root s p pos key).1 := by
  rw [Gaveta.removeSlot] at keeps ⊢
  have erased := retains.setNode
    { pager.node s p with keys := (pager.node s p).keys.eraseIdx pos } start here rfl
  generalize pager.setNode s p _ = t at erased keeps ⊢
  have released : Onward known (inv [p]) t (if key.dataRegisterRrn ≠ noRrn then
      if (pager.writeTombstone t key.dataRegisterRrn).2 then
        pager.insertFreeRrn (pager.writeTombstone t key.dataRegisterRrn).1 key.dataRegisterRrn
      else (pager.writeTombstone t key.dataRegisterRrn).1
      else t) := by
    have marked := retains.writeTombstone key.dataRegisterRrn erased.state
    split_ifs
    · exact marked.trans (retains.insertFreeRrn _ marked.state)
    · exact marked
    · exact .refl erased.state
  dsimp only at keeps ⊢
  generalize (if key.dataRegisterRrn ≠ noRrn then _ else _ : σ) = u at released keeps ⊢
  have both := erased.trans released
  obtain ⟨v, written, clean⟩ :=
    retains.writeIndexRecord [p, root] released.state (both.kept p here)
  have whole := both.trans clean
  have tree : ∀ {w}, Onward known (inv []) v w → RetainedTree known inv { b with io := w } := by
    intro w onward
    refine ⟨onward.state, fun other same => ?_⟩
    cases rooted.symm.trans same
    exact onward.kept root (whole.kept root top)
  rw [written] at keeps ⊢
  split_ifs at keeps ⊢ with emptied failed few
  · cases keeps.trans rooted
  · exact tree (.refl clean.state)
  · exact tree (retains.rebalance b.config.order clean.state (whole.kept root top) (whole.kept p here))
  · exact tree (.refl clean.state)

theorem bRemove (retains : pager.Retains fits known inv) {b : BTree σ ρ} (id : CString)
    (tree : RetainedTree known inv b) (keeps : (bRemove pager b id).1.root = b.root) :
    RetainedTree known inv (bRemove pager b id).1 := by
  cases rooted : b.root with
  | none =>
      rw [Gaveta.bRemove, rooted]
      exact tree
  | some root =>
      obtain ⟨⟨after, found, pos⟩, searched⟩ : ∃ result, Gaveta.bSearch pager b id = result := ⟨_, rfl⟩
      obtain ⟨kept, same, inside⟩ := retains.bSearch tree searched
      rw [bRemove_eq rooted searched] at keeps ⊢
      cases found with
      | none => exact kept
      | some p =>
          dsimp only at keeps ⊢
          split at keeps
          · exact kept
          · rename_i key slot
            split_ifs at keeps ⊢
            · exact kept
            · exact kept
            · exact retains.removeSlot rooted kept.state
                (kept.root root (same.trans rooted)) (inside p rfl) keeps

end Remove

end Pager.Retains

end Gaveta
