import Gaveta.BTree.Pager

/-! `b_insert` and the functions below it. -/

namespace Gaveta

variable {σ ρ : Type} [DecidableEq ρ]

/-- The status of `insert_key` and `split`; `BTREE_PROMOTION` comes with the promoted key and the
new right sibling. -/
inductive Insertion (ρ : Type) where
  | status (status : BtreeStatus)
  | promotion (promoKey : Key) (rChild : ρ)

/-- The state afterwards, the status and the flag `promoted`. -/
abbrev InsertResult (σ ρ : Type) := σ × Insertion ρ × Bool

def split (pager : Pager σ ρ) (order : Nat) (held : List ρ) (s : σ) (p : ρ) (incomingKey : Key)
    (rChild : Option ρ) (promoted : Bool) : InsertResult σ ρ :=
  let taken := pager.getFreeRrn s
  if taken.2 = noRrn then (taken.1, .status .errorIo, promoted)
  else
    let halves := splitNode order (pager.node taken.1 p) incomingKey
      (rChild.map fun child => (pager.node taken.1 child).rrn) taken.2
    let allocated := pager.allocBtreeNode taken.1 halves.right
    let frame := allocated.2 :: p :: (rChild.toList ++ held)
    let first := pager.writeIndexRecord frame (pager.setNode allocated.1 p halves.left) p
    if first.2 ≠ .success then
      (pager.clearBtreeNode first.1 allocated.2, .status first.2, promoted)
    else
      let second := pager.writeIndexRecord frame first.1 allocated.2
      if second.2 ≠ .success then
        (pager.clearBtreeNode second.1 allocated.2, .status second.2, promoted)
      else (second.1, .promotion halves.promoKey allocated.2, true)

/-- The end of `insert_key` in a leaf and in a branch: a node with room takes the key, a full one
is split. -/
def placeKey (pager : Pager σ ρ) (order : Nat) (held : List ρ) (s : σ) (p : ρ) (k : Key)
    (rChild : Option ρ) (pos : Nat) (promoted : Bool) : InsertResult σ ρ :=
  if (pager.node s p).keysNum < order - 1 then
    let node := insertInBtreeNode (pager.node s p) k
      (rChild.map fun child => (pager.node s child).rrn) pos
    let written := pager.writeIndexRecord (p :: (rChild.toList ++ held)) (pager.setNode s p node) p
    (written.1, .status written.2, false)
  else split pager order held s p k rChild promoted

def insertKey (pager : Pager σ ρ) (order : Nat) (root : Option ρ) :
    Nat → List ρ → σ → ρ → Key → Bool → InsertResult σ ρ
  | 0, _, s, _, _, promoted => (s, .status .errorMemory, promoted)
  | fuel + 1, held, s, p, k, promoted =>
      let found := searchInBtreeNode (pager.node s p) k.id
      if found.1 = .foundKey then (s, .status .errorDuplicate, promoted)
      else if (pager.node s p).leaf then placeKey pager order held s p k none found.2 promoted
      else
        let loaded := pager.loadBtreeNode (p :: held) s ((pager.node s p).child found.2)
        match loaded.2 with
        | none => (loaded.1, .status .errorIo, promoted)
        | some child =>
            let below := insertKey pager order root fuel (p :: held) loaded.1 child k promoted
            let s := dropUncached pager root below.1 child
            match below.2.1 with
            | .status status => (s, .status status, below.2.2)
            | .promotion promoKey tempChild =>
                placeKey pager order (child :: held) s p promoKey (some tempChild) found.2
                  below.2.2

/-- `b_insert` without a root.  The check `b->root->rrn < 0` never holds of a `u16`. -/
def createRoot (pager : Pager σ ρ) (b : BTree σ ρ) (newKey : Key) :
    BTree σ ρ × Option BtreeStatus :=
  let taken := pager.getFreeRrn b.io
  let allocated := pager.allocBtreeNode taken.1
    { keys := [newKey], rrn := taken.2, children := [], nextLeaf := noRrn, leaf := true }
  let written := pager.writeIndexRecord [allocated.2] allocated.1 allocated.2
  ({ b with root := some allocated.2, io := written.1 }, some written.2)

def growRoot (pager : Pager σ ρ) (b : BTree σ ρ) (root : ρ) (s : σ) (promoKey : Key)
    (rChild : ρ) : BTree σ ρ × Option BtreeStatus :=
  let taken := pager.getFreeRrn s
  let allocated := pager.allocBtreeNode taken.1
    { keys := [promoKey]
      rrn := taken.2
      children := [(pager.node taken.1 root).rrn, (pager.node taken.1 rChild).rrn]
      nextLeaf := noRrn
      leaf := false }
  let written := pager.writeIndexRecord [allocated.2, rChild, root] allocated.1 allocated.2
  if written.2 ≠ .success then
    ({ b with io := pager.clearBtreeNode written.1 allocated.2 }, none)
  else
    ({ root := some allocated.2
       config := { b.config with rootRrn := taken.2 }
       io := written.1 }, some .success)

def finishInsert (pager : Pager σ ρ) (b : BTree σ ρ) (root : ρ) (inserted : InsertResult σ ρ) :
    BTree σ ρ × Option BtreeStatus :=
  match inserted.2.1 with
  | .status status =>
      ({ b with io := inserted.1 }, some (if status.value < 0 then status else .success))
  | .promotion promoKey rChild =>
      if inserted.2.2 then growRoot pager b root inserted.1 promoKey rChild
      else ({ b with io := inserted.1 }, some .success)

/-- `b_insert`.  No status is returned when the write of a new root fails: the process exits. -/
def bInsert (pager : Pager σ ρ) (b : BTree σ ρ) (id : CString) (rrn : Rrn) :
    BTree σ ρ × Option BtreeStatus :=
  let newKey : Key := { id := id, dataRegisterRrn := rrn }
  match b.root with
  | none => createRoot pager b newKey
  | some root =>
      finishInsert pager b root
        (insertKey pager b.config.order b.root depthLimit [] b.io root newKey false)

def insertAll (pager : Pager σ ρ) : BTree σ ρ → List (CString × Rrn) → BTree σ ρ
  | b, [] => b
  | b, entry :: rest =>
      let inserted := bInsert pager b entry.1 entry.2
      match inserted.2 with
      | none => inserted.1
      | some _ => insertAll pager inserted.1 rest

end Gaveta
