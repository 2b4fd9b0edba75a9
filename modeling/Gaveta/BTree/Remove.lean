import Gaveta.BTree.Search

/-! `b_remove` and the functions below it. -/

namespace Gaveta

variable {σ ρ : Type} [DecidableEq ρ]

def findBelow (load : σ → Rrn → σ × Option ρ) (find : σ → ρ → σ × Option ρ)
    (drop : σ → ρ → σ) : σ → List Rrn → σ × Option ρ
  | s, [] => (s, none)
  | s, rrn :: rest =>
      let loaded := load s rrn
      match loaded.2 with
      | none => findBelow load find drop loaded.1 rest
      | some child =>
          let result := find loaded.1 child
          let s := drop result.1 child
          match result.2 with
          | some parent => (s, some parent)
          | none => findBelow load find drop s rest

def findParent (pager : Pager σ ρ) (root : ρ) :
    Nat → List ρ → σ → ρ → ρ → σ × Option ρ
  | 0, _, s, _, _ => (s, none)
  | fuel + 1, held, s, current, target =>
      if target = root then (s, none)
      else if (pager.node s target).rrn ∈ (pager.node s current).children then (s, some current)
      else if (pager.node s current).leaf then (s, none)
      else
        findBelow (pager.loadBtreeNode (current :: target :: held))
          (fun s child => findParent pager root fuel (current :: held) s child target)
          (dropUncached pager (some root)) s (pager.node s current).children

/-- `get_sibling`, the left one or the right one. -/
def getSibling (pager : Pager σ ρ) (root : ρ) (s : σ) (p : ρ) (left : Bool) : σ × Option ρ :=
  let searched := findParent pager root depthLimit [p] s root p
  let s := searched.1
  match searched.2 with
  | none => (s, none)
  | some parent =>
      let node := pager.node s parent
      let pos := node.children.idxOf (pager.node s p).rrn
      if left ∧ 0 < pos then pager.loadBtreeNode [parent, p, root] s (node.child (pos - 1))
      else if ¬left ∧ pos + 1 < node.childNum then
        pager.loadBtreeNode [parent, p, root] s (node.child (pos + 1))
      else (s, none)

def redistribute (pager : Pager σ ρ) (root : ρ) (s : σ) (donor receiver : ρ) (fromLeft : Bool) :
    σ × BtreeStatus :=
  let given := (pager.node s donor).keys
  let kept := if fromLeft then given.dropLast else given.tail
  let taken := (pager.node s receiver).keys
  let grown :=
    if fromLeft then given.getLast?.toList ++ taken else taken ++ given.head?.toList
  let s := pager.setNode s receiver { pager.node s receiver with keys := grown }
  let s := pager.setNode s donor { pager.node s donor with keys := kept }
  let first := pager.writeIndexRecord [donor, receiver, root] s donor
  if first.2.value < 0 then first
  else pager.writeIndexRecord [donor, receiver, root] first.1 receiver

def merge (pager : Pager σ ρ) (root : ρ) (s : σ) (left right : ρ) : σ × BtreeStatus :=
  let s := pager.setNode s left
    { pager.node s left with
      keys := (pager.node s left).keys ++ (pager.node s right).keys
      nextLeaf := (pager.node s right).nextLeaf }
  let written := pager.writeIndexRecord [left, right, root] s left
  if written.2.value < 0 then written
  else (pager.insertFreeRrn written.1 (pager.node written.1 right).rrn, .success)

def rebalance (pager : Pager σ ρ) (order : Nat) (root : ρ) (s : σ) (p : ρ) : σ × BtreeStatus :=
  let least := (order - 1) / 2
  let onLeft := getSibling pager root s p true
  match onLeft.2.filter fun left => least < (pager.node onLeft.1 left).keysNum with
  | some left => redistribute pager root onLeft.1 left p true
  | none =>
      let onRight := getSibling pager root onLeft.1 p false
      match onRight.2.filter fun right => least < (pager.node onRight.1 right).keysNum with
      | some right => redistribute pager root onRight.1 right p false
      | none =>
          match onLeft.2, onRight.2 with
          | some left, _ => merge pager root onRight.1 left p
          | none, some right => merge pager root onRight.1 p right
          | none, none => (onRight.1, .success)

/-- The status is nothing where `keys[pos]` lies behind the keys of the leaf. -/
def bRemove (pager : Pager σ ρ) (b : BTree σ ρ) (keyId : CString) :
    BTree σ ρ × Option BtreeStatus :=
  match b.root with
  | none => (b, some .errorInvalidBtreeNode)
  | some root =>
      let searched := bSearch pager b keyId
      let s := searched.1.io
      match searched.2.1 with
      | none => (searched.1, some .notFoundKey)
      | some p =>
          let pos := searched.2.2.toNat
          match (pager.node s p).keys[pos]? with
          -- `b_search` found no key: `pos` is 65535
          | none => (searched.1, none)
          | some key =>
              if strcmp key.id keyId ≠ 0 then (searched.1, some .notFoundKey)
              else if (pager.node s p).leaf = false then (searched.1, some .success)
              else
                let s := pager.setNode s p
                  { pager.node s p with keys := (pager.node s p).keys.eraseIdx pos }
                let s :=
                  if key.dataRegisterRrn ≠ noRrn then
                    let marked := pager.writeTombstone s key.dataRegisterRrn
                    -- the list of the index, not the one of the data file
                    if marked.2 then pager.insertFreeRrn marked.1 key.dataRegisterRrn
                    else marked.1
                  else s
                if p = root ∧ (pager.node s p).keysNum = 0 then
                  ({ b with root := none, io := pager.clearBtreeNode s root }, some .success)
                else
                  let written := pager.writeIndexRecord [p, root] s p
                  if written.2.value < 0 then ({ b with io := written.1 }, some written.2)
                  else if p ≠ root ∧
                      (pager.node written.1 p).keysNum < (b.config.order - 1) / 2 then
                    let balanced := rebalance pager b.config.order root written.1 p
                    ({ b with io := balanced.1 }, some balanced.2)
                  else ({ b with io := written.1 }, some .success)

end Gaveta
