import Gaveta.BTree.Pager

/-! `b_search` and the functions below it. -/

namespace Gaveta

variable {σ ρ : Type} [DecidableEq ρ]

def noPosition : UInt16 := 0xFFFF

/-- `search_key`: the state afterwards, the returned position and `*return_btree_node`. -/
def searchKey (pager : Pager σ ρ) (root : Option ρ) :
    Nat → List ρ → σ → ρ → CString → σ × UInt16 × Option ρ
  | 0, _, s, _, _ => (s, noPosition, none)
  | fuel + 1, held, s, p, id =>
      let found := searchInBtreeNode (pager.node s p) id
      if found.1 = .foundKey then (s, found.2.toUInt16, some p)
      else if (pager.node s p).leaf then (s, noPosition, some p)
      else
        let loaded := pager.loadBtreeNode (p :: held) s ((pager.node s p).child found.2)
        match loaded.2 with
        | none => (loaded.1, noPosition, none)
        | some next =>
            let below := searchKey pager root fuel (p :: held) loaded.1 next id
            (dropUncached pager root below.1 next, below.2)

/-- `b_search`: the state afterwards, the returned node and `*return_pos`. -/
def bSearch (pager : Pager σ ρ) (b : BTree σ ρ) (queryKey : CString) :
    BTree σ ρ × Option ρ × UInt16 :=
  match b.root with
  | none => (b, none, noPosition)
  | some root =>
      let searched := searchKey pager b.root depthLimit [] b.io root queryKey
      let b := { b with io := searched.1 }
      match searched.2.2 with
      -- the source reads `leaf` through the null pointer that a failed load leaves here
      | none => (b, none, noPosition)
      | some found =>
          if (pager.node searched.1 found).leaf then (b, some found, searched.2.1)
          else (b, none, noPosition)

end Gaveta
