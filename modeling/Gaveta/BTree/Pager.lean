import Gaveta.BTree.Node

/-! The interface between the tree operations and the storage below them. -/

namespace Gaveta

/-- What the tree operations of `BTree.c` use of node memory, the cache, the two files and the
free list of the index.  `σ` is the state of this storage and `ρ` a node pointer.  The list given
to a load or a write holds the nodes that active calls still use; the source does not pass it. -/
structure Pager (σ ρ : Type) where
  node : σ → ρ → BtreeNode
  setNode : σ → ρ → BtreeNode → σ
  allocBtreeNode : σ → BtreeNode → σ × ρ
  clearBtreeNode : σ → ρ → σ
  cached : σ → ρ → Bool
  loadBtreeNode : List ρ → σ → Rrn → σ × Option ρ
  writeIndexRecord : List ρ → σ → ρ → σ × BtreeStatus
  getFreeRrn : σ → σ × Rrn
  insertFreeRrn : σ → Rrn → σ
  /-- Overwrites a data record with `*`; false if `fseek` fails. -/
  writeTombstone : σ → Rrn → σ × Bool

/-- `get_free_rrn`: the head of the list, or the size of the empty list. -/
def getFreeRrn : List Rrn → Rrn × List Rrn
  | [] => (([] : List Rrn).length.toUInt16, [])
  | rrn :: rest => (rrn, rest)

structure BtreeConfig where
  schemaSize : Nat
  order : Nat
  rootRrn : Rrn
  headerSize : Nat

structure BTree (σ ρ : Type) where
  root : Option ρ
  config : BtreeConfig
  io : σ

/-- A bound on the depth of the recursions: one call for every record number there is. -/
def depthLimit : Nat := 65536

/-- Releases a node that a call has loaded, unless it is the root or still in the cache. -/
def dropUncached {σ ρ : Type} [DecidableEq ρ] (pager : Pager σ ρ) (root : Option ρ) (s : σ)
    (child : ρ) : σ :=
  if root ≠ some child ∧ pager.cached s child = false then pager.clearBtreeNode s child else s

end Gaveta
