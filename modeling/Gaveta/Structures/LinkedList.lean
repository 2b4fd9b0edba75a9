import Gaveta.Structures.Arena

/-! `GenericLinkedList.c` and `GenericDynamicArray.c` as the hash table uses them. -/

namespace Gaveta

def listNodeSize : Nat := 24

def dynamicArraySize : Nat := 24

def bucketSize : Nat := 16

/-- Where a caller's data is: in a block of the pool, or bytes at any address. -/
inductive DataPtr where
  | block (address : Nat)
  | bytes (data : Nat → UInt8)

inductive ListPtr where
  | block (address : Nat)
  | element (data index : Nat)
deriving DecidableEq

def ListPtr.address : ListPtr → Nat
  | block address => address
  | element data index => data + index * listNodeSize

namespace Arena

def loadNode (arena : Arena) : ListPtr → Option ListNode
  | .block address =>
      match arena.cells address with
      | .node node => some node
      | _ => none
  | .element data index =>
      match arena.cells data with
      | .elements elements => elements[index]?
      | _ => none

def storeNode (arena : Arena) (ptr : ListPtr) (node : ListNode) : Arena :=
  match ptr with
  | .block address => arena.store address (.node node)
  | .element data index =>
      match arena.cells data with
      | .elements elements => arena.store data (.elements (elements.set index node))
      | _ => arena

/-- What `memcpy` copies from there: a bucket, or so many bytes. -/
def copyCell (arena : Arena) (dataSize : Nat) : DataPtr → Option Cell
  | .bytes data => some (.bytes (copied dataSize data))
  | .block address =>
      match arena.cells address with
      | .bucket bucket => if dataSize = bucketSize then some (.bucket bucket) else none
      | _ => (arena.loadBytes address dataSize).map Cell.bytes

def createLlNode (arena : Arena) (data : Option DataPtr) (dataSize : Nat) :
    Option (Arena × Nat) := do
  let (arena, ll) ← arena.gAlloc listNodeSize
  match data with
  | none =>
      some (arena.store ll (.node { data := none, dataSize := dataSize, next := none }), ll)
  | some source =>
      let (arena, copy) ← arena.gAlloc dataSize
      let cell ← arena.copyCell dataSize source
      let arena := arena.store copy cell
      some (arena.store ll (.node { data := some copy, dataSize := dataSize, next := none }), ll)

/-- `init_ll`; the pointer that `ll` had is not read. -/
def initLl (arena : Arena) (dataSize : Nat) : Option (Arena × Nat) :=
  arena.createLlNode none dataSize

def insertLl (arena : Arena) (ll : ListPtr) (data : Option DataPtr) : Option (Arena × Bool) := do
  let head ← arena.loadNode ll
  let (arena, newNode) ← arena.createLlNode data head.dataSize
  let created ← arena.loadNode (.block newNode)
  if created.data.isNone then some (arena, false)
  else
    let sentinel ← arena.loadNode ll
    let arena := arena.storeNode (.block newNode) { created with next := sentinel.next }
    some (arena.storeNode ll { sentinel with next := some newNode }, true)

def searchNodes (arena : Arena) (f : Nat → Option Bool) : Nat → Option Nat → Option (Option Nat)
  | 0, _ => none
  | _ + 1, none => some none
  | fuel + 1, some aux => do
      let node ← arena.loadNode (.block aux)
      let data ← node.data
      if ← f data then some (some data) else searchNodes arena f fuel node.next

/-- `search_ll`; the inner value is nothing where it returns false. -/
def searchLl (arena : Arena) (ll : ListPtr) (f : Nat → Option Bool) : Option (Option Nat) := do
  let head ← arena.loadNode ll
  arena.searchNodes f (arena.trace.length + 1) head.next

def removeLl (arena : Arena) (ll : ListPtr) : Option Arena := do
  let sentinel ← arena.loadNode ll
  let removed ← sentinel.next
  let node ← arena.loadNode (.block removed)
  let arena := arena.storeNode ll { sentinel with next := node.next }
  let arena :=
    match node.data with
    | some data => arena.gDealloc data
    | none => arena
  some (arena.gDealloc removed)

def removeAll (ll : ListPtr) : Nat → Arena → Option Arena
  | 0, _ => none
  | fuel + 1, arena => do
      let sentinel ← arena.loadNode ll
      if sentinel.next.isNone then some arena
      else
        let arena ← arena.removeLl ll
        removeAll ll fuel arena

def clearLl (arena : Arena) (ll : ListPtr) : Option Arena := do
  let arena ← removeAll ll (arena.trace.length + 1) arena
  some (arena.gDealloc ll.address)

def darrayCreate (arena : Arena) (elementSize initialCapacity : Nat) : Option (Arena × Nat) := do
  let (arena, array) ← arena.gAlloc dynamicArraySize
  let capacity := if 0 < initialCapacity then initialCapacity else 8
  let (arena, data) ← arena.gAlloc (capacity * elementSize)
  let arena := arena.store data (.elements [])
  some
    (arena.store array
      (.array { data := data, size := 0, capacity := capacity, elementSize := elementSize }),
    array)

def loadArray (arena : Arena) (array : Nat) : Option DynamicArray :=
  match arena.cells array with
  | .array array => some array
  | _ => none

/-- `darray_push`; nothing if the array is full, where `realloc` gets an address of the pool. -/
def darrayPush (arena : Arena) (array : Nat) (element : ListNode) : Option Arena := do
  let header ← arena.loadArray array
  if header.capacity ≤ header.size then none
  else
    match arena.cells header.data with
    | .elements elements =>
        let arena := arena.store header.data (.elements (elements ++ [element]))
        some (arena.store array (.array { header with size := header.size + 1 }))
    | _ => none

def darrayGetPointer (header : DynamicArray) (index : Nat) : Option ListPtr :=
  if header.size ≤ index then none else some (.element header.data index)

def darrayDestroy (arena : Arena) (array : Nat) : Option Arena := do
  let header ← arena.loadArray array
  some ((arena.gDealloc header.data).gDealloc array)

section Specifications

variable {arena after : Arena}

@[simp] theorem loadNode_block {address : Nat} {node : ListNode}
    (holds : arena.Holds address (.node node)) : arena.loadNode (.block address) = some node := by
  simp only [loadNode, holds.2]

theorem loadNode_element {data index : Nat} {elements : List ListNode}
    (holds : arena.Holds data (.elements elements)) :
    arena.loadNode (.element data index) = elements[index]? := by
  simp only [loadNode, holds.2]

theorem storeNode_element {data index : Nat} {elements : List ListNode} {node : ListNode}
    (holds : arena.Holds data (.elements elements)) :
    arena.storeNode (.element data index) node =
      arena.store data (.elements (elements.set index node)) := by
  simp only [storeNode, holds.2]

structure Created (arena after : Arena) (ll size : Nat) (cell : Cell) : Prop where
  grows : Extends arena after
  fresh : ¬arena.Live ll
  longer : arena.trace.length < after.trace.length
  node : ∃ copy, copy ≠ ll ∧ ¬arena.Live copy ∧
    after.Holds ll (.node { data := some copy, dataSize := size, next := none }) ∧
      after.Holds copy cell

def Copies (arena : Arena) (size : Nat) (data : DataPtr) (cell : Cell) : Prop :=
  ∀ {after : Arena} {other : Cell}, Extends arena after → after.copyCell size data = some other →
    other = cell

theorem copies_bytes (arena : Arena) (size : Nat) (data : Nat → UInt8) :
    arena.Copies size (.bytes data) (.bytes (copied size data)) :=
  fun _ same => (Option.some.inj same).symm

theorem copies_bucket {address : Nat} {bucket : Bucket} (size : Nat)
    (holds : arena.Holds address (.bucket bucket)) :
    arena.Copies size (.block address) (.bucket bucket) := by
  intro after other grows same
  simp only [copyCell, (holds.grow grows).2] at same
  split_ifs at same
  exact (Option.some.inj same).symm

theorem createLlNode_spec {size ll : Nat} {data : DataPtr} {cell : Cell}
    (copies : arena.Copies size data cell)
    (created : arena.createLlNode (some data) size = some (after, ll)) :
    Created arena after ll size cell := by
  simp only [createLlNode, Option.bind_eq_bind, Option.bind_eq_some_iff, Prod.exists,
    Option.some.injEq, Prod.mk.injEq] at created
  obtain ⟨first, address, allocated, second, copy, copied, content, read, rfl, rfl⟩ := created
  have outer := gAlloc_spec allocated
  have inner := gAlloc_spec copied
  have grows := outer.grows.trans inner.grows
  have different : copy ≠ address := by
    rintro rfl
    exact inner.fresh outer.live
  have copyFresh : ¬arena.Live copy := fun live => inner.fresh (outer.grows.live live)
  refine ⟨(grows.store copyFresh _).store outer.fresh _, outer.fresh, ?_, copy, different,
    copyFresh, ?_, ?_⟩
  · simp only [store_trace, inner.trace, outer.trace, List.length_cons]
    omega
  · exact Holds.store_self (inner.grows.live outer.live)
  · refine Holds.store_of_ne ?_ _ different
    rw [copies grows read]
    exact Holds.store_self inner.live

theorem initLl_spec {size ll : Nat} (created : arena.initLl size = some (after, ll)) :
    Extends arena after ∧ after.Holds ll (.node { data := none, dataSize := size, next := none }) := by
  simp only [initLl, createLlNode, Option.bind_eq_bind, Option.bind_eq_some_iff, Prod.exists,
    Option.some.injEq, Prod.mk.injEq] at created
  obtain ⟨first, address, allocated, rfl, rfl⟩ := created
  have outer := gAlloc_spec allocated
  exact ⟨outer.grows.store outer.fresh _, Holds.store_self outer.live⟩

theorem darrayCreate_spec {elementSize capacity array : Nat} (positive : 0 < capacity)
    (created : arena.darrayCreate elementSize capacity = some (after, array)) :
    Extends arena after ∧ ¬arena.Live array ∧ ∃ data, ¬arena.Live data ∧
      after.Holds array
        (.array { data := data, size := 0, capacity := capacity, elementSize := elementSize }) ∧
      after.Holds data (.elements []) := by
  simp only [darrayCreate, Option.bind_eq_bind, Option.bind_eq_some_iff, Prod.exists,
    Option.some.injEq, Prod.mk.injEq, positive, ↓reduceIte] at created
  obtain ⟨first, array, atArray, second, data, atData, rfl, rfl⟩ := created
  have outer := gAlloc_spec atArray
  have inner := gAlloc_spec atData
  have dataFresh : ¬arena.Live data := fun live => inner.fresh (outer.grows.live live)
  have different : data ≠ array := by
    rintro rfl
    exact inner.fresh outer.live
  refine ⟨((outer.grows.trans inner.grows).store dataFresh _).store outer.fresh _, outer.fresh,
    data, dataFresh, Holds.store_self (inner.grows.live outer.live), ?_⟩
  exact (Holds.store_self inner.live).store_of_ne _ different

theorem darrayPush_spec {array : Nat} {header : DynamicArray} {elements : List ListNode}
    {element : ListNode} (atArray : arena.Holds array (.array header))
    (atData : arena.Holds header.data (.elements elements))
    (pushed : arena.darrayPush array element = some after) :
    header.size < header.capacity ∧
      after.Holds array (.array { header with size := header.size + 1 }) ∧
      after.Holds header.data (.elements (elements ++ [element])) ∧
      ∀ {address cell}, arena.Holds address cell → address ≠ array → address ≠ header.data →
        after.Holds address cell := by
  have different : header.data ≠ array := by
    rintro same
    rw [same] at atData
    cases atData.unique atArray
  have loaded : arena.loadArray array = some header := by simp only [loadArray, atArray.2]
  simp only [darrayPush, loaded, atData.2, Option.bind_eq_bind, Option.bind_some] at pushed
  split_ifs at pushed with full
  obtain rfl := Option.some.inj pushed
  refine ⟨by omega, Holds.store_self atArray.1,
    (Holds.store_self atData.1).store_of_ne _ different, ?_⟩
  intro address cell holds notArray notData
  exact (holds.store_of_ne _ notData).store_of_ne _ notArray

structure Inserted (arena after : Arena) (data index : Nat) (head : ListNode)
    (elements : List ListNode) (cell : Cell) : Prop where
  kept : ∀ {address other}, arena.Holds address other → address ≠ data → after.Holds address other
  longer : arena.trace.length < after.trace.length
  linked : ∃ ll copy,
    after.Holds ll (.node { data := some copy, dataSize := head.dataSize, next := head.next }) ∧
      after.Holds copy cell ∧
      after.Holds data (.elements (elements.set index { head with next := some ll }))

theorem insertLl_spec {data index : Nat} {source : DataPtr} {ok : Bool} {elements : List ListNode}
    {head : ListNode} {cell : Cell} (array : arena.Holds data (.elements elements))
    (slot : elements[index]? = some head) (copies : arena.Copies head.dataSize source cell)
    (inserted : arena.insertLl (.element data index) (some source) = some (after, ok)) :
    ok = true ∧ Inserted arena after data index head elements cell := by
  simp only [insertLl, Option.bind_eq_bind, Option.bind_eq_some_iff, Prod.exists,
    Option.some.injEq, loadNode_element array, slot] at inserted
  obtain ⟨_, rfl, middle, ll, create, node, loaded, inserted⟩ := inserted
  have created := createLlNode_spec copies create
  obtain ⟨copy, copyNe, copyFresh, atNode, atCopy⟩ := created.node
  have array' := array.grow created.grows
  rw [loadNode_block atNode] at loaded
  obtain rfl := Option.some.inj loaded
  simp only [Option.isNone_some, Bool.false_eq_true, ↓reduceIte, loadNode_element array', slot,
    Option.bind_some, Option.some.injEq, Prod.mk.injEq] at inserted
  obtain ⟨rfl, rfl⟩ := inserted
  have dataNe : data ≠ ll := by
    rintro rfl
    exact created.fresh array.1
  have stored := array'.store_of_ne
    (.node { data := some copy, dataSize := head.dataSize, next := head.next }) dataNe
  have copyNotData : copy ≠ data := by
    rintro rfl
    exact copyFresh array.1
  rw [storeNode, storeNode_element stored]
  refine ⟨rfl, ?_, ?_, ll, copy, ?_, ?_, Holds.store_self stored.1⟩
  · intro address other held different
    have notNode : address ≠ ll := by
      rintro rfl
      exact created.fresh held.1
    exact ((held.grow created.grows).store_of_ne _ notNode).store_of_ne _ different
  · exact created.longer
  · exact (Holds.store_self atNode.1).store_of_ne _ dataNe.symm
  · exact (atCopy.store_of_ne _ copyNe).store_of_ne _ copyNotData

inductive Chain (arena : Arena) : Option Nat → List (CString × List UInt8) → Prop
  | nil : Chain arena none []
  | cons {address copy : Nat} {next : Option Nat} {bucket : Bucket} {key : CString}
      {content : List UInt8} {rest : List (CString × List UInt8)} {size : Nat}
      (node : arena.Holds address (.node { data := some copy, dataSize := size, next := next }))
      (bucketAt : arena.Holds copy (.bucket bucket))
      (keyAt : arena.Holds bucket.key (.chars key))
      (dataAt : arena.Holds bucket.data (.bytes content)) (tail : Chain arena next rest) :
      Chain arena (some address) ((key, content) :: rest)

theorem Chain.mono {head : Option Nat} {entries : List (CString × List UInt8)}
    (chain : Chain arena head entries)
    (kept : ∀ {address cell}, arena.Holds address cell → (∀ elements, cell ≠ .elements elements) →
      after.Holds address cell) : Chain after head entries := by
  induction chain with
  | nil => exact .nil
  | cons node bucketAt keyAt dataAt _ ih =>
      exact .cons (kept node (by simp)) (kept bucketAt (by simp)) (kept keyAt (by simp))
        (kept dataAt (by simp)) ih

theorem searchNodes_spec {f : Nat → Option Bool} {accepts : CString → Bool}
    {head : Option Nat} {entries : List (CString × List UInt8)} {fuel : Nat}
    (chain : Chain arena head entries) (enough : entries.length < fuel)
    (compares : ∀ {copy bucket key}, arena.Holds copy (.bucket bucket) →
      arena.Holds bucket.key (.chars key) → f copy = some (accepts key)) :
    (arena.searchNodes f fuel head = some none ∧
        entries.find? (fun entry => accepts entry.1) = none) ∨
      ∃ copy bucket entry, arena.searchNodes f fuel head = some (some copy) ∧
        entries.find? (fun entry => accepts entry.1) = some entry ∧
        arena.Holds copy (.bucket bucket) ∧ arena.Holds bucket.data (.bytes entry.2) := by
  induction chain generalizing fuel with
  | nil =>
      obtain ⟨fuel, rfl⟩ := Nat.exists_eq_add_of_lt enough
      exact Or.inl ⟨by simp [searchNodes], rfl⟩
  | @cons address copy next bucket key content rest size node bucketAt keyAt dataAt _ ih =>
      obtain ⟨fuel, rfl⟩ : ∃ left, fuel = left + 1 := ⟨fuel - 1, by omega⟩
      have step : arena.searchNodes f (fuel + 1) (some address) =
          if accepts key then some (some copy) else arena.searchNodes f fuel next := by
        simp only [searchNodes, loadNode_block node, compares bucketAt keyAt, Option.bind_eq_bind,
          Option.bind_some]
      rw [step]
      by_cases accepted : accepts key = true
      · exact Or.inr ⟨copy, bucket, (key, content), by simp [accepted], by simp [accepted],
          bucketAt, dataAt⟩
      · rw [if_neg accepted, List.find?_cons_of_neg (by simpa using accepted)]
        exact ih (by simpa using enough)

end Specifications

end Arena

end Gaveta
