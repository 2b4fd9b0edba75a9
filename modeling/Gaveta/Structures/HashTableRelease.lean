import Gaveta.Structures.HashTable

/-! What `clear_ht` releases. -/

namespace Gaveta

namespace Arena

def clearHeads (header : DynamicArray) : Nat → Nat → Arena → Option Arena
  | 0, _, arena => some arena
  | left + 1, i, arena =>
      match darrayGetPointer header i with
      | none => clearHeads header left (i + 1) arena
      | some bl => do
          let arena ← arena.clearLl bl
          clearHeads header left (i + 1) (arena.gDealloc bl.address)

def clearHt (arena : Arena) (ht : Nat) : Option Arena := do
  let table ← arena.loadTable ht
  let header ← arena.loadArray table.bucketHeads
  let arena ← clearHeads header header.size 0 arena
  let arena ← arena.darrayDestroy table.bucketHeads
  some (arena.gDealloc ht)

end Arena

def ReleasesLive (earlier : List Event) : List Event → Prop
  | [] => True
  | .allocate _ :: rest => ReleasesLive earlier rest
  | .release address :: rest =>
      (∃ block ∈ liveBlocks (rest ++ earlier), block.address = address) ∧
        ReleasesLive earlier rest

theorem ReleasesLive.split {earlier later rest : List Event} {address : Nat}
    (releases : ReleasesLive earlier (later ++ .release address :: rest)) :
    ∃ block ∈ liveBlocks (rest ++ earlier), block.address = address := by
  induction later with
  | nil => exact releases.1
  | cons event later ih =>
      cases event with
      | allocate block => exact ih releases
      | release other => exact ih releases.2

/-- What the owner of a table expects of `clear_ht`: it releases blocks in use only, and all that
the table has allocated since `start`. -/
structure ReleasesTable (start filled cleared : Arena) : Prop where
  live : ∃ events, cleared.trace = events ++ filled.trace ∧ ReleasesLive filled.trace events
  complete : liveBlocks cleared.trace = liveBlocks start.trace
  freePageNum : cleared.memory.freePageNum = start.memory.freePageNum
  free : freePages cleared.memory = freePages start.memory

inductive Linked (cells : Nat → Cell) : Option Nat → Nat → Prop
  | nil : Linked cells none 0
  | cons {address size count : Nat} {data next : Option Nat}
      (node : cells address = .node { data := data, dataSize := size, next := next })
      (tail : Linked cells next count) : Linked cells (some address) (count + 1)

theorem Arena.Chain.linked {arena : Arena} {head : Option Nat} {entries : List Arena.Entry}
    (chain : arena.Chain head entries) : Linked arena.cells head entries.length := by
  induction chain with
  | nil => exact .nil
  | cons node _ _ _ _ ih => exact .cons node.2 ih

theorem Linked.update {cells : Nat → Cell} {head : Option Nat} {count data : Nat}
    {elements : List ListNode} (linked : Linked cells head count)
    (array : cells data = .elements elements) (other : List ListNode) :
    Linked (Function.update cells data (.elements other)) head count := by
  induction linked with
  | nil => exact .nil
  | @cons address size count content next node _ ih =>
      have different : address ≠ data := by
        rintro rfl
        rw [array] at node
        cases node
      exact .cons ((Function.update_of_ne different ..).trans node) ih

structure Arena.Cleared (arena after : Arena) (data : Nat) (changed : Nat → Prop)
    (elements : List ListNode) : Prop where
  cells : ∃ others, after.cells = Function.update arena.cells data (.elements others) ∧
    ∀ slot, ¬changed slot → others[slot]? = elements[slot]?
  trace : ∃ events, after.trace = events ++ arena.trace

namespace Arena

variable {arena after : Arena} {data index : Nat} {elements : List ListNode}

theorem removeLl_spec {address : Nat} {content next : Option Nat} {size : Nat}
    (array : arena.cells data = .elements elements)
    (slot : elements[index]? = some (sentinel (some address)))
    (node : arena.cells address = .node { data := content, dataSize := size, next := next }) :
    ∃ after, arena.removeLl (.element data index) = some after ∧
      after.cells = Function.update arena.cells data
        (.elements (elements.set index (sentinel next))) ∧
      ∃ events, after.trace = events ++ arena.trace := by
  have head : arena.loadNode (.element data index) = some (sentinel (some address)) := by
    simp only [loadNode, array, slot]
  have removed : arena.loadNode (.block address) =
      some { data := content, dataSize := size, next := next } := by
    simp only [loadNode, node]
  have stored : arena.storeNode (.element data index)
      { sentinel (some address) with next := next } =
        arena.store data (.elements (elements.set index (sentinel next))) := by
    simp only [storeNode, array]
    rfl
  have unlinked : (sentinel (some address)).next = some address := rfl
  simp only [removeLl, head, removed, stored, unlinked, Option.bind_eq_bind, Option.bind_some,
    Option.some.injEq, exists_eq_left']
  cases content with
  | none => exact ⟨rfl, [.release address], rfl⟩
  | some copy => exact ⟨rfl, [.release address, .release copy], rfl⟩

namespace Cleared

variable {changed : Nat → Prop}

theorem refl (array : arena.cells data = .elements elements) :
    Cleared arena arena data changed elements where
  cells := ⟨elements, by rw [← array, Function.update_eq_self], fun _ _ => rfl⟩
  trace := ⟨[], rfl⟩

theorem elements_after (cleared : Cleared arena after data changed elements) :
    ∃ others, after.cells data = .elements others ∧
      ∀ slot, ¬changed slot → others[slot]? = elements[slot]? := by
  obtain ⟨others, cells, kept⟩ := cleared.cells
  exact ⟨others, by rw [cells, Function.update_self], kept⟩

theorem linked (cleared : Cleared arena after data changed elements)
    (array : arena.cells data = .elements elements) {head : Option Nat} {count : Nat}
    (linked : Linked arena.cells head count) : Linked after.cells head count := by
  obtain ⟨others, cells, _⟩ := cleared.cells
  rw [cells]
  exact linked.update array others

theorem mono (cleared : Cleared arena after data changed elements) {more : Nat → Prop}
    (wider : ∀ slot, changed slot → more slot) : Cleared arena after data more elements where
  cells := by
    obtain ⟨others, cells, kept⟩ := cleared.cells
    exact ⟨others, cells, fun slot notChanged => kept slot fun too => notChanged (wider slot too)⟩
  trace := cleared.trace

theorem cells_of_ne (cleared : Cleared arena after data changed elements) {address : Nat}
    (different : address ≠ data) : after.cells address = arena.cells address := by
  obtain ⟨others, cells, _⟩ := cleared.cells
  rw [cells, Function.update_of_ne different]

theorem longer (cleared : Cleared arena after data changed elements) :
    arena.trace.length ≤ after.trace.length := by
  obtain ⟨events, traced⟩ := cleared.trace
  simp [traced]

theorem trans {final : Arena} {others : List ListNode}
    (first : Cleared arena after data changed elements)
    (array : after.cells data = .elements others)
    (second : Cleared after final data changed others) :
    Cleared arena final data changed elements := by
  obtain ⟨middle, cells, kept⟩ := first.cells
  obtain ⟨last, cellsAfter, keptAfter⟩ := second.cells
  obtain ⟨events, traced⟩ := first.trace
  obtain ⟨more, tracedAfter⟩ := second.trace
  obtain rfl : middle = others := by
    rw [cells, Function.update_self] at array
    exact Cell.elements.inj array
  refine ⟨⟨last, ?_, fun slot notChanged => ?_⟩, more ++ events, ?_⟩
  · rw [cellsAfter, cells, Function.update_idem]
  · rw [keptAfter slot notChanged, kept slot notChanged]
  · rw [tracedAfter, traced, List.append_assoc]

theorem release (cleared : Cleared arena after data changed elements) (address : Nat) :
    Cleared arena (after.gDealloc address) data changed elements where
  cells := cleared.cells
  trace := by
    obtain ⟨events, traced⟩ := cleared.trace
    exact ⟨.release address :: events, by rw [gDealloc, traced, List.cons_append]⟩

end Cleared

theorem removeAll_spec {next : Option Nat} {count fuel : Nat}
    (linked : Linked arena.cells next count) (array : arena.cells data = .elements elements)
    (slot : elements[index]? = some (sentinel next)) (enough : count < fuel) :
    ∃ after, removeAll (.element data index) fuel arena = some after ∧
      Cleared arena after data (· = index) elements := by
  have head : arena.loadNode (.element data index) = some (sentinel next) := by
    simp only [loadNode, array, slot]
  obtain ⟨fuel, rfl⟩ : ∃ left, fuel = left + 1 := ⟨fuel - 1, by omega⟩
  induction count generalizing arena next elements fuel with
  | zero =>
      cases linked
      exact ⟨arena, by simp [removeAll, head, sentinel], Cleared.refl array⟩
  | succ count ih =>
      cases linked with
      | @cons address size _ content next node tail =>
          obtain ⟨middle, removed, cells, traced⟩ := removeLl_spec array slot node
          have inside : index < elements.length := (List.getElem?_eq_some_iff.mp slot).1
          have emptied : middle.cells data = .elements (elements.set index (sentinel next)) := by
            rw [cells, Function.update_self]
          have slot' : (elements.set index (sentinel next))[index]? = some (sentinel next) := by
            simp [inside]
          have head' : middle.loadNode (.element data index) = some (sentinel next) := by
            simp only [loadNode, emptied, slot']
          have step : Cleared arena middle data (· = index) elements :=
            ⟨⟨_, cells, fun other different => by
              rw [List.getElem?_set_ne (Ne.symm different)]⟩, traced⟩
          obtain ⟨left, rfl⟩ : ∃ left, fuel = left + 1 := ⟨fuel - 1, by omega⟩
          obtain ⟨after, rest, cleared⟩ :=
            ih (step.linked array tail) emptied slot' head' left (by omega)
          refine ⟨after, ?_, step.trans emptied cleared⟩
          rw [removeAll, head, Option.bind_eq_bind, Option.bind_some, removed]
          exact rest

theorem clearLl_spec {next : Option Nat} {count : Nat} (linked : Linked arena.cells next count)
    (array : arena.cells data = .elements elements)
    (slot : elements[index]? = some (sentinel next)) (enough : count ≤ arena.trace.length) :
    ∃ after, arena.clearLl (.element data index) = some after ∧
      Cleared arena after data (· = index) elements ∧
      ∃ events, after.trace =
        .release (data + index * listNodeSize) :: (events ++ arena.trace) := by
  obtain ⟨after, emptied, cleared⟩ :=
    removeAll_spec linked array slot (Nat.lt_succ_of_le enough)
  obtain ⟨events, traced⟩ := cleared.trace
  refine ⟨after.gDealloc (data + index * listNodeSize), ?_, cleared.release _, events, ?_⟩
  · rw [clearLl, emptied]
    rfl
  · rw [gDealloc, traced]

def ListsFrom (arena : Arena) (elements : List ListNode) (size i : Nat) : Prop :=
  ∀ slot, i ≤ slot → slot < size → ∃ next count, elements[slot]? = some (sentinel next) ∧
    Linked arena.cells next count ∧ count ≤ arena.trace.length

theorem ListsFrom.step {others : List ListNode} {size i : Nat}
    (lists : ListsFrom arena elements size i) (array : arena.cells data = .elements elements)
    (cleared : Cleared arena after data (· = i) elements)
    (array' : after.cells data = .elements others) : ListsFrom after others size (i + 1) := by
  intro slot lower upper
  obtain ⟨next, count, found, linked, short⟩ := lists slot (by omega) upper
  obtain ⟨last, cells, kept⟩ := cleared.elements_after
  obtain rfl : last = others := Cell.elements.inj (cells.symm.trans array')
  exact ⟨next, count, (kept slot (by omega)).trans found, cleared.linked array linked,
    short.trans cleared.longer⟩

theorem clearHeads_succ {header : DynamicArray} {left i : Nat} {bl : ListPtr}
    (pointer : darrayGetPointer header i = some bl) (emptied : arena.clearLl bl = some after) :
    clearHeads header (left + 1) i arena =
      clearHeads header left (i + 1) (after.gDealloc bl.address) := by
  rw [clearHeads, pointer]
  simp only [emptied, Option.bind_eq_bind, Option.bind_some]

theorem clearHeads_spec {header : DynamicArray} {left i : Nat} (atData : header.data = data)
    (lists : ListsFrom arena elements header.size i)
    (array : arena.cells data = .elements elements) (counted : i + left = header.size) :
    ∃ after, clearHeads header left i arena = some after ∧
      Cleared arena after data (i ≤ ·) elements := by
  subst atData
  induction left generalizing arena elements i with
  | zero => exact ⟨arena, rfl, Cleared.refl array⟩
  | succ left ih =>
      obtain ⟨next, count, slot, linked, short⟩ := lists i le_rfl (by omega)
      have pointer : darrayGetPointer header i = some (.element header.data i) :=
        if_neg (by omega)
      obtain ⟨middle, emptied, cleared, _⟩ := clearLl_spec linked array slot short
      have released := cleared.release (header.data + i * listNodeSize)
      obtain ⟨others, array', _⟩ := released.elements_after
      obtain ⟨after, rest, last⟩ := ih (lists.step array released array') (by omega) array'
      refine ⟨after, ?_, (released.mono fun slot same => same.ge).trans array'
        (last.mono fun slot above => Nat.le_of_succ_le above)⟩
      exact (clearHeads_succ pointer emptied).trans rest

theorem clearHt_releases_twice {ht heads : Nat} {next : Nat → Option Nat} {dataSize : UInt32}
    {maxKeySize : UInt16} {entries : Nat → List Entry}
    (represents : Represents arena ht heads data next dataSize maxKeySize entries) :
    ∃ cleared later earlier, arena.clearHt ht = some cleared ∧
      cleared.trace = later ++ .release data :: .release data :: (earlier ++ arena.trace) := by
  have lists : ListsFrom arena ((List.range initialHtSize).map fun i => sentinel (next i))
      initialHtSize 0 := by
    intro slot _ inside
    exact ⟨next slot, _, by simp [inside], (represents.chains slot inside).linked,
      represents.short slot inside⟩
  obtain ⟨_, _, slot, linked, short⟩ := lists 0 le_rfl (by decide)
  obtain ⟨middle, emptied, cleared, events, traced⟩ :=
    clearLl_spec linked represents.elements.2 slot short
  have released := cleared.release (data + 0 * listNodeSize)
  obtain ⟨others, array, _⟩ := released.elements_after
  generalize made : DynamicArray.mk data initialHtSize initialHtSize listNodeSize = header
  have atData : header.data = data := by rw [← made]
  have size : header.size = initialHtSize := by rw [← made]
  obtain ⟨left, counted⟩ : ∃ left, header.size = left + 1 := ⟨15, size⟩
  have listsAfter := lists.step represents.elements.2 released array
  rw [← size] at listsAfter
  obtain ⟨after, rest, last⟩ := clearHeads_spec atData listsAfter array
    (show 0 + 1 + left = header.size by omega)
  obtain ⟨more, tracedAfter⟩ := last.trace
  have headsNe : heads ≠ data := by
    rintro rfl
    cases represents.array.unique represents.elements
  have loaded : after.loadArray heads = some header := by
    rw [Arena.loadArray, last.cells_of_ne headsNe, released.cells_of_ne headsNe,
      represents.array.2, ← made]
  have loop : clearHeads header header.size 0 arena = some after := by
    have pointer : darrayGetPointer header 0 = some (.element data 0) := by
      rw [← made]
      exact Represents.pointer (by decide)
    rw [counted]
    exact (clearHeads_succ pointer emptied).trans rest
  refine ⟨((after.gDealloc header.data).gDealloc heads).gDealloc ht,
    .release ht :: .release heads :: .release data :: more, events, ?_, ?_⟩
  · rw [clearHt, represents.loadTable]
    simp only [represents.loadArray, made, loop, darrayDestroy, loaded, Option.bind_eq_bind,
      Option.bind_some]
  · simp only [gDealloc, tracedAfter, traced, atData, Nat.zero_mul, Nat.add_zero,
      List.cons_append]

section Claims

variable {h : CString → UInt32} {start empty filled : Arena} {ht : Nat} {dataSize : UInt32}
  {maxKeySize : UInt16} {puts : List (CString × (Nat → UInt8))}

theorem putAll_represents {heads : Nat} {next : Nat → Option Nat} {entries : Nat → List Entry}
    (represents : Represents arena ht heads data next dataSize maxKeySize entries)
    (run : arena.putAll h ht puts = some filled) :
    ∃ next entries, Represents filled ht heads data next dataSize maxKeySize entries := by
  induction puts generalizing arena next entries with
  | nil =>
      obtain rfl := Option.some.inj run
      exact ⟨next, entries, represents⟩
  | cons put puts ih =>
      obtain ⟨key, content⟩ := put
      simp only [putAll, Option.bind_eq_bind, Option.bind_eq_some_iff, Prod.exists] at run
      obtain ⟨middle, ok, first, rest⟩ := run
      obtain ⟨_, next, grown⟩ := putHt_spec represents first
      exact ih grown rest

theorem not_releasesTable {cleared : Arena} {later earlier : List Event}
    (twice : cleared.trace =
      later ++ .release data :: .release data :: (earlier ++ filled.trace)) :
    ¬ReleasesTable start filled cleared := by
  rintro ⟨⟨events, traced, live⟩, _⟩
  have same : events = later ++ .release data :: .release data :: earlier := by
    rw [← List.append_left_inj filled.trace, ← traced, twice, List.append_assoc]
    rfl
  rw [same] at live
  obtain ⟨block, member, address⟩ := live.split
  simp [liveBlocks, address] at member

theorem clearHt_never_releasesTable
    (made : start.initHt dataSize maxKeySize = some (empty, ht))
    (run : empty.putAll h ht puts = some filled) :
    ∃ cleared, filled.clearHt ht = some cleared ∧ ¬ReleasesTable start filled cleared := by
  obtain ⟨heads, data, begun⟩ := initHt_spec made
  obtain ⟨next, entries, represents⟩ := putAll_represents begun run
  obtain ⟨cleared, later, earlier, finished, twice⟩ := clearHt_releases_twice represents
  exact ⟨cleared, finished, not_releasesTable twice⟩

def onePut : List (CString × (Nat → UInt8)) := [(.ofBuffer [97], fun _ => 7)]

theorem clearHt_never_releasesTable_put :
    ∃ empty ht filled, (unusedArena 80000).initHt 2 3 = some (empty, ht) ∧
      empty.putAll (fun _ => 5) ht onePut = some filled ∧
      ∃ cleared, filled.clearHt ht = some cleared ∧
        ¬ReleasesTable (unusedArena 80000) filled cleared := by
  have runs : ((unusedArena 80000).initHt 2 3 |>.bind fun made =>
      made.1.putAll (fun _ => 5) made.2 onePut).isSome = true := by
    decide +kernel
  obtain ⟨filled, runs⟩ := Option.isSome_iff_exists.mp runs
  obtain ⟨⟨empty, ht⟩, made, put⟩ := Option.bind_eq_some_iff.mp runs
  exact ⟨empty, ht, filled, made, put, clearHt_never_releasesTable made put⟩

/-- Not even a table without any entry is released as it should be. -/
theorem empty_table_released_twice :
    ¬∀ empty ht cleared, (unusedArena 40000).initHt 2 3 = some (empty, ht) →
      empty.clearHt ht = some cleared → ReleasesTable (unusedArena 40000) empty cleared := by
  intro releases
  have runs : ((unusedArena 40000).initHt 2 3).isSome = true := by decide +kernel
  obtain ⟨⟨empty, ht⟩, made⟩ := Option.isSome_iff_exists.mp runs
  obtain ⟨heads, data, represents⟩ := initHt_spec made
  obtain ⟨cleared, later, earlier, finished, twice⟩ := clearHt_releases_twice represents
  exact not_releasesTable twice (releases empty ht cleared made finished)

end Claims

end Arena

end Gaveta
