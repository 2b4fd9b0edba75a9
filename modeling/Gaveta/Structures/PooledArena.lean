import Gaveta.Memory.Fragmentation
import Gaveta.Structures.HashTableRelease

/-! The typed contents over a pool whose page table is whole. -/

namespace Gaveta

namespace Arena

def Pooled (arena : Arena) : Prop :=
  Accounted { memory := arena.memory, live := liveBlocks arena.trace } 0

variable {arena after : Arena} {bytes address : Nat} {block other : Block}

theorem pooled_unusedArena {memSize : Nat} (small : memSize < u32Range) :
    (unusedArena memSize).Pooled := Accounted.start 0 (fun _ => 0) small

theorem block_end {heap : Heap} (invariant : HeapInvariant heap) (member : block ∈ heap.live) :
    block.address = block.first * pageSize + allocHeaderSize ∧
      block.address + block.bytes ≤ (block.first + numPages block.bytes) * pageSize := by
  have aligned := invariant.aligned block member
  have room := numPages_room block.bytes
  refine ⟨aligned, ?_⟩
  rw [aligned, Nat.add_mul]
  omega

theorem pages_apart (disjoint : Disjoint block.pages other.pages) :
    block.first + numPages block.bytes ≤ other.first ∨
      other.first + numPages other.bytes ≤ block.first := by
  have own := HeapInvariant.count_pos block.bytes
  have others := HeapInvariant.count_pos other.bytes
  by_contra overlap
  rw [not_or, not_le, not_le] at overlap
  rcases le_total block.first other.first with before | after
  · refine Finset.disjoint_left.mp disjoint ?_ (HeapInvariant.first_mem_pages other)
    simp only [Block.pages, Block.span, Spans.Span.mem_points]
    omega
  · refine Finset.disjoint_left.mp disjoint (HeapInvariant.first_mem_pages block) ?_
    simp only [Block.pages, Block.span, Spans.Span.mem_points]
    omega

theorem not_overlaps {heap : Heap} (invariant : HeapInvariant heap) (member : block ∈ heap.live)
    (also : other ∈ heap.live) (disjoint : Disjoint block.pages other.pages) :
    ¬block.Overlaps other := by
  obtain ⟨start, stop⟩ := block_end invariant member
  obtain ⟨start', stop'⟩ := block_end invariant also
  simp only [pageSize, allocHeaderSize] at start stop start' stop'
  rw [Block.Overlaps]
  rcases pages_apart disjoint with before | after
  · omega
  · omega

namespace Pooled

/-- With enough free pages `g_alloc` is `g_allocate`: it never returns bytes in use. -/
theorem gAlloc_eq (pooled : arena.Pooled) (served : numPages bytes ≤ arena.memory.freePageNum) :
    arena.gAlloc bytes = (gAllocate arena.memory bytes).bind fun got =>
      got.2.map fun address =>
        ({ memory := got.1
           cells := Function.update arena.cells address .raw
           trace := .allocate { address := address, bytes := bytes } :: arena.trace }, address) := by
  rw [gAlloc]
  cases allocates : gAllocate arena.memory bytes with
  | none => rfl
  | some got =>
      obtain ⟨memory, _ | address⟩ := got
      · rfl
      · have acts : Heap.act { memory := arena.memory, live := liveBlocks arena.trace }
            (.allocate bytes) =
            some { memory := memory, live := ⟨address, bytes⟩ :: liveBlocks arena.trace } := by
          simp only [Heap.act, allocates]
        have invariant := (pooled.allocate served acts).invariant
        have apart := (List.pairwise_cons.mp invariant.apart).1
        dsimp only
        rw [if_neg]
        · rfl
        · rintro ⟨other, member, overlaps⟩
          exact not_overlaps invariant (by simp) (List.mem_cons_of_mem _ member)
            (apart other member) overlaps

theorem gAlloc (pooled : arena.Pooled) (served : numPages bytes ≤ arena.memory.freePageNum)
    (allocated : arena.gAlloc bytes = some (after, address)) :
    after.Pooled ∧ after.memory.len = arena.memory.len ∧
      after.memory.freePageNum + numPages bytes = arena.memory.freePageNum := by
  rw [pooled.gAlloc_eq served] at allocated
  obtain ⟨⟨memory, found⟩, allocates, returned⟩ := Option.bind_eq_some_iff.mp allocated
  obtain ⟨place, rfl, same⟩ := Option.map_eq_some_iff.mp returned
  obtain ⟨rfl, rfl⟩ := Prod.mk.inj same
  have acts : Heap.act { memory := arena.memory, live := liveBlocks arena.trace }
      (.allocate bytes) =
      some { memory := memory, live := ⟨place, bytes⟩ :: liveBlocks arena.trace } := by
    simp only [Heap.act, allocates]
  have grown := pooled.allocate served acts
  have len := (gAllocate_len allocates).1
  have before := pooled.pages_sum
  have total := grown.pages_sum
  rw [List.map_cons, List.sum_cons] at total
  dsimp only at before total
  exact ⟨grown, len, by dsimp only; omega⟩

theorem address_ne (pooled : arena.Pooled) (member : block ∈ liveBlocks arena.trace)
    (also : other ∈ liveBlocks arena.trace) (different : other ≠ block) :
    other.address ≠ block.address := by
  intro same
  have aligned := pooled.invariant.aligned block member
  have alignedOther := pooled.invariant.aligned other also
  have first : other.first = block.first := by rw [Block.first, same, Block.first]
  have apart := pooled.invariant.block_apart also member different
  have shared := HeapInvariant.first_mem_pages block
  refine Finset.disjoint_left.mp apart ?_ shared
  rw [← first]
  exact HeapInvariant.first_mem_pages other

theorem nodup (pooled : arena.Pooled) : (liveBlocks arena.trace).Nodup := by
  refine pooled.invariant.apart.imp fun {left right} disjoint => ?_
  rintro rfl
  have own := HeapInvariant.first_mem_pages left
  exact Finset.disjoint_left.mp disjoint own own

theorem addresses_nodup (pooled : arena.Pooled) :
    ((liveBlocks arena.trace).map Block.address).Nodup := by
  refine (List.nodup_map_iff_inj_on pooled.nodup).mpr fun left member right also same => ?_
  by_contra different
  exact pooled.address_ne also member different same

theorem live_perm (pooled : arena.Pooled) (member : block ∈ liveBlocks arena.trace) :
    (liveBlocks arena.trace).Perm (block :: liveBlocks (.release block.address :: arena.trace)) := by
  have erased : liveBlocks (.release block.address :: arena.trace) =
      (liveBlocks arena.trace).erase block := by
    rw [pooled.nodup.erase_eq_filter, liveBlocks]
    refine List.filter_congr fun other also => ?_
    by_cases same : other = block
    · simp [same]
    · simp [same, pooled.address_ne member also same]
  rw [erased]
  exact List.perm_cons_erase member

theorem gDealloc (pooled : arena.Pooled) (member : block ∈ liveBlocks arena.trace) :
    (arena.gDealloc block.address).Pooled :=
  pooled.deallocate (pooled.live_perm member)

theorem same_pages (pooled : arena.Pooled) (also : after.Pooled)
    (len : after.memory.len = arena.memory.len)
    (live : liveBlocks after.trace = liveBlocks arena.trace) :
    after.memory.freePageNum = arena.memory.freePageNum ∧
      freePages after.memory = freePages arena.memory := by
  have pages := also.invariant.freePages_eq
  rw [live, len] at pages
  have same : freePages after.memory = freePages arena.memory :=
    pages.trans pooled.invariant.freePages_eq.symm
  refine ⟨?_, same⟩
  have count := also.count
  dsimp only at count
  rw [count, same]
  exact pooled.count.symm

end Pooled

/-- Since `start` only blocks in use were released, and those in use now are the old ones and the
blocks at these addresses. -/
structure Owns (start arena : Arena) (own : List Nat) : Prop where
  pooled : arena.Pooled
  len : arena.memory.len = start.memory.len
  trace : ∃ events, arena.trace = events ++ start.trace ∧ ReleasesLive start.trace events
  blocks : ∃ blocks, liveBlocks arena.trace = blocks ++ liveBlocks start.trace ∧
    (blocks.map Block.address).Perm own

namespace Owns

variable {start arena after : Arena} {own others : List Nat} {bytes address : Nat}

theorem refl (pooled : start.Pooled) : Owns start start [] :=
  ⟨pooled, rfl, ⟨[], rfl, trivial⟩, ⟨[], rfl, .refl _⟩⟩

theorem perm (owns : Owns start arena own) (same : own.Perm others) : Owns start arena others := by
  obtain ⟨blocks, live, listed⟩ := owns.blocks
  exact ⟨owns.pooled, owns.len, owns.trace, blocks, live, listed.trans same⟩

theorem live_iff (owns : Owns start arena own) {place : Nat} :
    arena.Live place ↔ place ∈ own ∨ start.Live place := by
  obtain ⟨blocks, live, listed⟩ := owns.blocks
  rw [← listed.mem_iff, List.mem_map, Live, live]
  simp only [List.mem_append, or_and_right, exists_or]
  rfl

theorem store (owns : Owns start arena own) (place : Nat) (cell : Cell) :
    Owns start (arena.store place cell) own :=
  ⟨owns.pooled, owns.len, owns.trace, owns.blocks⟩

theorem gAlloc (owns : Owns start arena own)
    (served : numPages bytes ≤ arena.memory.freePageNum)
    (allocated : arena.gAlloc bytes = some (after, address)) :
    Owns start after (address :: own) ∧
      after.memory.freePageNum + numPages bytes = arena.memory.freePageNum := by
  obtain ⟨pooled, len, count⟩ := owns.pooled.gAlloc served allocated
  have traced := (gAlloc_spec allocated).trace
  obtain ⟨events, before, releases⟩ := owns.trace
  obtain ⟨blocks, live, listed⟩ := owns.blocks
  refine ⟨⟨pooled, len.trans owns.len, ?_, ?_⟩, count⟩
  · exact ⟨.allocate ⟨address, bytes⟩ :: events, by rw [traced, before, List.cons_append], releases⟩
  · refine ⟨⟨address, bytes⟩ :: blocks, ?_, listed.cons address⟩
    rw [traced, liveBlocks, live, List.cons_append]

theorem gDealloc (owns : Owns start arena (address :: own)) :
    Owns start (arena.gDealloc address) own := by
  obtain ⟨events, before, releases⟩ := owns.trace
  obtain ⟨blocks, live, listed⟩ := owns.blocks
  obtain ⟨block, inside, rfl⟩ := List.mem_map.mp (listed.mem_iff.mpr List.mem_cons_self)
  have member : block ∈ liveBlocks arena.trace := by
    rw [live]
    exact List.mem_append_left _ inside
  refine ⟨owns.pooled.gDealloc member, owns.len, ?_, ?_⟩
  · refine ⟨.release block.address :: events, by rw [Arena.gDealloc, before, List.cons_append], ?_⟩
    refine ⟨⟨block, ?_, rfl⟩, releases⟩
    rwa [← before]
  · have distinct := owns.pooled.addresses_nodup
    rw [live, List.map_append] at distinct
    obtain ⟨apart, _, old⟩ := List.nodup_append.mp distinct
    have rest : (liveBlocks start.trace).filter (fun other => other.address ≠ block.address) =
        liveBlocks start.trace := by
      refine List.filter_eq_self.mpr fun other also => ?_
      have different := old block.address (List.mem_map_of_mem inside) other.address
        (List.mem_map_of_mem also)
      simpa using different.symm
    refine ⟨blocks.filter fun other => other.address ≠ block.address, ?_, ?_⟩
    · rw [Arena.gDealloc, liveBlocks, live, List.filter_append, rest]
    · have listedRest := listed.filter fun address => decide (address ≠ block.address)
      have single : block.address ∉ own := (List.nodup_cons.mp (listed.nodup_iff.mp apart)).1
      have kept : own.filter (fun address => decide (address ≠ block.address)) = own := by
        refine List.filter_eq_self.mpr fun address also => ?_
        have different : address ≠ block.address := by
          rintro rfl
          exact single also
        simpa using different
      rw [List.filter_cons_of_neg (by simp), kept] at listedRest
      rw [List.filter_map] at listedRest
      exact listedRest

theorem perm_pair {copy node data : Nat} (owns : Owns start arena own)
    (grown : Owns start after (copy :: node :: own))
    (freshAddress : ¬arena.Live address) (freshData : ¬arena.Live data)
    (liveAddress : after.Live address) (liveData : after.Live data) (different : data ≠ address) :
    (copy :: node :: own).Perm ([address, data] ++ own) := by
  have taken : ∀ place, ¬arena.Live place → after.Live place → place = copy ∨ place = node := by
    intro place fresh live
    rw [owns.live_iff, not_or] at fresh
    have listed := (grown.live_iff.mp live).resolve_right fresh.2
    simpa [fresh.1] using listed
  rcases taken address freshAddress liveAddress with rfl | rfl
  · obtain rfl := (taken data freshData liveData).resolve_left different
    exact .refl _
  · obtain rfl := (taken data freshData liveData).resolve_right different
    exact .swap ..

theorem nodup (owns : Owns start arena own) : own.Nodup := by
  obtain ⟨blocks, live, listed⟩ := owns.blocks
  have distinct := owns.pooled.addresses_nodup
  rw [live, List.map_append] at distinct
  exact listed.nodup_iff.mp (List.nodup_append.mp distinct).1

theorem done (owns : Owns start arena []) (pooled : start.Pooled) :
    ReleasesTable start start arena := by
  obtain ⟨blocks, live, listed⟩ := owns.blocks
  obtain rfl : blocks = [] := List.map_eq_nil_iff.mp (List.perm_nil.mp listed)
  rw [List.nil_append] at live
  obtain ⟨count, pages⟩ := pooled.same_pages owns.pooled owns.len live
  exact ⟨owns.trace, live, count, pages⟩

end Owns

end Arena

end Gaveta
