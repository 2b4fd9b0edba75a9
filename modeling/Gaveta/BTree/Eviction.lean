import Gaveta.BTree.EvictionStep
import Gaveta.BTree.RootRecord

/-! Which evictions release a node in use, in runs of insertions from the empty tree. -/

namespace Gaveta

namespace CachedTree

/-- The nodes in use at each push of `b_insert` on a tree with a root: one for every split, and one
for a new root. -/
def pushFrames (b : CachedTree) (id : CString) : List (List NodePtr) :=
  match b.root with
  | none => []
  | some root =>
      let below := splitFrames b.config.order b.io id depthLimit [] root
      if below.2 then below.1 ++ [[root]] else below.1

def SparesUsed (b : CachedTree) : TreeCall → Prop
  | .insert key => Fifo.Spares queueLimit b.io.gq (b.pushFrames key.id)
  | .remove _ => True

structure Settled (level : Rrn → Nat) (b : CachedTree) : Prop where
  steady : Steady level b.io
  root : ∀ root, b.root = some root → root ∈ b.io.gq
  empty : b.root = none → b.io.gq = []

section Call

variable {level middle : Rrn → Nat} {b next : CachedTree} {id : CString} {rrn : Rrn}
  {t : NodeCache} {frames : List (List NodePtr)}

theorem newRoot_post {used frame : List NodePtr} {content : BtreeNode} (height : Nat)
    (start : Steady level b.io) (after : After level middle b.io t frames.length)
    (short : frames.length < queueLimit) (spares : Fifo.Spares queueLimit b.io.gq frames)
    (root : next.root = some t.unused)
    (io : next.io = (cachePager.writeIndexRecord used
      ((cachePager.getFreeRrn t).1.allocBtreeNode content) t.unused).1)
    (distinct : DistinctRrns next.io.created)
    (inUse : ∀ q ∈ b.io.gq, q ∈ used ↔ q ∈ frame)
    (name : content.rrn = (getFreeRrn t.freeRrn).1)
    (below : ∀ child ∈ content.children, child ∈ t.created ∧ middle child < height) :
    (Fifo.Spares queueLimit b.io.gq (frames ++ [frame]) ∧ ∃ last, Settled last next) ∨
      (¬Fifo.Spares queueLimit b.io.gq (frames ++ [frame]) ∧ next.io.usedReleased ≠ []) := by
  rw [io, created_writeIndexRecord] at distinct
  have fresh : (getFreeRrn t.freeRrn).1 ∉ t.created := fresh_of_distinct distinct
  obtain ⟨prepared, written⟩ := @Steady.prepare middle t used after.steady height content fresh name
    below
  rw [written] at io
  have levels : ∀ rrn ∈ b.io.created,
      Function.update middle (getFreeRrn t.freeRrn).1 height rrn = level rrn := by
    intro rrn member
    rw [drawn_level fresh _ _ (after.created member)]
    exact after.same rrn member
  rcases after.push start short spares levels prepared inUse with ⟨spared, pushed⟩ | ⟨taken, released⟩
  · refine Or.inl ⟨spared, Function.update middle (getFreeRrn t.freeRrn).1 height, ?_, ?_, ?_⟩
    · rw [io]
      exact pushed.after.steady
    · intro top found
      rw [root] at found
      cases found
      rw [io]
      exact pushed.new
    · intro none
      rw [root] at none
      cases none
  · refine Or.inr ⟨taken, ?_⟩
    rw [io]
    exact released

theorem Settled.create (settled : Settled level b) (empty : b.root = none) (k : Key)
    (distinct : DistinctRrns (createRoot cachePager b k).1.io.created) :
    ∃ last, Settled last (createRoot cachePager b k).1 := by
  have queue := settled.empty empty
  have post : (Fifo.Spares queueLimit b.io.gq ([] ++ [[]]) ∧
      ∃ last, Settled last (createRoot cachePager b k).1) ∨ _ :=
    newRoot_post 0 settled.steady (After.refl settled.steady) (by decide) Fifo.spares_nil rfl rfl
      distinct (by simp [queue]) rfl (by simp)
  refine (post.resolve_right fun used => used.1 ?_).2
  simp [Fifo.Spares, queue]

theorem growRoot_cached {root rChild : NodePtr} {promoKey : Key} (works : ∀ n, t.ioFails n = false)
    (above : nullPtr < t.unused) :
    growRoot cachePager b root t promoKey rChild =
      ({ root := some t.unused
         config := { b.config with rootRrn := (getFreeRrn t.freeRrn).1 }
         io := (cachePager.writeIndexRecord [t.unused, rChild, root]
          ((cachePager.getFreeRrn t).1.allocBtreeNode
            { keys := [promoKey], rrn := (getFreeRrn t.freeRrn).1,
              children := [(t.node root).rrn, (t.node rChild).rrn], nextLeaf := noRrn,
              leaf := false }) t.unused).1 }, some .success) := by
  have success := @NodeCache.writeIndexRecord_success ((cachePager.getFreeRrn t).1.allocBtreeNode
    { keys := [promoKey], rrn := (getFreeRrn t.freeRrn).1,
      children := [(t.node root).rrn, (t.node rChild).rrn], nextLeaf := noRrn, leaf := false })
    t.unused [t.unused, rChild, root] works (Nat.ne_of_gt above)
  rw [growRoot]
  exact if_neg (not_not_intro success)

theorem Settled.grow {root rChild : NodePtr} {promoKey : Key} (settled : Settled level b)
    (found : b.root = some root)
    (spared : SparedPath level middle b.io [] root (frames, true)
      (t, .promotion promoKey rChild, true))
    (distinct : DistinctRrns (growRoot cachePager b root t promoKey rChild).1.io.created) :
    (Fifo.Spares queueLimit b.io.gq (frames ++ [[root]]) ∧
        ∃ last, Settled last (growRoot cachePager b root t promoKey rChild).1) ∨
      (¬Fifo.Spares queueLimit b.io.gq (frames ++ [[root]]) ∧
        (growRoot cachePager b root t promoKey rChild).1.io.usedReleased ≠ []) := by
  obtain ⟨_, _, shape, inside, newer, height⟩ := spared.promoted rfl
  cases shape
  have here := settled.root root found
  have kept := spared.kept root (List.mem_cons_self ..)
  have after := spared.after
  rw [growRoot_cached after.steady.works after.steady.above] at distinct ⊢
  refine newRoot_post (level (b.io.node root).rrn + 1) settled.steady after
    (after.short settled.steady here kept) spared.spares rfl rfl distinct ?_ rfl ?_
  · intro q member
    have old := (settled.steady.allocated q member).2
    have notNew : q ≠ t.unused := Nat.ne_of_lt (Nat.lt_of_lt_of_le old after.unused)
    have notChild : q ≠ rChild := Nat.ne_of_lt (Nat.lt_of_lt_of_le old newer)
    simp [notNew, notChild]
  · simp only [List.mem_cons, List.not_mem_nil, or_false, forall_eq_or_imp, forall_eq]
    refine ⟨⟨after.steady.named root kept, ?_⟩, after.steady.named rChild inside, ?_⟩
    · rw [spared.rrn, after.same _ (settled.steady.named root here)]
      exact Nat.lt_succ_self _
    · rw [height]
      exact Nat.lt_succ_self _

theorem Settled.insert (settled : Settled level b)
    (distinct : DistinctRrns (bInsert cachePager b id rrn).1.io.created) :
    (b.SparesUsed (.insert ⟨id, rrn⟩) ∧ ∃ last, Settled last (bInsert cachePager b id rrn).1) ∨
      (¬b.SparesUsed (.insert ⟨id, rrn⟩) ∧
        (bInsert cachePager b id rrn).1.io.usedReleased ≠ []) := by
  cases found : b.root with
  | none =>
      have whole : bInsert cachePager b id rrn = createRoot cachePager b ⟨id, rrn⟩ := by
        rw [bInsert, found]
      have frames : b.pushFrames id = [] := by rw [pushFrames, found]
      rw [whole] at distinct ⊢
      refine Or.inl ⟨?_, settled.create found _ distinct⟩
      rw [SparesUsed, frames]
      exact Fifo.spares_nil
  | some root =>
      have whole : bInsert cachePager b id rrn = finishInsert cachePager b root
          (insertKey cachePager b.config.order b.root depthLimit [] b.io root ⟨id, rrn⟩ false) := by
        rw [bInsert, found]
      have frames : b.pushFrames id =
          if (splitFrames b.config.order b.io id depthLimit [] root).2 then
            (splitFrames b.config.order b.io id depthLimit [] root).1 ++ [[root]]
          else (splitFrames b.config.order b.io id depthLimit [] root).1 := by
        rw [pushFrames, found]
      rw [SparesUsed, frames]
      rw [whole] at distinct ⊢
      have grown : ∀ result, Grown result.1 (finishInsert cachePager b root result).1.io :=
        fun result => (cachePager_grown result.1).finishInsert
          ⟨Grown.refl result.1, fun _ _ _ => trivial⟩ (by simp)
      have post : PathPost level b.io [] root (splitFrames b.config.order b.io id depthLimit [] root)
          (insertKey cachePager b.config.order b.root depthLimit [] b.io root ⟨id, rrn⟩ false) :=
        settled.steady.insertKey (by simpa using settled.root root found) (by simp)
          ((grown _).distinct distinct)
      generalize insertKey cachePager b.config.order b.root depthLimit [] b.io root ⟨id, rrn⟩ false =
        result at distinct post ⊢
      generalize splitFrames b.config.order b.io id depthLimit [] root = counted at post ⊢
      rcases post with ⟨middle, spared⟩ | ⟨taken, released⟩
      · obtain ⟨t, insertion, flag⟩ := result
        obtain ⟨frames, splits⟩ := counted
        cases splits with
        | false =>
            obtain ⟨status, shape⟩ := spared.stopped rfl
            cases shape
            refine Or.inl ⟨spared.spares, middle, spared.after.steady, ?_, ?_⟩
            · intro top same
              cases found.symm.trans same
              exact spared.kept root (List.mem_cons_self ..)
            · intro none
              cases found.symm.trans none
        | true =>
            obtain ⟨promoKey, child, shape, -⟩ := spared.promoted rfl
            cases shape
            exact settled.grow found spared distinct
      · refine Or.inr ⟨fun spares => taken ?_, (grown result).released_ne_nil released⟩
        split_ifs at spares
        · exact spares.of_append
        · exact spares

theorem bInsert_returns (works : ∀ n, b.io.ioFails n = false) (above : nullPtr < b.io.unused) :
    ∃ status, (bInsert cachePager b id rrn).2 = some status := by
  cases found : b.root with
  | none =>
      rw [bInsert, found]
      exact ⟨_, rfl⟩
  | some root =>
      have grown : Pager.Keeps.Inserted (Grown b.io) (fun _ => True)
          (insertKey cachePager b.config.order b.root depthLimit [] b.io root ⟨id, rrn⟩ false) :=
        (cachePager_grown b.io).insertKey _ (by simp) _ _ (Grown.refl b.io) trivial (by simp)
      have higher : Pager.Keeps.Inserted (nullPtr < NodeCache.unused ·) (fun _ => True)
          (insertKey cachePager b.config.order b.root depthLimit [] b.io root ⟨id, rrn⟩ false) :=
        cachePager_above.insertKey _ (by simp) _ _ above trivial (by simp)
      rw [bInsert, found]
      rw [found] at grown higher
      dsimp only
      rw [finishInsert]
      split
      · exact ⟨_, rfl⟩
      · split_ifs
        · rw [growRoot_cached (grown.state.ioFails ▸ works) higher.state]
          exact ⟨_, rfl⟩
        · exact ⟨_, rfl⟩

theorem Settled.run_iff {keys : List Key} (settled : Settled level b)
    (distinct : ∀ passed ∈ b.passes (keys.map .insert), DistinctRrns passed.io.created) :
    (∀ passed ∈ b.passes (keys.map .insert), passed.io.usedReleased = []) ↔
      b.EachCall SparesUsed (keys.map .insert) := by
  induction keys generalizing b level with
  | nil =>
      constructor
      · exact fun _ => trivial
      · intro _ passed member
        rw [List.mem_singleton.mp member]
        exact settled.steady.spared
  | cons key keys ih =>
      obtain ⟨status, returned⟩ := @bInsert_returns b key.id key.dataRegisterRrn
        settled.steady.works settled.steady.above
      obtain ⟨after, inserted⟩ :
          ∃ after : CachedTree, (bInsert cachePager b key.id key.dataRegisterRrn).1 = after :=
        ⟨_, rfl⟩
      have called : b.call (.insert key) = some after := by
        rw [call, returned, ← inserted]
        rfl
      have passes : b.passes ((key :: keys).map .insert) =
          b :: after.passes (keys.map .insert) := by
        simp only [List.map_cons, CachedTree.passes, called]
      have later : after ∈ b.passes ((key :: keys).map .insert) := by
        rw [passes]
        exact List.mem_cons_of_mem _ (after.passes_head _)
      rw [passes] at distinct later ⊢
      have post := @Settled.insert level b key.id key.dataRegisterRrn settled
      rw [inserted] at post
      have rest := fun last (next : Settled last after) => ih next fun passed member =>
        distinct passed (List.mem_cons_of_mem _ member)
      rcases post (distinct after later) with ⟨spares, last, next⟩ | ⟨taken, released⟩
      · constructor
        · intro unreleased
          refine ⟨spares, fun other same => ?_⟩
          cases called.symm.trans same
          exact (rest last next).mp fun passed member =>
            unreleased passed (List.mem_cons_of_mem _ member)
        · rintro ⟨_, calls⟩ passed member
          rcases List.mem_cons.mp member with rfl | member
          · exact settled.steady.spared
          · exact (rest last next).mpr (calls after called) passed member
      · constructor
        · intro unreleased
          exact absurd (unreleased after later) released
        · intro calls
          exact absurd calls.1 taken

theorem call_grown {next : TreeCall} {after : CachedTree} (called : b.call next = some after) :
    Grown b.io after.io := by
  have keeps := cachePager_grown b.io
  cases next with
  | insert key =>
      obtain ⟨status, _, rfl⟩ := Option.map_eq_some_iff.mp called
      exact keeps.bInsert (by simp) _ _ (Grown.refl b.io) trivial
  | remove id =>
      cases called
      exact (keeps.bRemove (by simp) id (Grown.refl b.io)).resolve_left fun root => root.2 rfl

theorem passes_grown {calls : List TreeCall} {passed last : CachedTree}
    (member : passed ∈ b.passes calls) (ended : (b.passes calls).getLast? = some last) :
    Grown passed.io last.io := by
  induction calls generalizing b passed with
  | nil =>
      cases ended
      rw [List.mem_singleton.mp member]
      exact Grown.refl _
  | cons next calls ih =>
      cases called : b.call next with
      | none =>
          simp only [passes, called] at member ended
          cases ended
          rw [List.mem_singleton.mp member]
          exact Grown.refl _
      | some after =>
          have whole : b.passes (next :: calls) = b :: after.passes calls := by
            simp only [passes, called]
          have notEmpty : after.passes calls ≠ [] := List.ne_nil_of_mem (after.passes_head calls)
          rw [whole, List.getLast?_cons_of_ne_nil notEmpty] at ended
          rw [whole] at member
          rcases List.mem_cons.mp member with rfl | member
          · exact (call_grown called).trans (ih (after.passes_head calls) ended)
          · exact ih member ended

theorem fresh_settled (config : BtreeConfig) (free : List Rrn) :
    Settled (fun _ => 0) (fresh config free fun _ => false) := by
  refine ⟨⟨rfl, Nat.zero_le _, List.nodup_nil, Nat.zero_lt_one, ?_, fun _ => rfl, ?_, ?_, rfl⟩, ?_,
    fun _ => rfl⟩
  · intro p member
    cases member
  · intro p member
    cases member
  · intro p member
    cases member
  · intro root found
    cases found

end Call

end CachedTree

open CachedTree

/-- In a run of insertions no eviction releases a node in use exactly if the pushes of every call
spare the nodes in use at that push. -/
theorem eviction_spares_iff (config : BtreeConfig) (free : List Rrn) (keys : List Key)
    (distinct : ∀ b ∈ (fresh config free fun _ => false).passes (keys.map .insert),
      DistinctRrns b.io.created) :
    (∀ b ∈ (fresh config free fun _ => false).passes (keys.map .insert),
        b.io.usedReleased = []) ↔
      (fresh config free fun _ => false).EachCall SparesUsed (keys.map .insert) :=
  (fresh_settled config free).run_iff distinct

def manyRrns : List Rrn := (List.range 200).map fun n => (n + 1).toUInt16

def descendingKeys : List Key := (List.range 66).map fun n => ⟨singleId (Fin.ofNat 255 (200 - n)), 0⟩

def ascendedKeys : List Key :=
  descendingKeys.take 65 ++ [⟨singleId 201, 0⟩, ⟨singleId 202, 0⟩]

/-- The 67th key splits the last leaf, and the push of its sibling releases the first one. -/
theorem eviction_spares_iff_ascended :
    (fresh smallConfig manyRrns fun _ => false).EachCall SparesUsed (ascendedKeys.map .insert) ∧
      ∃ b ∈ (fresh smallConfig manyRrns fun _ => false).passes (ascendedKeys.map .insert),
        b.io.gq.head? = some 2 := by
  have last : ((fresh smallConfig manyRrns fun _ => false).passes
      (ascendedKeys.map .insert)).getLast?.map
        (fun b => (decide (DistinctRrns b.io.created), b.io.usedReleased, b.io.gq.head?)) =
          some (true, [], some 2) := by
    decide +kernel
  obtain ⟨b, found, same⟩ := Option.map_eq_some_iff.mp last
  simp only [Prod.mk.injEq, decide_eq_true_eq] at same
  refine ⟨(eviction_spares_iff smallConfig manyRrns ascendedKeys fun passed member => ?_).mp
    fun passed member => ?_, b, List.mem_of_getLast? found, same.2.2⟩
  · exact (passes_grown member found).distinct same.1
  · exact List.prefix_nil.mp (same.2.1 ▸ (passes_grown member found).released)

/-- In a tree of order 3 the 66th of a run of descending keys splits the oldest leaf, and the push of
its sibling releases that leaf. -/
theorem split_leaf_released :
    (∀ b ∈ (fresh smallConfig manyRrns fun _ => false).passes (descendingKeys.map .insert),
        DistinctRrns b.io.created) ∧
      ¬∀ b ∈ (fresh smallConfig manyRrns fun _ => false).passes (descendingKeys.map .insert),
        b.io.usedReleased = [] := by
  have last : ((fresh smallConfig manyRrns fun _ => false).passes
      (descendingKeys.map .insert)).getLast?.map
        (fun b => (decide (DistinctRrns b.io.created), b.io.usedReleased)) = some (true, [1]) := by
    decide +kernel
  obtain ⟨b, found, same⟩ := Option.map_eq_some_iff.mp last
  simp only [Prod.mk.injEq, decide_eq_true_eq] at same
  constructor
  · intro passed member
    exact (passes_grown member found).distinct same.1
  · intro unreleased
    have empty := unreleased b (List.mem_of_getLast? found)
    rw [same.2] at empty
    cases empty

end Gaveta
