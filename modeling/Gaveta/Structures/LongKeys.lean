import Gaveta.Structures.HashTable

/-! Which puts of keys longer than `max_key_size` the other puts make up for. -/

namespace Gaveta

namespace Arena

section Puts

variable {name : CString → CString} {dataSize : UInt32} {maxKeySize : UInt16}
  {puts earlier later : List (CString × (Nat → UInt8))} {key k : CString} {content : Nat → UInt8}

theorem latestPut_eq_none (missing : ∀ put ∈ puts, name put.1 ≠ k) :
    latestPut name dataSize puts k = none := by
  rw [latestPut, Option.map_eq_none_iff, List.find?_eq_none]
  intro put member
  rw [decide_eq_true_iff]
  exact missing put (List.mem_reverse.mp member)

theorem latestPut_append (last : ∀ put ∈ later, name put.1 ≠ k) :
    latestPut name dataSize (earlier ++ (key, content) :: later) k =
      if name key = k then some ((List.range dataSize.toNat).map content)
      else latestPut name dataSize earlier k := by
  have missing : later.reverse.find? (fun put => decide (name put.1 = k)) = none := by
    rw [List.find?_eq_none]
    intro put member
    rw [decide_eq_true_iff]
    exact last put (List.mem_reverse.mp member)
  simp only [latestPut, List.reverse_append, List.reverse_cons, List.append_assoc,
    List.find?_append, missing, Option.none_or, List.singleton_append, List.find?_cons]
  by_cases same : name key = k <;> simp [same]

theorem latestPut_cases (name : CString → CString) (puts : List (CString × (Nat → UInt8)))
    (k : CString) :
    (∀ put ∈ puts, name put.1 ≠ k) ∨ ∃ earlier key content later,
      puts = earlier ++ (key, content) :: later ∧ name key = k ∧
        ∀ put ∈ later, name put.1 ≠ k := by
  cases found : puts.reverse.find? fun put => name put.1 = k with
  | none =>
      rw [List.find?_eq_none] at found
      refine Or.inl fun put member => ?_
      simpa using found put (List.mem_reverse.mpr member)
  | some put =>
      obtain ⟨same, behind, before, split, last⟩ := List.find?_eq_some_iff_append.mp found
      have order := congrArg List.reverse split
      simp only [List.reverse_reverse, List.reverse_append, List.reverse_cons, List.append_assoc,
        List.singleton_append] at order
      refine Or.inr ⟨before.reverse, put.1, put.2, behind.reverse, order, by simpa using same, ?_⟩
      intro other member
      simpa using last other (List.mem_reverse.mp member)

theorem latestPut_congr {other : CString → CString}
    (same : ∀ key, name key = k ↔ other key = k) :
    latestPut name dataSize puts k = latestPut other dataSize puts k := by
  simp only [latestPut, same]

theorem keptKey_eq_iff (nonempty : k ≠ .empty) :
    keptKey maxKeySize key = k ↔ key = k ∧ k.bytes.length ≤ maxKeySize.toNat := by
  rw [keptKey]
  split_ifs with longer
  · constructor
    · intro same
      exact absurd same.symm nonempty
    · rintro ⟨rfl, fits⟩
      omega
  · constructor
    · rintro rfl
      exact ⟨rfl, not_lt.mp longer⟩
    · exact And.left

theorem truncate_eq_empty (positive : 0 < maxKeySize.toNat) :
    key.truncate maxKeySize.toNat = .empty ↔ key = .empty := by
  constructor
  · intro same
    have bytes : key.bytes.take maxKeySize.toNat = [] := congrArg CString.bytes same
    rw [List.take_eq_nil_iff] at bytes
    exact CString.bytes_injective (bytes.resolve_left positive.ne')
  · rintro rfl
    exact CString.bytes_injective List.take_nil

/-- The lookups under the first characters of a key and under the empty key, to which `put_ht` cuts
it, find what they would find had it kept the first characters. -/
structure MadeUp (dataSize : UInt32) (maxKeySize : UInt16)
    (earlier later : List (CString × (Nat → UInt8))) (key : CString) (content : Nat → UInt8) :
    Prop where
  start : (∀ put ∈ later, put.1.truncate maxKeySize.toNat ≠ key.truncate maxKeySize.toNat) →
    latestPut id dataSize earlier (key.truncate maxKeySize.toNat) =
      some ((List.range dataSize.toNat).map content)
  empty : (∀ put ∈ later, put.1 ≠ .empty ∧ put.1.bytes.length ≤ maxKeySize.toNat) →
    latestPut id dataSize earlier .empty = some ((List.range dataSize.toNat).map content)

/-- Every put of a key longer than `max_key_size` is made up for, or all keys are cut to nothing. -/
def LongKeysMadeUp (dataSize : UInt32) (maxKeySize : UInt16)
    (puts : List (CString × (Nat → UInt8))) : Prop :=
  maxKeySize.toNat = 0 ∨ ∀ earlier key content later, puts = earlier ++ (key, content) :: later →
    maxKeySize.toNat < key.bytes.length → MadeUp dataSize maxKeySize earlier later key content

theorem keptKey_ne_empty : keptKey maxKeySize key ≠ .empty ↔
    key ≠ .empty ∧ key.bytes.length ≤ maxKeySize.toNat := by
  rw [keptKey]
  split_ifs with longer
  · simp [longer]
  · simp [not_lt.mp longer]

theorem truncate_ne_empty (positive : 0 < maxKeySize.toNat)
    (longer : maxKeySize.toNat < key.bytes.length) : key.truncate maxKeySize.toNat ≠ .empty := by
  rw [ne_eq, truncate_eq_empty positive]
  rintro rfl
  exact absurd longer (Nat.not_lt_zero _)

theorem latestPut_kept (nonempty : k ≠ .empty) (fits : k.bytes.length ≤ maxKeySize.toNat) :
    latestPut (keptKey maxKeySize) dataSize puts k = latestPut id dataSize puts k :=
  latestPut_congr fun _ => (keptKey_eq_iff nonempty).trans (and_iff_left fits)

theorem latestPut_truncate (positive : 0 < maxKeySize.toNat) :
    latestPut (fun key => key.truncate maxKeySize.toNat) dataSize puts .empty =
      latestPut id dataSize puts .empty :=
  latestPut_congr fun _ => truncate_eq_empty positive

theorem MadeUp.of_agree (positive : 0 < maxKeySize.toNat)
    (longer : maxKeySize.toNat < key.bytes.length)
    (agree : ∀ k : CString, k.bytes.length ≤ maxKeySize.toNat →
      latestPut (keptKey maxKeySize) dataSize (earlier ++ (key, content) :: later) k =
        latestPut (fun key => key.truncate maxKeySize.toNat) dataSize
          (earlier ++ (key, content) :: later) k) :
    MadeUp dataSize maxKeySize earlier later key content where
  start := by
    intro last
    have nonempty := truncate_ne_empty positive longer
    have fits : (key.truncate maxKeySize.toNat).bytes.length ≤ maxKeySize.toNat :=
      List.length_take_le _ _
    have other : ∀ put ∈ later, id put.1 ≠ key.truncate maxKeySize.toNat := by
      intro put member same
      have equal : put.1 = key.truncate maxKeySize.toNat := same
      apply last put member
      rw [equal]
      exact truncate_of_length fits
    have different : id key ≠ key.truncate maxKeySize.toNat := by
      intro same
      have length : key.bytes.length = (key.truncate maxKeySize.toNat).bytes.length :=
        congrArg (fun string => string.bytes.length) same
      omega
    have found := agree _ fits
    rw [latestPut_kept nonempty fits, latestPut_append other, if_neg different,
      latestPut_append last, if_pos rfl] at found
    exact found
  empty := by
    intro last
    have kept : ∀ put ∈ later, keptKey maxKeySize put.1 ≠ .empty := fun put member =>
      keptKey_ne_empty.mpr (last put member)
    have cut : keptKey maxKeySize key = .empty := if_pos longer
    have different : id key ≠ .empty := by
      rintro rfl
      exact absurd longer (Nat.not_lt_zero _)
    have found := agree .empty (Nat.zero_le _)
    rw [latestPut_append kept, if_pos cut, latestPut_truncate positive,
      latestPut_append fun put member => (last put member).1, if_neg different] at found
    exact found.symm

theorem latestPut_agree (positive : 0 < maxKeySize.toNat)
    (madeUp : ∀ earlier key content later, puts = earlier ++ (key, content) :: later →
      maxKeySize.toNat < key.bytes.length → MadeUp dataSize maxKeySize earlier later key content)
    (fits : k.bytes.length ≤ maxKeySize.toNat) :
    latestPut (keptKey maxKeySize) dataSize puts k =
      latestPut (fun key => key.truncate maxKeySize.toNat) dataSize puts k := by
  by_cases nonempty : k = .empty
  · subst nonempty
    rw [latestPut_truncate positive]
    rcases latestPut_cases (keptKey maxKeySize) puts .empty with
      missing | ⟨earlier, key, content, later, rfl, cut, last⟩
    · rw [latestPut_eq_none missing, latestPut_eq_none]
      exact fun put member => (keptKey_ne_empty.mp (missing put member)).1
    · have others := fun put member => keptKey_ne_empty.mp (last put member)
      rw [latestPut_append last, if_pos cut, latestPut_append fun put member => (others put member).1]
      by_cases same : key = .empty
      · rw [id_eq, if_pos same]
      · have longer : maxKeySize.toNat < key.bytes.length := by
          by_contra short
          exact keptKey_ne_empty.mpr ⟨same, not_lt.mp short⟩ cut
        rw [id_eq, if_neg same, (madeUp _ _ _ _ rfl longer).empty others]
  · rw [latestPut_kept nonempty fits]
    rcases latestPut_cases (fun key => key.truncate maxKeySize.toNat) puts k with
      missing | ⟨earlier, key, content, later, rfl, start, last⟩
    · have others : ∀ put ∈ puts, id put.1 ≠ k := by
        rintro put member rfl
        exact missing put member (truncate_of_length fits)
      rw [latestPut_eq_none others, latestPut_eq_none missing]
    · have others : ∀ put ∈ later, id put.1 ≠ k := by
        rintro put member rfl
        exact last put member (truncate_of_length fits)
      rw [latestPut_append others, latestPut_append last, if_pos start]
      by_cases longer : maxKeySize.toNat < key.bytes.length
      · have different : id key ≠ k := by
          rintro rfl
          exact absurd longer (not_lt.mpr fits)
        have found := (madeUp _ _ _ _ rfl longer).start (start ▸ last)
        rw [if_neg different, ← found]
        exact congrArg _ start.symm
      · have same : id key = k := (truncate_of_length (not_lt.mp longer)).symm.trans start
        rw [if_pos same]

theorem latestPut_agree_iff :
    (∀ k : CString, k.bytes.length ≤ maxKeySize.toNat →
      latestPut (keptKey maxKeySize) dataSize puts k =
        latestPut (fun key => key.truncate maxKeySize.toNat) dataSize puts k) ↔
      LongKeysMadeUp dataSize maxKeySize puts := by
  rcases Nat.eq_zero_or_pos maxKeySize.toNat with zero | positive
  · refine iff_of_true (fun k fits => ?_) (Or.inl zero)
    have cut : ∀ key, keptKey maxKeySize key = key.truncate maxKeySize.toNat := by
      intro key
      have kept := keptKey_length maxKeySize key
      have start : (key.truncate maxKeySize.toNat).bytes.length ≤ maxKeySize.toNat :=
        List.length_take_le _ _
      have nothing : (keptKey maxKeySize key).bytes = [] :=
        List.eq_nil_of_length_eq_zero (by omega)
      exact CString.bytes_injective
        (nothing.trans (List.eq_nil_of_length_eq_zero (by omega)).symm)
    simp only [latestPut, cut]
  · constructor
    · rintro agree
      refine Or.inr ?_
      rintro earlier key content later rfl longer
      exact .of_agree positive longer agree
    · rintro (zero | madeUp)
      · omega
      · exact fun k fits => latestPut_agree positive madeUp fits

end Puts

section Lookup

variable {h : CString → UInt32} {f : CString → CString → Bool} {start empty arena : Arena}
  {ht : Nat} {dataSize : UInt32} {maxKeySize : UInt16} {puts : List (CString × (Nat → UInt8))}
  {k : CString}

/-- The lookup finds the data of the latest put whose key starts with `k`, where the keys count up
to `max_key_size` characters. -/
structure LatestWins (h : CString → UInt32) (f : CString → CString → Bool) (arena : Arena)
    (ht : Nat) (dataSize : UInt32) (maxKeySize : UInt16)
    (puts : List (CString × (Nat → UInt8))) (k : CString) : Prop where
  latest : ∀ earlier key content later, puts = earlier ++ (key, content) :: later →
    key.truncate maxKeySize.toNat = k →
      (∀ put ∈ later, put.1.truncate maxKeySize.toNat ≠ k) →
        Finds h f arena ht k ((List.range dataSize.toNat).map content)
  missing : (∀ put ∈ puts, put.1.truncate maxKeySize.toNat ≠ k) →
    arena.lookupHt h f ht k = some none

theorem latestWins_iff {found : Option Nat} {content : Option (List UInt8)}
    (looked : arena.lookupHt h f ht k = some found)
    (contents : found.map arena.cells = content.map .bytes) :
    LatestWins h f arena ht dataSize maxKeySize puts k ↔
      content = latestPut (fun key => key.truncate maxKeySize.toNat) dataSize puts k := by
  have finds : ∀ bytes, Finds h f arena ht k bytes ↔ content = some bytes := by
    intro bytes
    cases found with
    | none =>
        have nothing : content = none := by simpa using contents.symm
        simp [Finds, looked, nothing]
    | some address =>
        obtain ⟨held, rfl, cell⟩ := Option.map_eq_some_iff.mp contents.symm
        simp [Finds, looked, ← cell]
  rcases latestPut_cases (fun key => key.truncate maxKeySize.toNat) puts k with
    missing | ⟨earlier, key, data, later, rfl, start, last⟩
  · rw [latestPut_eq_none missing]
    constructor
    · intro wins
      have none := wins.missing missing
      rw [looked] at none
      cases none
      simpa using contents.symm
    · rintro rfl
      have none : found = none := by simpa using contents
      refine ⟨?_, fun _ => none ▸ looked⟩
      rintro earlier key data later rfl start
      exact absurd start (missing (key, data) (by simp))
  · rw [latestPut_append last, if_pos start, ← finds]
    constructor
    · exact fun wins => wins.latest _ _ _ _ rfl start last
    · intro found
      refine ⟨?_, fun missing => absurd start (missing (key, data) (by simp))⟩
      intro before other bytes behind split same none
      let name := fun key : CString => key.truncate maxKeySize.toNat
      have first := @latestPut_append name dataSize earlier later key k data last
      have second := @latestPut_append name dataSize before behind other k bytes none
      rw [if_pos start] at first
      rw [if_pos same, ← split, first] at second
      rwa [← Option.some.inj second]

/-- The latest put wins if and only if the puts of longer keys are made up for. -/
theorem lookupHt_latest_wins_iff (comparator : ∀ stored key, f stored key = true ↔ stored = key)
    (made : start.initHt dataSize maxKeySize = some (empty, ht))
    (short : ∀ put ∈ puts, put.1.bytes.length < 2 ^ 31)
    (filled : empty.putAll h ht puts = some arena) :
    (∀ k : CString, k.bytes.length ≤ maxKeySize.toNat →
      LatestWins h f arena ht dataSize maxKeySize puts k) ↔
      LongKeysMadeUp dataSize maxKeySize puts := by
  rw [← latestPut_agree_iff]
  refine forall_congr' fun k => imp_congr_right fun _ => ?_
  obtain ⟨found, looked, contents⟩ := lookupHt_refines comparator made short filled k
  exact latestWins_iff looked contents

theorem lookupHt_latest_wins_iff_made_up :
    ∃ empty ht arena, (unusedArena 200000).initHt 2 3 = some (empty, ht) ∧
      empty.putAll (fun _ => 5) ht
          [(runOfBytes 65 4, fun _ => 7), (runOfBytes 65 3, fun _ => 8), (.empty, fun _ => 9)] =
        some arena ∧
      ∀ k : CString, k.bytes.length ≤ 3 →
        LatestWins (fun _ => 5) (fun left right => left = right) arena ht 2 3
          [(runOfBytes 65 4, fun _ => 7), (runOfBytes 65 3, fun _ => 8), (.empty, fun _ => 9)] k := by
  have runs : ((unusedArena 200000).initHt 2 3 |>.bind fun made =>
      made.1.putAll (fun _ => 5) made.2 [(runOfBytes 65 4, fun _ => 7),
        (runOfBytes 65 3, fun _ => 8), (.empty, fun _ => 9)]).isSome = true := by
    decide +kernel
  obtain ⟨arena, filled⟩ := Option.isSome_iff_exists.mp runs
  obtain ⟨⟨empty, ht⟩, made, filled⟩ := Option.bind_eq_some_iff.mp filled
  refine ⟨empty, ht, arena, made, filled, (lookupHt_latest_wins_iff
    (fun left right => decide_eq_true_iff) made (by decide) filled).mpr (Or.inr ?_)⟩
  rintro earlier key content later split longer
  cases earlier with
  | nil =>
      obtain ⟨⟨rfl, -⟩, rfl⟩ := by simpa using split
      exact ⟨fun last => absurd (by decide) (last (runOfBytes 65 3, fun _ => 8) (by simp)),
        fun last => absurd rfl (last (.empty, fun _ => 9) (by simp)).1⟩
  | cons first earlier =>
      have member : (key, content) ∈ [(runOfBytes 65 3, fun _ => (8 : UInt8)),
          (CString.empty, fun _ => (9 : UInt8))] := by
        rw [(List.cons.inj split).2]
        simp
      have keys := List.mem_map_of_mem (f := Prod.fst) member
      have fits : ∀ other ∈ [runOfBytes 65 3, CString.empty], other.bytes.length ≤ 3 := by decide
      exact absurd longer (not_lt.mpr (fits key keys))

theorem long_key_put_runs :
    ∃ empty ht arena, (unusedArena 200000).initHt 2 3 = some (empty, ht) ∧
      empty.putAll (fun _ => 5) ht [(runOfBytes 65 4, fun _ => 7)] = some arena := by
  have runs : ((unusedArena 200000).initHt 2 3 |>.bind fun made =>
      made.1.putAll (fun _ => 5) made.2 [(runOfBytes 65 4, fun _ => 7)]).isSome = true := by
    decide +kernel
  obtain ⟨arena, filled⟩ := Option.isSome_iff_exists.mp runs
  obtain ⟨⟨empty, ht⟩, made, filled⟩ := Option.bind_eq_some_iff.mp filled
  exact ⟨empty, ht, arena, made, filled⟩

/-- The key "BCDE" is stored as the empty key, and a lookup of "BCD" finds nothing. -/
theorem longer_key_is_emptied :
    ¬∀ empty ht arena, (unusedArena 200000).initHt 2 3 = some (empty, ht) →
      empty.putAll (fun _ => 5) ht [(runOfBytes 65 4, fun _ => 7)] = some arena →
      LatestWins (fun _ => 5) (fun left right => left = right) arena ht 2 3
        [(runOfBytes 65 4, fun _ => 7)] (runOfBytes 65 3) := by
  intro wins
  obtain ⟨empty, ht, arena, made, filled⟩ := long_key_put_runs
  obtain ⟨found, looked, contents⟩ := lookupHt_refines (f := fun left right => left = right)
    (fun left right => decide_eq_true_iff) made (by decide) filled (runOfBytes 65 3)
  have same := (latestWins_iff looked contents).mp (wins empty ht arena made filled)
  exact absurd same (by decide)

theorem lookupHt_long (comparator : ∀ stored key, f stored key = true ↔ stored = key)
    (made : start.initHt dataSize maxKeySize = some (empty, ht))
    (short : ∀ put ∈ puts, put.1.bytes.length < 2 ^ 31)
    (filled : empty.putAll h ht puts = some arena)
    (long : maxKeySize.toNat < k.bytes.length) : arena.lookupHt h f ht k = some none := by
  obtain ⟨found, looked, contents⟩ := lookupHt_refines comparator made short filled k
  have missing : ∀ put ∈ puts, keptKey maxKeySize put.1 ≠ k := by
    rintro put _ rfl
    exact absurd long (not_lt.mpr (keptKey_length _ _))
  rw [latestPut_eq_none missing, Option.map_none, Option.map_eq_none_iff] at contents
  rw [looked, contents]

theorem long_key_never_found (earlier later : List (CString × (Nat → UInt8)))
    {content : Nat → UInt8} (comparator : ∀ stored key, f stored key = true ↔ stored = key)
    (made : start.initHt dataSize maxKeySize = some (empty, ht))
    (short : ∀ put ∈ earlier ++ (k, content) :: later, put.1.bytes.length < 2 ^ 31)
    (filled : empty.putAll h ht (earlier ++ (k, content) :: later) = some arena)
    (long : maxKeySize.toNat < k.bytes.length) :
    ¬Finds h f arena ht k ((List.range dataSize.toNat).map content) := by
  rintro ⟨address, looked, _⟩
  rw [lookupHt_long comparator made short filled long] at looked
  cases looked

theorem long_key_never_found_four :
    ∃ empty ht arena, (unusedArena 200000).initHt 2 3 = some (empty, ht) ∧
      empty.putAll (fun _ => 5) ht [(runOfBytes 65 4, fun _ => 7)] = some arena ∧
      ¬Finds (fun _ => 5) (fun left right => left = right) arena ht (runOfBytes 65 4) [7, 7] := by
  obtain ⟨empty, ht, arena, made, filled⟩ := long_key_put_runs
  exact ⟨empty, ht, arena, made, filled, long_key_never_found [] []
    (fun left right => decide_eq_true_iff) made (by decide) filled (by decide)⟩

theorem long_key_put_is_lost :
    ¬∀ empty ht arena, (unusedArena 200000).initHt 2 3 = some (empty, ht) →
      empty.putAll (fun _ => 5) ht [(runOfBytes 65 4, fun _ => 7)] = some arena →
      Finds (fun _ => 5) (fun left right => left = right) arena ht (runOfBytes 65 4) [7, 7] := by
  intro found
  obtain ⟨empty, ht, arena, made, filled⟩ := long_key_put_runs
  obtain ⟨address, looked, _⟩ := found empty ht arena made filled
  rw [lookupHt_long (fun left right => decide_eq_true_iff) made (by decide) filled (by decide)]
    at looked
  cases looked

end Lookup

end Arena

end Gaveta
