import Gaveta.Config.BtreeConfig
import Mathlib.Logic.Function.Iterate

/-! Which config files the loops of `config.c` read to their end. -/

namespace Gaveta

def Stuck (scanner : Scanner) : Prop :=
  (scanner.stream.rest.dropWhile isSpace).head? = some colon

instance (scanner : Scanner) : Decidable (Stuck scanner) := inferInstanceAs (Decidable (_ = _))

theorem skipSpace_of_eof {stream : Stream} (ended : stream.eof = true) :
    skipSpace stream = stream := by
  have rest := stream.ended ended
  ext1 <;> simp [rest, ended]

theorem nextLine_of_eof {scanner : Scanner} (ended : scanner.stream.eof = true) :
    nextLine scanner = scanner := by
  simp [nextLine, scanFields, skipSpace_of_eof ended, scanner.stream.ended ended]

theorem Stuck.next {scanner : Scanner} (stuck : Stuck scanner) : Stuck (nextLine scanner) := by
  have here : (scanner.stream.rest.dropWhile isSpace).head? = some colon := stuck
  have same : (nextLine scanner).stream = skipSpace scanner.stream := by
    simp [nextLine, scanFields, here]
  have twice : (scanner.stream.rest.dropWhile isSpace).dropWhile isSpace =
      scanner.stream.rest.dropWhile isSpace :=
    List.dropWhile_eq_self_iff.mpr fun positive => List.dropWhile_get_zero_not _ _ positive
  rw [Stuck, same, skipSpace_rest, twice]
  exact here

theorem Stuck.not_eof {scanner : Scanner} (stuck : Stuck scanner) : scanner.stream.eof = false := by
  by_contra ended
  rw [Bool.not_eq_false] at ended
  simp [Stuck, scanner.stream.ended ended] at stuck

theorem scanValue_length (stream : Stream) :
    (scanValue stream).1.rest.length ≤ stream.rest.length := by
  have skipped : stream.rest.tail.length ≤ stream.rest.length := by simp
  have blank := List.length_dropWhile_le isSpace stream.rest.tail
  have word := List.length_dropWhile_le (fun byte => !isSpace byte)
    (stream.rest.tail.dropWhile isSpace)
  rw [scanValue]
  split
  · exact le_rfl
  · dsimp only
    split
    · exact blank.trans skipped
    · exact word.trans (blank.trans skipped)

theorem nextLine_progress {scanner : Scanner} (free : ¬Stuck scanner) :
    (nextLine scanner).stream.eof = true ∨
      (nextLine scanner).stream.rest.length < scanner.stream.rest.length := by
  have blank := List.length_dropWhile_le isSpace scanner.stream.rest
  cases found : scanner.stream.rest.dropWhile isSpace with
  | nil => exact Or.inl (by simp [nextLine, scanFields, found])
  | cons first rest =>
      have different : first ≠ colon := by
        rintro rfl
        exact free (by rw [Stuck, found]; rfl)
      have next : (nextLine scanner).stream =
          (scanValue ((skipSpace scanner.stream).span fun byte => byte ≠ colon).2).1 := by
        simp [nextLine, scanFields, found, different]
      have value := scanValue_length ((skipSpace scanner.stream).span fun byte => byte ≠ colon).2
      have field : (first :: rest).dropWhile (fun byte => byte ≠ colon) =
          rest.dropWhile fun byte => byte ≠ colon :=
        List.dropWhile_cons_of_pos (by simpa using different)
      have shorter := List.length_dropWhile_le (fun byte => decide (byte ≠ colon)) rest
      rw [Stream.span_rest, skipSpace_rest, found, field] at value
      rw [found, List.length_cons] at blank
      right
      rw [next]
      omega

def unread (scanner : Scanner) : Nat :=
  if scanner.stream.eof then 0 else scanner.stream.rest.length + 1

theorem unread_next {scanner : Scanner} (open_ : scanner.stream.eof = false)
    (free : ¬Stuck scanner) : unread (nextLine scanner) < unread scanner := by
  have progress := nextLine_progress free
  rw [unread, unread, open_]
  split
  · simp
  · rename_i goesOn
    simp only [goesOn, Bool.false_eq_true, false_or] at progress
    simpa using progress

section Keys

variable {left right : Scanner}

/-- The scanners read the same, up to the cut of `put_ht` in the key. -/
structure SameInput (left right : Scanner) : Prop where
  stream : left.stream = right.stream
  key : truncatedKey defaultKeySize left.key = truncatedKey defaultKeySize right.key

theorem SameInput.next (same : SameInput left right) :
    SameInput (nextLine left) (nextLine right) := by
  obtain ⟨stream, key⟩ := same
  rw [nextLine, nextLine, scanFields, scanFields, stream]
  split
  · exact ⟨rfl, key⟩
  · split
    · exact ⟨rfl, key⟩
    · exact ⟨rfl, rfl⟩

theorem SameInput.fits (same : SameInput left right) : FieldsFit left ↔ FieldsFit right := by
  have fields : (scanFields left).2 = (scanFields right).2 := by
    rw [scanFields, scanFields, same.stream]
    split
    · rfl
    · split <;> rfl
  rw [FieldsFit, FieldsFit, fields, same.stream]

theorem SameInput.iterate (same : SameInput left right) (count : Nat) :
    SameInput (nextLine^[count] left) (nextLine^[count] right) := by
  induction count generalizing left right with
  | zero => exact same
  | succ count ih => exact ih same.next

theorem truncatedKey_twice (maxKeySize : UInt16) (key : CString) :
    truncatedKey maxKeySize (truncatedKey maxKeySize key) = truncatedKey maxKeySize key := by
  by_cases cut : 0 < ((key.bytes.length : Int) - maxKeySize.toNat).bmod u32Range
  · have once : truncatedKey maxKeySize key = .empty := if_pos cut
    rw [once, truncatedKey, ite_self]
  · have once : truncatedKey maxKeySize key = key := if_neg cut
    rw [once, once]

def cutKey (scanner : Scanner) : Scanner :=
  { scanner with key := truncatedKey defaultKeySize scanner.key }

theorem cutKey_same (scanner : Scanner) : SameInput (cutKey scanner) scanner :=
  ⟨rfl, truncatedKey_twice _ _⟩

end Keys

def Overflows (scanner : Scanner) : Prop := ∃ count, ¬FieldsFit (nextLine^[count] scanner)

def MeetsColon (scanner : Scanner) : Prop := ∃ count, Stuck (nextLine^[count] scanner)

/-- The last key of the file, as `put_ht` cuts it, has a closing brace. -/
def EndsInBrace (scanner : Scanner) : Prop :=
  ∃ count, (nextLine^[count] scanner).stream.eof = true ∧
    (truncatedKey defaultKeySize (nextLine^[count] scanner).key).contains "\x7d"

def EntersSchema (scanner : Scanner) : Prop :=
  ∃ count, (nextLine^[count] scanner).stream.eof = false ∧
    configKey (nextLine^[count + 1] scanner).key = .schema

section Conditions

variable {left right scanner : Scanner}

theorem Overflows.of_same (same : SameInput left right) : Overflows left → Overflows right := by
  rintro ⟨count, longer⟩
  exact ⟨count, (same.iterate count).fits.not.mp longer⟩

theorem MeetsColon.of_same (same : SameInput left right) : MeetsColon left → MeetsColon right := by
  rintro ⟨count, stuck⟩
  refine ⟨count, ?_⟩
  rw [Stuck, ← (same.iterate count).stream]
  exact stuck

theorem EndsInBrace.of_same (same : SameInput left right) :
    EndsInBrace left → EndsInBrace right := by
  rintro ⟨count, ended, brace⟩
  refine ⟨count, ?_⟩
  rw [← (same.iterate count).stream, ← (same.iterate count).key]
  exact ⟨ended, brace⟩

theorem iterate_of_eof (ended : scanner.stream.eof = true) (count : Nat) :
    nextLine^[count] scanner = scanner :=
  Function.iterate_fixed (nextLine_of_eof ended) count

theorem overflows_next : Overflows scanner ↔ ¬FieldsFit scanner ∨ Overflows (nextLine scanner) := by
  constructor
  · rintro ⟨count, longer⟩
    cases count with
    | zero => exact Or.inl longer
    | succ count => exact Or.inr ⟨count, longer⟩
  · rintro (longer | ⟨count, longer⟩)
    · exact ⟨0, longer⟩
    · exact ⟨count + 1, longer⟩

theorem meetsColon_next : MeetsColon (nextLine scanner) ↔ MeetsColon scanner := by
  constructor
  · rintro ⟨count, stuck⟩
    exact ⟨count + 1, stuck⟩
  · rintro ⟨count, stuck⟩
    cases count with
    | zero => exact ⟨0, stuck.next⟩
    | succ count => exact ⟨count, stuck⟩

theorem endsInBrace_next : EndsInBrace (nextLine scanner) ↔ EndsInBrace scanner := by
  constructor
  · rintro ⟨count, brace⟩
    exact ⟨count + 1, brace⟩
  · rintro ⟨count, ended, brace⟩
    cases count with
    | zero =>
        have same : nextLine scanner = scanner := nextLine_of_eof ended
        exact ⟨0, by rw [same]; exact ⟨ended, brace⟩⟩
    | succ count => exact ⟨count, ended, brace⟩

theorem entersSchema_next (open_ : scanner.stream.eof = false) :
    EntersSchema scanner ↔
      configKey (nextLine scanner).key = .schema ∨ EntersSchema (nextLine scanner) := by
  constructor
  · rintro ⟨count, before, key⟩
    cases count with
    | zero => exact Or.inl key
    | succ count => exact Or.inr ⟨count, before, key⟩
  · rintro (key | ⟨count, before, key⟩)
    · exact ⟨0, open_, key⟩
    · exact ⟨count + 1, before, key⟩

theorem fieldsFit_of_eof (ended : scanner.stream.eof = true) : FieldsFit scanner := by
  have rest := scanner.stream.ended ended
  simp [FieldsFit, scanFields, rest, stringBufferSize]

theorem Overflows.not_eof (overflows : Overflows scanner) : scanner.stream.eof = false := by
  obtain ⟨count, longer⟩ := overflows
  by_contra ended
  rw [Bool.not_eq_false] at ended
  rw [iterate_of_eof ended] at longer
  exact longer (fieldsFit_of_eof ended)

theorem MeetsColon.not_eof (meets : MeetsColon scanner) : scanner.stream.eof = false := by
  obtain ⟨count, stuck⟩ := meets
  by_contra ended
  rw [Bool.not_eq_false] at ended
  rw [iterate_of_eof ended] at stuck
  exact absurd stuck.not_eof (by simp [ended])

theorem EntersSchema.not_eof (enters : EntersSchema scanner) : scanner.stream.eof = false := by
  obtain ⟨count, before, _⟩ := enters
  by_contra ended
  rw [Bool.not_eq_false] at ended
  rw [iterate_of_eof ended, ended] at before
  cases before

theorem contains_of_truncatedKey {key : CString} {text : String}
    (contains : (truncatedKey defaultKeySize key).contains text) : key.contains text := by
  rw [truncatedKey] at contains
  split at contains
  · simp only [CString.contains, decide_eq_true_eq] at contains ⊢
    exact contains.trans (List.nil_prefix).isInfix
  · exact contains

theorem scanLine_of_fits (fits : FieldsFit scanner) : scanLine scanner = some (scanFields scanner) :=
  if_pos fits

theorem scanLine_of_not_fits (longer : ¬FieldsFit scanner) : scanLine scanner = none :=
  if_neg longer

theorem endsInBrace_of_eof (ended : scanner.stream.eof = true) :
    EndsInBrace scanner ↔ (truncatedKey defaultKeySize scanner.key).contains "\x7d" := by
  constructor
  · rintro ⟨count, _, brace⟩
    rwa [iterate_of_eof ended] at brace
  · intro brace
    exact ⟨0, ended, brace⟩

end Conditions

section ReadSchema

variable {scanner : Scanner}

theorem readSchema_none
    (stalls : Overflows scanner ∨ MeetsColon scanner ∨ EndsInBrace scanner) (fuel : Nat) :
    readSchema fuel scanner = none := by
  induction fuel generalizing scanner with
  | zero => rfl
  | succ fuel ih =>
      have goesOn : scanner.stream.eof = false ∨ scanner.key.contains "\x7d" := by
        rcases stalls with overflows | meets | brace
        · exact Or.inl overflows.not_eof
        · exact Or.inl meets.not_eof
        · cases ended : scanner.stream.eof with
          | false => exact Or.inl rfl
          | true => exact Or.inr (contains_of_truncatedKey ((endsInBrace_of_eof ended).mp brace))
      have same := SameInput.mk (cutKey_same (nextLine scanner)).stream.symm
        (cutKey_same (nextLine scanner)).key.symm
      rw [readSchema, if_pos goesOn]
      by_cases fits : FieldsFit scanner
      · rw [scanLine_of_fits fits]
        apply ih
        rcases stalls with overflows | meets | brace
        · exact Or.inl (((overflows_next.mp overflows).resolve_left (not_not.mpr fits)).of_same same)
        · exact Or.inr (Or.inl ((meetsColon_next.mpr meets).of_same same))
        · exact Or.inr (Or.inr ((endsInBrace_next.mpr brace).of_same same))
      · rw [scanLine_of_not_fits fits]

theorem readSchema_ends (within : ¬Overflows scanner) (free : ¬MeetsColon scanner)
    (closed : ¬EndsInBrace scanner) :
    ∃ fuel after, readSchema fuel scanner = some after ∧ after.stream.eof = true := by
  generalize size : unread scanner = left
  induction left using Nat.strongRecOn generalizing scanner with
  | ind left ih =>
      rw [overflows_next, not_or, not_not] at within
      by_cases goesOn : scanner.stream.eof = false ∨ scanner.key.contains "\x7d"
      · have same := cutKey_same (nextLine scanner)
        have scanned := scanLine_of_fits within.1
        cases ended : scanner.stream.eof with
        | false =>
            have shorter : unread (cutKey (nextLine scanner)) < left := by
              rw [← size]
              exact unread_next ended fun stuck => free ⟨0, stuck⟩
            obtain ⟨fuel, after, read, last⟩ := ih _ shorter
              (fun overflows => within.2 (overflows.of_same same))
              (fun meets => free (meetsColon_next.mp (meets.of_same same)))
              (fun brace => closed (endsInBrace_next.mp (brace.of_same same))) rfl
            exact ⟨fuel + 1, after, by rw [readSchema, if_pos goesOn, scanned]; exact read, last⟩
        | true =>
            -- the scan fails, and the cut takes the brace away
            have noBrace : ¬(truncatedKey defaultKeySize scanner.key).contains "\x7d" :=
              fun brace => closed ((endsInBrace_of_eof ended).mpr brace)
            have unmoved : (scanFields scanner).1 = scanner := nextLine_of_eof ended
            refine ⟨2, cutKey scanner, ?_, ended⟩
            rw [readSchema, if_pos goesOn, scanned]
            dsimp only
            rw [unmoved, readSchema, if_neg (by simpa [ended] using noBrace)]
            rfl
      · refine ⟨1, scanner, by rw [readSchema, if_neg goesOn], ?_⟩
        rw [not_or, Bool.not_eq_false] at goesOn
        exact goesOn.1

theorem readSchema_mono {fuel : Nat} {after : Scanner}
    (read : readSchema fuel scanner = some after) (more : Nat) :
    readSchema (fuel + more) scanner = some after := by
  induction fuel generalizing scanner with
  | zero => cases read
  | succ fuel ih =>
      rw [Nat.add_right_comm, readSchema] at *
      split at read
      · rename_i goesOn
        rw [if_pos goesOn]
        cases scanned : scanLine scanner with
        | none => simp [scanned] at read
        | some line =>
            rw [scanned] at read
            exact ih read
      · rename_i stops
        rw [if_neg stops]
        exact read

end ReadSchema

section ReadLines

variable {scanner : Scanner}

theorem readLines_none
    (stalls : Overflows scanner ∨ MeetsColon scanner ∨ EntersSchema scanner ∧ EndsInBrace scanner)
    (fuel : Nat) (value : List UInt8) (cfg : ConfigFields) :
    readLines fuel scanner value cfg = none := by
  induction fuel generalizing scanner value cfg with
  | zero => rfl
  | succ fuel ih =>
      have open_ : scanner.stream.eof = false := by
        rcases stalls with overflows | meets | ⟨enters, _⟩
        · exact overflows.not_eof
        · exact meets.not_eof
        · exact enters.not_eof
      rw [readLines, open_]
      by_cases fits : FieldsFit scanner
      · have later : Overflows (nextLine scanner) ∨ MeetsColon (nextLine scanner) ∨
            (configKey (nextLine scanner).key = .schema ∨ EntersSchema (nextLine scanner)) ∧
              EndsInBrace (nextLine scanner) := by
          rw [meetsColon_next, endsInBrace_next, ← entersSchema_next open_]
          exact stalls.imp_left fun overflows =>
            (overflows_next.mp overflows).resolve_left (not_not.mpr fits)
        rw [scanLine_of_fits fits]
        dsimp only
        by_cases schema : configKey (scanFields scanner).1.key = .schema
        · have inner : readSchema fuel (scanFields scanner).1 = none :=
            readSchema_none (later.imp_right (Or.imp_right And.right)) fuel
          simp [schema, inner]
        · simp only [Bool.false_eq_true, schema, ↓reduceIte]
          apply ih
          exact later.imp_right (Or.imp_right fun ⟨enters, brace⟩ =>
            ⟨enters.resolve_left schema, brace⟩)
      · rw [scanLine_of_not_fits fits]
        rfl

theorem readLines_ends (within : ¬Overflows scanner) (free : ¬MeetsColon scanner)
    (closed : ¬(EntersSchema scanner ∧ EndsInBrace scanner)) (value : List UInt8)
    (cfg : ConfigFields) : ∃ fuel, (readLines fuel scanner value cfg).isSome := by
  generalize size : unread scanner = left
  induction left using Nat.strongRecOn generalizing scanner value cfg with
  | ind left ih =>
      cases ended : scanner.stream.eof with
      | true => exact ⟨1, by rw [readLines, ended]; rfl⟩
      | false =>
          rw [overflows_next, not_or, not_not] at within
          rw [← meetsColon_next] at free
          rw [entersSchema_next ended, ← endsInBrace_next] at closed
          have scanned := scanLine_of_fits within.1
          by_cases schema : configKey (nextLine scanner).key = .schema
          · obtain ⟨fuel, after, read, last⟩ :=
              readSchema_ends within.2 free fun brace => closed ⟨Or.inl schema, brace⟩
            refine ⟨fuel + 1 + 1, ?_⟩
            rw [readLines, ended, scanned]
            have inner : readSchema (fuel + 1) (scanFields scanner).1 = some after :=
              readSchema_mono read 1
            have here : configKey (scanFields scanner).1.key = .schema := schema
            simp [here, inner, readLines, last]
          · have shorter : unread (nextLine scanner) < left := by
              rw [← size]
              exact unread_next ended fun stuck => free (meetsColon_next.mpr ⟨0, stuck⟩)
            obtain ⟨fuel, read⟩ := ih _ shorter within.2 free
              (fun ⟨enters, brace⟩ => closed ⟨Or.inr enters, brace⟩) _ _ rfl
            refine ⟨fuel + 1, ?_⟩
            have here : configKey (scanFields scanner).1.key ≠ .schema := schema
            rw [readLines, ended, scanned]
            simp only [Bool.false_eq_true, here, ↓reduceIte]
            exact read

end ReadLines

def startScanner (content : List UInt8) (buffers : LineBuffers) : Scanner where
  stream := .open_ content
  key := buffers.key

/-- The loop of `read_btree_config` and those of `read_schema` that it enters come to an end, and no
scan runs over a buffer on the way. -/
def ParserEnds (content : List UInt8) (buffers : LineBuffers) (cfg : ConfigFields) : Prop :=
  ∃ fuel, (readLines fuel (startScanner content buffers) buffers.value cfg).isSome

theorem parserEnds_iff (content : List UInt8) (buffers : LineBuffers) (cfg : ConfigFields) :
    ParserEnds content buffers cfg ↔
      ¬Overflows (startScanner content buffers) ∧ ¬MeetsColon (startScanner content buffers) ∧
        ¬(EntersSchema (startScanner content buffers) ∧
          EndsInBrace (startScanner content buffers)) := by
  rw [← not_or, ← not_or]
  constructor
  · rintro ⟨fuel, ended⟩ stalls
    rw [readLines_none stalls] at ended
    cases ended
  · intro free
    rw [not_or, not_or] at free
    exact readLines_ends free.1 free.2.1 free.2.2 buffers.value cfg

def blankFields : ConfigFields where
  name := .ofText ""
  indexFile := .ofText ""
  idxFreeRrnAddress := .ofText ""
  dataFreeRrnAddress := .ofText ""
  dataFile := .ofText ""
  schemaSize := 0
  order := 0
  rootRrn := 0
  headerSize := 0

def noBuffers : LineBuffers where
  key := .ofText ""
  value := []

theorem colon_file_never_ends :
    ¬∀ content buffers cfg, ParserEnds content buffers cfg := by
  intro ends
  obtain ⟨fuel, ended⟩ := ends [colon] { key := .ofText "", value := [] } blankFields
  have meets : MeetsColon (startScanner [colon] { key := .ofText "", value := [] }) :=
    ⟨0, by decide⟩
  rw [readLines_none (Or.inr (Or.inl meets))] at ended
  cases ended

end Gaveta
