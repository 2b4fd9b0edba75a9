import Gaveta.Config.Lines

/-! The table that `read_schema` fills from the columns of a config file. -/

namespace Gaveta

def columnMetadataSize : UInt32 := 12

/-- The loop of `read_schema` with the keys that it gives to `put_ht`. -/
def schemaPuts : Nat → Scanner → Option (Scanner × List CString)
  | 0, _ => none
  | fuel + 1, scanner =>
      if scanner.stream.eof = false ∨ scanner.key.contains "\x7d" then do
        let (scanner, _) ← scanLine scanner
        let read ← schemaPuts fuel
          { scanner with key := truncatedKey defaultKeySize scanner.key }
        some (read.1, scanner.key :: read.2)
      else some (scanner, [])

/-- The loop of `read_btree_config` with the keys of `cfg->schema`, which each call of `read_schema`
makes anew. -/
def readWithTable : Nat → Scanner → List UInt8 → ConfigFields → Option (List CString) →
    Option (ConfigFields × Option (List CString))
  | 0, _, _, _, _ => none
  | fuel + 1, scanner, value, cfg, table =>
      if scanner.stream.eof then some (cfg, table)
      else do
        let line ← scanLine scanner
        let value := (line.2.map (storeString value)).getD value
        let key := configKey line.1.key
        let assigned := assignField cfg value key
        if key = .schema then do
          let read ← schemaPuts fuel line.1
          readWithTable fuel read.1 value cfg (some read.2)
        else readWithTable fuel line.1 assigned.2 assigned.1 table

/-- The puts of `read_schema`; `raw` is what the new block of each turn has in it. -/
def Arena.putColumns (h : CString → UInt32) (ht : Nat) (raw : Nat → Nat → UInt8) :
    Nat → List CString → Arena → Option Arena
  | _, [], arena => some arena
  | turn, key :: keys, arena => do
      let (arena, _) ← arena.gAlloc columnMetadataSize.toNat
      let (arena, _) ← arena.putHt h ht key (raw turn)
      putColumns h ht raw (turn + 1) keys arena

theorem schemaPuts_readSchema (fuel : Nat) (scanner : Scanner) :
    (schemaPuts fuel scanner).map Prod.fst = readSchema fuel scanner := by
  induction fuel generalizing scanner with
  | zero => rfl
  | succ fuel ih =>
      rw [schemaPuts, readSchema]
      split
      · cases scanLine scanner with
        | none => rfl
        | some line =>
            simp only [Option.bind_eq_bind, Option.bind_some]
            rw [← ih]
            cases schemaPuts fuel
              { line.1 with key := truncatedKey defaultKeySize line.1.key } <;> rfl
      · rfl

theorem readWithTable_readLines (fuel : Nat) (scanner : Scanner) (value : List UInt8)
    (cfg : ConfigFields) (table : Option (List CString)) :
    (readWithTable fuel scanner value cfg table).map Prod.fst =
      readLines fuel scanner value cfg := by
  induction fuel generalizing scanner value cfg table with
  | zero => rfl
  | succ fuel ih =>
      rw [readWithTable, readLines]
      split
      · rfl
      · cases scanLine scanner with
        | none => rfl
        | some line =>
            simp only [Option.bind_eq_bind, Option.bind_some]
            split
            · rw [← schemaPuts_readSchema]
              cases schemaPuts fuel line.1 with
              | none => rfl
              | some read => exact ih _ _ _ _
            · exact ih _ _ _ _

section Puts

variable {scanner after : Scanner} {lines : List Line} {puts : List CString}

theorem lastKey_mem (key : CString) (line : Line) (lines : List Line) :
    lastKey key (line :: lines) ∈ (line :: lines).map fun line => CString.ofBuffer line.key := by
  rw [lastKey, List.map_cons, List.getLastD_cons]
  exact List.getLastD_mem_cons

theorem truncatedKey_lastKey (key : CString) (lines : List Line) :
    truncatedKey defaultKeySize (lastKey (truncatedKey defaultKeySize key) lines) =
      truncatedKey defaultKeySize (lastKey key lines) := by
  cases lines with
  | nil => exact truncatedKey_twice _ _
  | cons line lines => rfl

theorem schemaPuts_eof {fuel : Nat} (ended : scanner.stream.eof = true)
    (noBrace : ¬scanner.key.contains "\x7d")
    (read : schemaPuts fuel scanner = some (after, puts)) :
    after.stream.eof = true ∧ puts = [] := by
  cases fuel with
  | zero => cases read
  | succ fuel =>
      rw [schemaPuts, if_neg (by simp [ended, noBrace])] at read
      cases read
      exact ⟨ended, rfl⟩

theorem schemaPuts_lines {fuel : Nat} (text : Lines scanner.stream.rest lines)
    (flag : scanner.stream.eof = scanner.stream.rest.isEmpty)
    (cut : truncatedKey defaultKeySize scanner.key = scanner.key)
    (closed : ¬(truncatedKey defaultKeySize (lastKey scanner.key lines)).contains "\x7d")
    (read : schemaPuts fuel scanner = some (after, puts)) :
    after.stream.eof = true ∧ ∃ again, puts = lines.map (fun line => .ofBuffer line.key) ++ again ∧
      (again = [] ∨ again = [truncatedKey defaultKeySize (lastKey scanner.key lines)]) ∧
      (scanner.stream.rest = [] → again = []) := by
  generalize left : scanner.stream.rest = rest at text
  induction text generalizing scanner fuel puts with
  | @blank rest blank =>
      subst left
      have noBrace : ¬scanner.key.contains "\x7d" := by
        rw [← cut]
        exact closed
      cases ended : scanner.stream.eof with
      | true =>
          obtain ⟨last, rfl⟩ := schemaPuts_eof ended noBrace read
          exact ⟨last, [], rfl, Or.inl rfl, fun _ => rfl⟩
      | false =>
          cases fuel with
          | zero => cases read
          | succ fuel =>
              obtain ⟨fits, _, eof, key⟩ := nextLine_blank blank
              rw [schemaPuts, if_pos (Or.inl ended), scanLine_of_fits fits] at read
              simp only [Option.bind_eq_bind, Option.bind_some] at read
              obtain ⟨⟨after, later⟩, inner, same⟩ := Option.bind_eq_some_iff.mp read
              cases same
              have next : (scanFields scanner).1.key = scanner.key := key
              rw [next, cut] at inner
              obtain ⟨last, rfl⟩ :=
                @schemaPuts_eof { nextLine scanner with key := scanner.key } _ _ _ eof noBrace inner
              refine ⟨last, [(scanFields scanner).1.key], rfl, Or.inr ?_, fun empty => ?_⟩
              · rw [next]
                exact congrArg (fun key => [key]) cut.symm
              · rw [flag, empty] at ended
                cases ended
  | @cons text rest line lines starts tail ih =>
      subst left
      obtain ⟨fits, behind, eof, key, _⟩ := starts.scan
      have ended : scanner.stream.eof = false := by
        rw [flag]
        simpa using starts.ne_nil
      cases fuel with
      | zero => cases read
      | succ fuel =>
          rw [schemaPuts, if_pos (Or.inl ended), scanLine_of_fits fits] at read
          simp only [Option.bind_eq_bind, Option.bind_some] at read
          obtain ⟨⟨after, later⟩, inner, same⟩ := Option.bind_eq_some_iff.mp read
          cases same
          have next : lastKey scanner.key (line :: lines) =
              lastKey (nextLine scanner).key lines := by
            rw [nextLine, key, lastKey, lastKey, List.map_cons, List.getLastD_cons]
          rw [next, ← truncatedKey_lastKey] at closed ⊢
          obtain ⟨last, again, rfl, repeats, none⟩ := @ih
            (cutKey (nextLine scanner)) later fuel (eof.trans (by rw [← behind]; rfl))
            (truncatedKey_twice _ _) closed inner behind
          refine ⟨last, again, ?_, repeats, fun empty => absurd empty starts.ne_nil⟩
          rw [List.map_cons, List.cons_append, ← key]

theorem lines_ne_nil {line : Line} (text : Lines scanner.stream.rest (line :: lines)) :
    scanner.stream.rest ≠ [] := by
  cases text with
  | cons starts _ => exact starts.ne_nil

def assignLine (state : ConfigFields × List UInt8) (line : Line) : ConfigFields × List UInt8 :=
  assignField state.1 ((line.value.map (storeString state.2)).getD state.2)
    (configKey (.ofBuffer line.key))

theorem readWithTable_schema {before : List Line} {line : Line}
    (text : Lines scanner.stream.rest (before ++ line :: lines))
    (open_ : scanner.stream.eof = false)
    (others : ∀ other ∈ before, configKey (.ofBuffer other.key) ≠ .schema)
    (schema : configKey (.ofBuffer line.key) = .schema) (value : List UInt8) (cfg : ConfigFields) :
    ∃ (inner : Scanner) (buffer : List UInt8), Lines inner.stream.rest lines ∧
      inner.stream.eof = inner.stream.rest.isEmpty ∧ inner.key = .ofBuffer line.key ∧
      (line.value = none → inner.stream.rest = []) ∧
      (∀ fuel table, readWithTable (fuel + 1 + before.length) scanner value cfg table =
        (schemaPuts fuel inner).bind fun read =>
          readWithTable fuel read.1 buffer (before.foldl assignLine (cfg, value)).1 (some read.2)) ∧
      ∀ fuel ≤ before.length, ∀ table, readWithTable fuel scanner value cfg table = none := by
  induction before generalizing scanner value cfg with
  | nil =>
      generalize left : scanner.stream.rest = rest at text
      cases text with
      | cons starts tail =>
          subst left
          obtain ⟨fits, behind, flag, key, _⟩ := starts.scan
          refine ⟨(scanFields scanner).1, ((scanFields scanner).2.map (storeString value)).getD value,
            behind ▸ tail, by rw [flag, behind], key, ?_, ?_, ?_⟩
          · intro bare
            rw [behind]
            exact starts.rest_of_bare bare
          · intro fuel table
            rw [List.length_nil, Nat.add_zero, readWithTable, open_, scanLine_of_fits fits]
            simp only [Bool.false_eq_true, Option.bind_eq_bind, Option.bind_some, key, schema,
              ↓reduceIte]
            rfl
          · intro fuel few table
            obtain rfl := Nat.le_zero.mp few
            rfl
  | cons other before ih =>
      generalize left : scanner.stream.rest = rest at text
      cases text with
      | cons starts tail =>
          subst left
          obtain ⟨fits, behind, flag, key, found⟩ := starts.scan
          rw [← behind] at tail
          have later : (scanFields scanner).1.stream.eof = false := by
            rw [flag, ← behind]
            cases before with
            | nil => simpa using lines_ne_nil tail
            | cons second before => simpa using lines_ne_nil tail
          have notSchema : configKey (.ofBuffer other.key) ≠ .schema :=
            others other List.mem_cons_self
          obtain ⟨inner, buffer, lined, ended, innerKey, bare, run, short⟩ := ih tail later
            (fun line member => others line (List.mem_cons_of_mem _ member))
            (assignLine (cfg, value) other).2 (assignLine (cfg, value) other).1
          refine ⟨inner, buffer, lined, ended, innerKey, bare, ?_, ?_⟩
          · intro fuel table
            rw [List.length_cons, ← Nat.add_assoc, readWithTable, open_, scanLine_of_fits fits]
            simp only [Bool.false_eq_true, Option.bind_eq_bind, Option.bind_some, key, found,
              notSchema, ↓reduceIte]
            exact run fuel table
          · intro fuel few table
            cases fuel with
            | zero => rfl
            | succ fuel =>
                rw [readWithTable, open_, scanLine_of_fits fits]
                simp only [Bool.false_eq_true, Option.bind_eq_bind, Option.bind_some, key, found,
                  notSchema, ↓reduceIte]
                exact short fuel (Nat.le_of_succ_le_succ few) table

theorem readWithTable_eof (ended : scanner.stream.eof = true) {fuel : Nat} {value : List UInt8}
    {cfg : ConfigFields} {table : Option (List CString)}
    {result : ConfigFields × Option (List CString)}
    (read : readWithTable fuel scanner value cfg table = some result) : result = (cfg, table) := by
  cases fuel with
  | zero => cases read
  | succ fuel =>
      rw [readWithTable, ended] at read
      exact (Option.some.inj read).symm

theorem readWithTable_lines {before : List Line} {line : Line}
    (text : Lines scanner.stream.rest (before ++ line :: lines))
    (open_ : scanner.stream.eof = false)
    (others : ∀ other ∈ before, configKey (.ofBuffer other.key) ≠ .schema)
    (schema : configKey (.ofBuffer line.key) = .schema)
    (cut : truncatedKey defaultKeySize (.ofBuffer line.key) = .ofBuffer line.key)
    (value : List UInt8) (cfg : ConfigFields) :
    let last := truncatedKey defaultKeySize (lastKey (.ofBuffer line.key) lines)
    (¬last.contains "\x7d" → ∃ fuel, (readWithTable fuel scanner value cfg none).isSome) ∧
      ∀ fuel result, readWithTable fuel scanner value cfg none = some result →
        ¬last.contains "\x7d" ∧ result.1 = (before.foldl assignLine (cfg, value)).1 ∧
          ∃ again, result.2 = some (lines.map (fun line => .ofBuffer line.key) ++ again) ∧
            (again = [] ∨ again = [last]) ∧ (line.value = none → again = []) := by
  obtain ⟨inner, buffer, lined, flag, key, bare, run, short⟩ :=
    readWithTable_schema text open_ others schema value cfg
  have brace := lined.endsInBrace_iff
  rw [key] at brace
  refine ⟨fun closed => ?_, fun fuel result read => ?_⟩
  · obtain ⟨fuel, after, read, ended⟩ := readSchema_ends lined.within lined.free (brace.not.mpr closed)
    have longer := readSchema_mono read 1
    rw [← schemaPuts_readSchema] at longer
    obtain ⟨⟨_, puts⟩, inside, rfl⟩ := Option.map_eq_some_iff.mp longer
    refine ⟨fuel + 1 + 1 + before.length, ?_⟩
    rw [run, inside, Option.bind_some, readWithTable, ended]
    rfl
  · have enough : before.length < fuel := by
      by_contra few
      rw [short fuel (by omega)] at read
      cases read
    obtain ⟨left, rfl⟩ : ∃ left, fuel = left + 1 + before.length :=
      ⟨fuel - 1 - before.length, by omega⟩
    rw [run] at read
    obtain ⟨⟨after, puts⟩, inside, rest⟩ := Option.bind_eq_some_iff.mp read
    have closed : ¬(truncatedKey defaultKeySize (lastKey inner.key lines)).contains "\x7d" := by
      intro stuck
      have none := readSchema_none (Or.inr (Or.inr (lined.endsInBrace_iff.mpr stuck))) left
      rw [← schemaPuts_readSchema, inside] at none
      cases none
    obtain ⟨ended, again, rfl, repeats, none⟩ :=
      schemaPuts_lines lined flag (key.symm ▸ cut) closed inside
    obtain rfl := readWithTable_eof ended rest
    rw [key] at closed repeats
    exact ⟨closed, rfl, again, rfl, repeats, fun isBare => none (bare isBare)⟩

end Puts

namespace Arena

section Table

variable {arena after : Arena} {h : CString → UInt32} {ht heads data : Nat}
  {next : Nat → Option Nat} {dataSize : UInt32} {maxKeySize : UInt16} {history : List Entry}

theorem putColumns_spec {raw : Nat → Nat → UInt8} {turn : Nat} {keys : List CString}
    (represents : Represents arena ht heads data next dataSize maxKeySize (bucketsOf h history))
    (short : ∀ key ∈ keys, key.bytes.length < 2 ^ 31)
    (filled : arena.putColumns h ht raw turn keys = some after) :
    ∃ next stored, Represents after ht heads data next dataSize maxKeySize
        (bucketsOf h (stored ++ history)) ∧
      stored.map Prod.fst = (keys.map (keptKey maxKeySize)).reverse := by
  induction keys generalizing arena turn next history with
  | nil =>
      obtain rfl := Option.some.inj filled
      exact ⟨next, [], represents, rfl⟩
  | cons key keys ih =>
      simp only [putColumns, Option.bind_eq_bind, Option.bind_eq_some_iff, Prod.exists] at filled
      obtain ⟨first, place, allocated, second, ok, put, rest⟩ := filled
      obtain ⟨rfl, next, grown⟩ := putHt_spec (represents.grow (gAlloc_spec allocated).grows) put
      rw [truncatedKey_eq (short _ List.mem_cons_self),
        truncate_of_length (keptKey_length _ _)] at grown
      have latest : Represents second ht heads data next dataSize maxKeySize
          (bucketsOf h (stored dataSize maxKeySize (key, raw turn) :: history)) := by
        rw [← bucketsOf_cons]
        exact grown
      obtain ⟨next, later, final, keysLater⟩ := ih latest
        (fun key member => short key (List.mem_cons_of_mem _ member)) rest
      refine ⟨next, later ++ [stored dataSize maxKeySize (key, raw turn)], by simpa using final, ?_⟩
      simp [keysLater, stored]

def cmpStrKeys (stored key : CString) : Bool := strcmp stored key = 0

theorem lookupHt_history (k : CString)
    (represents : Represents arena ht heads data next dataSize maxKeySize (bucketsOf h history)) :
    (∃ address, arena.lookupHt h cmpStrKeys ht k = some (some address)) ↔
      k ∈ history.map Prod.fst := by
  obtain ⟨found, looked, contents⟩ := lookupHt_spec (f := cmpStrKeys) k represents
  have equality : (fun entry : Entry => cmpStrKeys entry.1 k) =
      fun entry => decide (entry.1 = k) := by
    funext entry
    simp [cmpStrKeys]
  rw [equality, find?_bucketsOf] at contents
  have exists_ : found.isSome = (history.find? fun entry => decide (entry.1 = k)).isSome := by
    rw [← Option.isSome_map (f := arena.cells), contents, Option.isSome_map]
  rw [looked]
  simp only [Option.some.injEq, ← Option.isSome_iff_exists, exists_, List.find?_isSome,
    decide_eq_true_eq, List.mem_map]

end Table

end Arena

open Arena

def schemaFile (entries : List ConfigEntry) (indent : List UInt8) (columns : List Column)
    (tail : List UInt8) : List UInt8 :=
  entries.flatMap ConfigEntry.text ++
    (indent ++ (schemaKey ++ colon :: (columns.flatMap Column.text ++ tail)))

def TablePuts (content : List UInt8) (buffers : LineBuffers) (cfg : ConfigFields)
    (puts : List CString) : Prop :=
  ∃ fuel result, readWithTable fuel (startScanner content buffers) buffers.value cfg none =
    some (result, some puts)

/-- The file is read to its end, the declared names are keys of the table, and it has no others. -/
def SchemaStored (h : CString → UInt32) (raw : Nat → Nat → UInt8) (empty : Arena) (ht : Nat)
    (content : List UInt8) (buffers : LineBuffers) (cfg : ConfigFields)
    (names : List (List UInt8)) : Prop :=
  ∃ puts filled, TablePuts content buffers cfg puts ∧
    empty.putColumns h ht raw 0 puts = some filled ∧
    (∀ name ∈ names, ∃ address,
      filled.lookupHt h cmpStrKeys ht (.ofBuffer name) = some (some address)) ∧
    ∀ key address, filled.lookupHt h cmpStrKeys ht key = some (some address) →
      ∃ name ∈ names, key = .ofBuffer name

def closingBrace : UInt8 := 125

section Columns

theorem ofBuffer_bytes {name : List UInt8} (nonNul : ∀ byte ∈ name, byte ≠ 0) :
    (CString.ofBuffer name).bytes = name.map UInt8.toNat := by
  have whole : name.takeWhile (fun byte => decide (byte ≠ 0)) = name :=
    List.takeWhile_eq_self_iff.mpr fun byte member => decide_eq_true (nonNul byte member)
  exact congrArg (List.map UInt8.toNat) whole

theorem Column.bytes (column : Column) :
    (CString.ofBuffer column.name).bytes = column.name.map UInt8.toNat :=
  ofBuffer_bytes fun byte member => (column.plain byte member).2.2

theorem Column.dashed_bytes (column : Column) :
    (CString.ofBuffer (dash :: space :: column.name)).bytes =
      45 :: 32 :: column.name.map UInt8.toNat := by
  rw [ofBuffer_bytes]
  · rfl
  · simp only [List.mem_cons, forall_eq_or_imp]
    exact ⟨by decide, by decide, fun byte member => (column.plain byte member).2.2⟩

theorem Column.noSpace (column : Column) : 32 ∉ (CString.ofBuffer column.name).bytes := by
  rw [column.bytes, List.mem_map]
  rintro ⟨byte, member, value⟩
  obtain rfl : byte = space := UInt8.toNat_inj.mp value
  exact absurd (column.plain space member).2.1 (by decide)

theorem contains_brace (key : CString) : key.contains "\x7d" ↔ 125 ∈ key.bytes := by
  have brace : (CString.ofText "\x7d").bytes = [125] := by decide
  rw [CString.contains, decide_eq_true_iff, brace, List.singleton_infix_iff]

theorem mem_bytes_brace (name : List UInt8) :
    125 ∈ name.map UInt8.toNat ↔ closingBrace ∈ name := by
  rw [List.mem_map]
  constructor
  · rintro ⟨byte, member, value⟩
    obtain rfl : byte = closingBrace := UInt8.toNat_inj.mp value
    exact member
  · exact fun member => ⟨closingBrace, member, rfl⟩

theorem Column.closed_iff (column : Column) :
    (CString.ofBuffer column.name).contains "\x7d" ↔ closingBrace ∈ column.name := by
  rw [contains_brace, column.bytes, mem_bytes_brace]

theorem Column.name_fits (column : Column) :
    (CString.ofBuffer column.name).bytes.length ≤ defaultKeySize.toNat := by
  rw [column.bytes, List.length_map]
  exact column.named.2

theorem Column.ne_keptKey_dashed (column other : Column) :
    keptKey defaultKeySize (.ofBuffer (dash :: space :: other.name)) ≠
      .ofBuffer column.name := by
  intro same
  rw [keptKey] at same
  split at same
  · have bytes := congrArg CString.bytes same
    rw [column.bytes] at bytes
    exact column.named.1 (List.map_eq_nil_iff.mp bytes.symm)
  · apply column.noSpace
    rw [← same, other.dashed_bytes]
    simp

theorem Column.dashed_short (column : Column) :
    (CString.ofBuffer (dash :: space :: column.name)).bytes.length < 2 ^ 31 := by
  have short := column.named.2
  rw [column.dashed_bytes, List.length_cons, List.length_cons, List.length_map]
  omega

theorem schemaKey_schema : configKey (.ofBuffer schemaKey) = .schema := by decide

theorem schemaKey_cut :
    truncatedKey defaultKeySize (.ofBuffer schemaKey) = .ofBuffer schemaKey := by decide

end Columns

section Run

variable {h : CString → UInt32} {raw : Nat → Nat → UInt8} {start empty filled : Arena} {ht : Nat}
  {keys : List CString}

theorem lookup_columns (made : start.initHt columnMetadataSize defaultKeySize = some (empty, ht))
    (short : ∀ key ∈ keys, key.bytes.length < 2 ^ 31)
    (stored : empty.putColumns h ht raw 0 keys = some filled) (k : CString) :
    (∃ address, filled.lookupHt h cmpStrKeys ht k = some (some address)) ↔
      ∃ key ∈ keys, keptKey defaultKeySize key = k := by
  obtain ⟨heads, data, begun⟩ := initHt_spec made
  have noEntries : Arena.Represents empty ht heads data (fun _ => none) columnMetadataSize
      defaultKeySize (bucketsOf h []) := begun
  obtain ⟨next, entries, represents, listed⟩ := putColumns_spec noEntries short stored
  rw [lookupHt_history k represents, List.append_nil, listed, List.mem_reverse, List.mem_map]

variable {entries : List ConfigEntry} {indent tail : List UInt8} {buffers : LineBuffers}
  {cfg : ConfigFields}

theorem schemaStored_nil (blank : Blank indent ∧ Blank tail)
    (others : ∀ entry ∈ entries, configKey (.ofBuffer entry.key) ≠ .schema)
    (made : start.initHt columnMetadataSize defaultKeySize = some (empty, ht)) :
    SchemaStored h raw empty ht (schemaFile entries indent [] tail) buffers cfg [] := by
  have text : Lines (startScanner (schemaFile entries indent [] tail) buffers).stream.rest
      (entries.map ConfigEntry.line ++ ⟨schemaKey, none⟩ :: []) :=
    lines_entries entries (.cons (.bare blank.1 schemaKey_text blank.2) (.blank (by simp [Blank])))
  have others : ∀ line ∈ entries.map ConfigEntry.line, configKey (.ofBuffer line.key) ≠ .schema := by
    simpa using others
  obtain ⟨ends, shape⟩ :=
    readWithTable_lines text rfl others schemaKey_schema schemaKey_cut buffers.value cfg
  obtain ⟨fuel, read⟩ := ends (by decide)
  obtain ⟨⟨result, table⟩, read⟩ := Option.isSome_iff_exists.mp read
  obtain ⟨_, _, again, rfl, _, none⟩ := shape fuel _ read
  obtain rfl := none rfl
  have short : ∀ key ∈ ([] : List CString), key.bytes.length < 2 ^ 31 := by simp
  have stored : empty.putColumns h ht raw 0 [] = some empty := rfl
  refine ⟨[], empty, ⟨fuel, result, read⟩, stored, by simp, fun key address looked => ?_⟩
  obtain ⟨other, member, _⟩ := (lookup_columns made short stored key).mp ⟨address, looked⟩
  cases member

theorem schema_puts {first : Column} {columns : List Column} (blank : Blank indent ∧ Blank tail)
    (others : ∀ entry ∈ entries, configKey (.ofBuffer entry.key) ≠ .schema) :
    let lines := ⟨first.name, some first.word⟩ :: columns.map Column.line
    let last := truncatedKey defaultKeySize (lastKey (.ofBuffer schemaKey) lines)
    let content := schemaFile entries indent (first :: columns) tail
    (¬last.contains "\x7d" → ∃ puts, TablePuts content buffers cfg puts) ∧
      ∀ puts, TablePuts content buffers cfg puts → ¬last.contains "\x7d" ∧
        ∃ again, puts = lines.map (fun line => .ofBuffer line.key) ++ again ∧
          (again = [] ∨ again = [last]) := by
  have text : Lines
      (startScanner (schemaFile entries indent (first :: columns) tail) buffers).stream.rest
      (entries.map ConfigEntry.line ++ ⟨schemaKey, some [dash]⟩ ::
        ⟨first.name, some first.word⟩ :: columns.map Column.line) := by
    have lined := lines_schema blank.1 first columns blank.2.ends (.blank blank.2)
    rw [List.append_nil] at lined
    exact lines_entries entries lined
  have others : ∀ line ∈ entries.map ConfigEntry.line, configKey (.ofBuffer line.key) ≠ .schema := by
    simpa using others
  obtain ⟨ends, shape⟩ :=
    readWithTable_lines text rfl others schemaKey_schema schemaKey_cut buffers.value cfg
  refine ⟨fun closed => ?_, ?_⟩
  · obtain ⟨fuel, read⟩ := ends closed
    obtain ⟨⟨result, table⟩, read⟩ := Option.isSome_iff_exists.mp read
    obtain ⟨_, _, again, rfl, _⟩ := shape fuel _ read
    exact ⟨_, fuel, result, read⟩
  · rintro puts ⟨fuel, result, read⟩
    obtain ⟨closed, _, again, same, repeats, _⟩ := shape fuel _ read
    exact ⟨closed, again, Option.some.inj same, repeats⟩

theorem keptKey_name (column : Column) :
    keptKey defaultKeySize (.ofBuffer column.name) = .ofBuffer column.name :=
  if_neg (not_lt.mpr column.name_fits)

theorem truncatedKey_name (column : Column) :
    truncatedKey defaultKeySize (.ofBuffer column.name) = .ofBuffer column.name := by
  have short := column.name_fits
  rw [truncatedKey_eq, keptKey_name]
  exact Nat.lt_of_le_of_lt short (by decide)

theorem schemaStored_one (blank : Blank indent ∧ Blank tail)
    (others : ∀ entry ∈ entries, configKey (.ofBuffer entry.key) ≠ .schema) (column : Column)
    (noBrace : closingBrace ∉ column.name)
    (made : start.initHt columnMetadataSize defaultKeySize = some (empty, ht))
    (room : ∀ puts, TablePuts (schemaFile entries indent [column] tail) buffers cfg puts →
      (empty.putColumns h ht raw 0 puts).isSome) :
    SchemaStored h raw empty ht (schemaFile entries indent [column] tail) buffers cfg
      [column.name] := by
  obtain ⟨ends, shape⟩ := @schema_puts entries indent tail buffers cfg column [] blank others
  have last : truncatedKey defaultKeySize (lastKey (.ofBuffer schemaKey)
      (⟨column.name, some column.word⟩ :: [].map Column.line)) = .ofBuffer column.name :=
    truncatedKey_name column
  rw [last, column.closed_iff] at ends
  obtain ⟨puts, read⟩ := ends noBrace
  obtain ⟨filled, stored⟩ := Option.isSome_iff_exists.mp (room puts read)
  obtain ⟨_, again, same, repeats⟩ := shape puts read
  rw [last] at repeats
  have each : ∀ key ∈ puts, key = .ofBuffer column.name := by
    rw [same]
    rcases repeats with rfl | rfl <;> simp
  have short : ∀ key ∈ puts, key.bytes.length < 2 ^ 31 := by
    intro key member
    rw [each key member]
    exact Nat.lt_of_le_of_lt column.name_fits (by decide)
  have looks := lookup_columns made short stored
  refine ⟨puts, filled, read, stored, ?_, fun key address found => ?_⟩
  · intro name member
    obtain rfl := List.mem_singleton.mp member
    refine (looks _).mpr ⟨.ofBuffer column.name, ?_, keptKey_name column⟩
    rw [same]
    exact List.mem_cons_self
  · obtain ⟨put, member, rfl⟩ := (looks key).mp ⟨address, found⟩
    exact ⟨column.name, List.mem_singleton_self _, by rw [each put member, keptKey_name]⟩

theorem schemaStored_two (blank : Blank indent ∧ Blank tail)
    (others : ∀ entry ∈ entries, configKey (.ofBuffer entry.key) ≠ .schema)
    (first second : Column) (columns : List Column) (different : first.name ≠ second.name)
    (made : start.initHt columnMetadataSize defaultKeySize = some (empty, ht))
    {names : List (List UInt8)} (declared : second.name ∈ names) :
    ¬SchemaStored h raw empty ht (schemaFile entries indent (first :: second :: columns) tail)
      buffers cfg names := by
  rintro ⟨puts, filled, read, stored, complete, _⟩
  obtain ⟨_, shape⟩ :=
    @schema_puts entries indent tail buffers cfg first (second :: columns) blank others
  obtain ⟨_, again, same, repeats⟩ := shape puts read
  have lastMember := lastKey_mem (.ofBuffer first.name) second.line (columns.map Column.line)
  rw [← List.map_cons, List.map_map, List.mem_map] at lastMember
  obtain ⟨final, _, last⟩ := lastMember
  have keys : ∀ key ∈ puts, key = .ofBuffer first.name ∨ key.bytes.length < 2 ^ 31 ∧
      ∃ column : Column, keptKey defaultKeySize key =
        keptKey defaultKeySize (.ofBuffer (dash :: space :: column.name)) := by
    intro key member
    rw [same, List.map_cons, List.cons_append, List.mem_cons, List.mem_append, List.map_map,
      List.mem_map] at member
    rcases member with rfl | ⟨column, _, rfl⟩ | repeated
    · exact Or.inl rfl
    · exact Or.inr ⟨column.dashed_short, column, rfl⟩
    · have cut : key = keptKey defaultKeySize (.ofBuffer (dash :: space :: final.name)) := by
        rcases repeats with rfl | rfl
        · cases repeated
        · rw [List.mem_singleton.mp repeated, ← truncatedKey_eq final.dashed_short]
          exact congrArg _ last.symm
      have length := keptKey_length defaultKeySize (.ofBuffer (dash :: space :: final.name))
      rw [cut]
      exact Or.inr ⟨Nat.lt_of_le_of_lt length (by decide), final, if_neg (not_lt.mpr length)⟩
  have short : ∀ key ∈ puts, key.bytes.length < 2 ^ 31 := by
    intro key member
    rcases keys key member with rfl | dashed
    · exact Nat.lt_of_le_of_lt first.name_fits (by decide)
    · exact dashed.1
  obtain ⟨put, member, found⟩ := (lookup_columns made short stored _).mp (complete _ declared)
  rcases keys put member with rfl | ⟨_, column, dashed⟩
  · rw [keptKey_name] at found
    have bytes := congrArg CString.bytes found
    rw [first.bytes, second.bytes] at bytes
    exact different (List.map_injective_iff.mpr (fun _ _ => UInt8.toNat_inj.mp) bytes)
  · exact second.ne_keptKey_dashed column (dashed.symm.trans found)

/-- The columns are stored under their names when there are none, or only one that has no closing
brace in its name. -/
theorem schema_stored_iff (raw : Nat → Nat → UInt8) (buffers : LineBuffers) (cfg : ConfigFields)
    (others : ∀ entry ∈ entries, configKey (.ofBuffer entry.key) ≠ .schema)
    (blank : Blank indent ∧ Blank tail) (columns : List Column)
    (distinct : (columns.map Column.name).Nodup)
    (made : start.initHt columnMetadataSize defaultKeySize = some (empty, ht))
    (room : ∀ puts, TablePuts (schemaFile entries indent columns tail) buffers cfg puts →
      (empty.putColumns h ht raw 0 puts).isSome) :
    SchemaStored h raw empty ht (schemaFile entries indent columns tail) buffers cfg
        (columns.map Column.name) ↔
      columns = [] ∨ ∃ column, columns = [column] ∧ closingBrace ∉ column.name := by
  constructor
  · intro stored
    match columns with
    | [] => exact Or.inl rfl
    | [column] =>
        obtain ⟨puts, _, read, _⟩ := stored
        obtain ⟨_, shape⟩ := @schema_puts entries indent tail buffers cfg column [] blank others
        have closed := (shape puts read).1
        have last : truncatedKey defaultKeySize (lastKey (.ofBuffer schemaKey)
            (⟨column.name, some column.word⟩ :: [].map Column.line)) = .ofBuffer column.name :=
          truncatedKey_name column
        rw [last, column.closed_iff] at closed
        exact Or.inr ⟨column, rfl, closed⟩
    | first :: second :: columns =>
        have different : first.name ≠ second.name := by
          intro same
          exact (List.nodup_cons.mp distinct).1 (by rw [same]; exact List.mem_cons_self)
        exact absurd stored (schemaStored_two blank others first second columns different made
          (List.mem_cons_of_mem _ List.mem_cons_self))
  · rintro (rfl | ⟨column, rfl, noBrace⟩)
    · exact schemaStored_nil blank others made
    · exact schemaStored_one blank others column noBrace made room

end Run

def idColumn : Column where
  indent := [10, 32, 32]
  name := textBytes "id"
  type := textBytes "int"
  indented := by decide
  named := by decide
  plain := by decide
  typed := by decide
  fits := by decide

def ageColumn : Column where
  indent := [10, 32, 32]
  name := textBytes "age"
  type := textBytes "int"
  indented := by decide
  named := by decide
  plain := by decide
  typed := by decide
  fits := by decide

section Examples

variable {puts : List CString}

theorem one_column_puts
    (read : TablePuts (schemaFile [] [] [idColumn] [10]) noBuffers blankFields puts) :
    puts = [.ofText "id"] ∨ puts = [.ofText "id", .ofText "id"] := by
  obtain ⟨_, shape⟩ :=
    @schema_puts [] [] [10] noBuffers blankFields idColumn [] (by decide) (by simp)
  obtain ⟨_, again, rfl, rfl | rfl⟩ := shape puts read
  · exact Or.inl rfl
  · exact Or.inr (by decide)

theorem schema_stored_one_column :
    ∃ empty ht, (unusedArena 200000).initHt columnMetadataSize defaultKeySize = some (empty, ht) ∧
      SchemaStored (fun _ => 5) (fun _ _ => 7) empty ht (schemaFile [] [] [idColumn] [10]) noBuffers
        blankFields [textBytes "id"] := by
  have runs : ((unusedArena 200000).initHt columnMetadataSize defaultKeySize |>.bind fun made =>
      (made.1.putColumns (fun _ => 5) made.2 (fun _ _ => 7) 0 [.ofText "id"]).bind fun _ =>
        made.1.putColumns (fun _ => 5) made.2 (fun _ _ => 7) 0
          [.ofText "id", .ofText "id"]).isSome = true := by
    decide +kernel
  obtain ⟨last, runs⟩ := Option.isSome_iff_exists.mp runs
  obtain ⟨⟨empty, ht⟩, made, runs⟩ := Option.bind_eq_some_iff.mp runs
  obtain ⟨one, once, twice⟩ := Option.bind_eq_some_iff.mp runs
  refine ⟨empty, ht, made, ?_⟩
  refine (schema_stored_iff (fun _ _ => 7) noBuffers blankFields (by simp) (by decide) [idColumn]
    (by decide) made fun puts read => ?_).mpr (Or.inr ⟨idColumn, rfl, by decide⟩)
  rcases one_column_puts read with rfl | rfl
  · exact Option.isSome_iff_exists.mpr ⟨one, once⟩
  · exact Option.isSome_iff_exists.mpr ⟨last, twice⟩

theorem two_column_puts
    (read : TablePuts (schemaFile [] [] [idColumn, ageColumn] [10]) noBuffers blankFields puts) :
    puts = [.ofText "id", .ofText "- age"] ∨
      puts = [.ofText "id", .ofText "- age", .ofText "- age"] := by
  obtain ⟨_, shape⟩ :=
    @schema_puts [] [] [10] noBuffers blankFields idColumn [ageColumn] (by decide) (by simp)
  obtain ⟨_, again, rfl, rfl | rfl⟩ := shape puts read
  · exact Or.inl (by decide)
  · exact Or.inr (by decide)

/-- The second column is stored as "- age", though all allocations succeed. -/
theorem second_column_is_lost :
    ∃ empty ht, (unusedArena 200000).initHt columnMetadataSize defaultKeySize = some (empty, ht) ∧
      (∀ puts, TablePuts (schemaFile [] [] [idColumn, ageColumn] [10]) noBuffers blankFields puts →
        (empty.putColumns (fun _ => 5) ht (fun _ _ => 7) 0 puts).isSome) ∧
      ¬SchemaStored (fun _ => 5) (fun _ _ => 7) empty ht
        (schemaFile [] [] [idColumn, ageColumn] [10]) noBuffers blankFields
        [textBytes "id", textBytes "age"] := by
  have runs : ((unusedArena 200000).initHt columnMetadataSize defaultKeySize |>.bind fun made =>
      (made.1.putColumns (fun _ => 5) made.2 (fun _ _ => 7) 0
        [.ofText "id", .ofText "- age"]).bind fun _ =>
          made.1.putColumns (fun _ => 5) made.2 (fun _ _ => 7) 0
            [.ofText "id", .ofText "- age", .ofText "- age"]).isSome = true := by
    decide +kernel
  obtain ⟨last, runs⟩ := Option.isSome_iff_exists.mp runs
  obtain ⟨⟨empty, ht⟩, made, runs⟩ := Option.bind_eq_some_iff.mp runs
  obtain ⟨one, once, twice⟩ := Option.bind_eq_some_iff.mp runs
  refine ⟨empty, ht, made, fun puts read => ?_, ?_⟩
  · rcases two_column_puts read with rfl | rfl
    · exact Option.isSome_iff_exists.mpr ⟨one, once⟩
    · exact Option.isSome_iff_exists.mpr ⟨last, twice⟩
  · exact schemaStored_two (by decide) (by simp) idColumn ageColumn [] (by decide) made (by decide)

end Examples

end Gaveta
