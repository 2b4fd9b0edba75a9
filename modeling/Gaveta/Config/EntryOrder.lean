import Gaveta.Config.Schema

/-! What becomes of the settings of a config file when its schema stands elsewhere. -/

namespace Gaveta

inductive Setting where
  | name
  | order
  | schemaSize
  | idxFreeRrnAddress
  | dataFreeRrnAddress
deriving DecidableEq

namespace Setting

def key : Setting → String
  | name => "btree_name"
  | order => "order"
  | schemaSize => "schema_size"
  | idxFreeRrnAddress => "idx_free_rrn_address"
  | dataFreeRrnAddress => "data_free_rrn_address"

def configKey : Setting → ConfigKey
  | name => .btreeName
  | order => .order
  | schemaSize => .schemaSize
  | idxFreeRrnAddress => .idxFreeRrnAddress
  | dataFreeRrnAddress => .dataFreeRrnAddress

theorem configKey_key (setting : Setting) :
    Gaveta.configKey (.ofBuffer (textBytes setting.key)) = setting.configKey := by
  cases setting <;> decide

theorem configKey_ne_schema (setting : Setting) : setting.configKey ≠ .schema := by
  cases setting <;> decide

theorem noBrace (setting : Setting) :
    ¬(truncatedKey defaultKeySize (.ofBuffer (textBytes setting.key))).contains "\x7d" := by
  cases setting <;> decide

end Setting

structure SettingEntry where
  setting : Setting
  entry : ConfigEntry
  named : entry.key = textBytes setting.key

structure SchemaBlock where
  indent : List UInt8
  first : Column
  others : List Column
  close : List UInt8
  indented : Blank indent
  closed : close ≠ [] ∧ Blank close

def SchemaBlock.text (block : SchemaBlock) : List UInt8 :=
  block.indent ++
    (schemaKey ++ colon :: ((block.first :: block.others).flatMap Column.text ++ block.close))

def entriesText (entries : List SettingEntry) : List UInt8 :=
  (entries.map SettingEntry.entry).flatMap ConfigEntry.text

def orderedFile (entries : List SettingEntry) (block : SchemaBlock) (i : Nat) : List UInt8 :=
  entriesText (entries.take i) ++ (block.text ++ entriesText (entries.drop i))

abbrev SettingValue := CString ⊕ UInt32

def orderOr (order : UInt32) : UInt32 := if order = 0 ∨ 100 ≤ order then 20 else order

def schemaSizeOr (schemaSize : UInt32) : UInt32 := if schemaSize = 0 then 128 else schemaSize

/-- The address in a tree of this name; without a name `read_btree_config` gives up before. -/
def addressOr (name address : CString) (file : String) : CString :=
  if name.bytes.length = 0 then address
  else if address.bytes.length = 0 then publicPath name file
  else address

def ConfigFields.setting (cfg : ConfigFields) : Setting → SettingValue
  | .name => .inl cfg.name
  | .order => .inr cfg.order
  | .schemaSize => .inr cfg.schemaSize
  | .idxFreeRrnAddress => .inl cfg.idxFreeRrnAddress
  | .dataFreeRrnAddress => .inl cfg.dataFreeRrnAddress

def ConfigFields.filled (cfg : ConfigFields) : Setting → SettingValue
  | .name => .inl cfg.name
  | .order => .inr (orderOr cfg.order)
  | .schemaSize => .inr (schemaSizeOr cfg.schemaSize)
  | .idxFreeRrnAddress => .inl (addressOr cfg.name cfg.idxFreeRrnAddress "/idx_free_rrn.addr")
  | .dataFreeRrnAddress => .inl (addressOr cfg.name cfg.dataFreeRrnAddress "/data_free_rrn.addr")

theorem fillDefaults_setting (cfg : ConfigFields) : (fillDefaults cfg).1.setting = cfg.filled := by
  funext setting
  by_cases unnamed : cfg.name.bytes.length = 0
  · cases setting <;>
      simp only [fillDefaults, ConfigFields.setting, ConfigFields.filled, addressOr, unnamed,
        ↓reduceIte, orderOr, schemaSizeOr]
  · cases setting <;>
      simp only [fillDefaults, ConfigFields.setting, ConfigFields.filled, addressOr, unnamed,
        ↓reduceIte, orderOr, schemaSizeOr]

def quoted (value : List UInt8) : CString := .ofBuffer (endStr (value.drop 1 ++ [0]))

namespace SettingEntry

def assign (cfg : ConfigFields) (entry : SettingEntry) : ConfigFields :=
  match entry.setting with
  | .name => { cfg with name := quoted entry.entry.value }
  | .order => { cfg with order := UInt32.ofInt (atoi (.ofBuffer entry.entry.value)) }
  | .schemaSize => { cfg with schemaSize := UInt32.ofInt (atoi (.ofBuffer entry.entry.value)) }
  | .idxFreeRrnAddress => { cfg with idxFreeRrnAddress := quoted entry.entry.value }
  | .dataFreeRrnAddress => { cfg with dataFreeRrnAddress := quoted entry.entry.value }

def given (name : CString) (entry : SettingEntry) : SettingValue :=
  match entry.setting with
  | .name => .inl (quoted entry.entry.value)
  | .order => .inr (orderOr (UInt32.ofInt (atoi (.ofBuffer entry.entry.value))))
  | .schemaSize => .inr (schemaSizeOr (UInt32.ofInt (atoi (.ofBuffer entry.entry.value))))
  | .idxFreeRrnAddress => .inl (addressOr name (quoted entry.entry.value) "/idx_free_rrn.addr")
  | .dataFreeRrnAddress => .inl (addressOr name (quoted entry.entry.value) "/data_free_rrn.addr")

def Redundant (cfg : ConfigFields) (entry : SettingEntry) : Prop :=
  entry.given cfg.name = cfg.filled entry.setting

end SettingEntry

/-- Wherever the schema stands, the file is read to its end, no buffer is run over and the settings
are the same. -/
def OrderIrrelevant (entries : List SettingEntry) (block : SchemaBlock) (buffers : LineBuffers)
    (cfg : ConfigFields) : Prop :=
  ∃ settings, ∀ i ≤ entries.length, ∃ fuel result,
    readBtreeConfig fuel (some (orderedFile entries block i)) true buffers cfg = some result ∧
      result.1.setting = settings

/-- What `put_ht` keeps of the name of the last column, whose key has a dash and a blank in front
unless it is the only one. -/
def SchemaBlock.keptName (block : SchemaBlock) : List UInt8 :=
  match block.others.getLast? with
  | none => block.first.name
  | some column => if column.name.length ≤ 30 then column.name else []

section Values

theorem takeWhile_nul (word rest : List UInt8) :
    (word ++ 0 :: rest).takeWhile (fun byte => decide (byte ≠ 0)) =
      word.takeWhile fun byte => decide (byte ≠ 0) := by
  induction word with
  | nil => rfl
  | cons byte word ih =>
      by_cases zero : byte = 0
      · simp [zero]
      · simp only [List.cons_append, List.takeWhile_cons, ne_eq, zero, not_false_eq_true,
          decide_true, ↓reduceIte]
        exact congrArg _ ih

theorem ofBuffer_storeString (buffer word : List UInt8) :
    CString.ofBuffer (storeString buffer word) = CString.ofBuffer word :=
  CString.ofBuffer_congr (takeWhile_nul word _)

theorem endStr_nul (word rest : List UInt8) :
    (endStr (word ++ 0 :: rest)).takeWhile (fun byte => decide (byte ≠ 0)) =
      (endStr (word ++ [0])).takeWhile fun byte => decide (byte ≠ 0) := by
  induction word with
  | nil => rfl
  | cons byte word ih =>
      rw [List.cons_append, List.cons_append, endStr, endStr]
      split_ifs with zero stop
      · rw [zero]
        rfl
      · rfl
      · rw [List.takeWhile_cons, List.takeWhile_cons, ih]

theorem quoted_storeString {word : List UInt8} (some_ : word ≠ []) (buffer : List UInt8) :
    CString.ofBuffer (endStr ((storeString buffer word).drop 1)) = quoted word := by
  obtain ⟨first, rest, rfl⟩ := List.exists_cons_of_ne_nil some_
  exact CString.ofBuffer_congr (endStr_nul rest _)

variable {cfg other : ConfigFields} {entry : SettingEntry}

theorem assignLine_entry (state : ConfigFields × List UInt8) (entry : SettingEntry) :
    (assignLine state entry.entry.line).1 = entry.assign state.1 := by
  have key : configKey (.ofBuffer entry.entry.line.key) = entry.setting.configKey := by
    rw [ConfigEntry.line_key, entry.named]
    exact entry.setting.configKey_key
  have value : ((entry.entry.line.value).map (storeString state.2)).getD state.2 =
      storeString state.2 entry.entry.value := rfl
  have word := quoted_storeString entry.entry.word.nonempty state.2
  have number := ofBuffer_storeString state.2 entry.entry.value
  rw [assignLine, key, value, SettingEntry.assign]
  cases entry.setting <;> simp only [Setting.configKey, assignField, word, number]

theorem foldl_assignLine (entries : List SettingEntry) (cfg : ConfigFields) (value : List UInt8) :
    ((entries.map fun entry => entry.entry.line).foldl assignLine (cfg, value)).1 =
      entries.foldl SettingEntry.assign cfg := by
  induction entries generalizing cfg value with
  | nil => rfl
  | cons entry entries ih =>
      have first := assignLine_entry (cfg, value) entry
      rw [List.map_cons, List.foldl_cons, List.foldl_cons, ← first]
      exact ih _ _

theorem filled_assign (cfg : ConfigFields) (entry : SettingEntry) :
    (entry.assign cfg).filled entry.setting = entry.given cfg.name := by
  rw [SettingEntry.assign, SettingEntry.given]
  cases entry.setting <;> rfl

theorem SettingEntry.Redundant.filled_assign (redundant : entry.Redundant cfg) :
    (entry.assign cfg).filled = cfg.filled := by
  funext setting
  rw [Redundant, given] at redundant
  rw [assign]
  cases same : entry.setting <;> rw [same] at redundant <;>
    simp only [ConfigFields.filled, Sum.inl.injEq, Sum.inr.injEq] at redundant <;>
    cases setting <;> simp only [ConfigFields.filled, redundant]

theorem SettingEntry.Redundant.congr (redundant : entry.Redundant cfg)
    (same : other.filled = cfg.filled) : entry.Redundant other := by
  have name : other.name = cfg.name := Sum.inl.inj (congrFun same .name)
  rw [Redundant, name, same]
  exact redundant

theorem filled_foldl {entries : List SettingEntry}
    (redundant : ∀ entry ∈ entries, entry.Redundant cfg) :
    (entries.foldl SettingEntry.assign cfg).filled = cfg.filled := by
  induction entries generalizing cfg with
  | nil => rfl
  | cons entry entries ih =>
      have first := (redundant entry List.mem_cons_self).filled_assign
      rw [List.foldl_cons, ih fun other member =>
        (redundant other (List.mem_cons_of_mem _ member)).congr first]
      exact first

theorem redundant_of_filled {entries : List SettingEntry}
    (same : ∀ i ≤ entries.length,
      ((entries.take i).foldl SettingEntry.assign cfg).filled = cfg.filled) :
    ∀ entry ∈ entries, entry.Redundant cfg := by
  intro entry member
  obtain ⟨i, inside, rfl⟩ := List.mem_iff_getElem.mp member
  have before := same i inside.le
  have after := same (i + 1) inside
  rw [List.take_succ_eq_append_getElem inside, List.foldl_append, List.foldl_cons,
    List.foldl_nil] at after
  have name := Sum.inl.inj (congrFun before .name)
  have given := filled_assign ((entries.take i).foldl SettingEntry.assign cfg) entries[i]
  rw [after, name] at given
  exact given.symm

end Values

def behindSchema (entries : List SettingEntry) (block : SchemaBlock) (i : Nat) : List Line :=
  (⟨block.first.name, some block.first.word⟩ :: block.others.map Column.line) ++
    (entries.drop i).map fun entry => entry.entry.line

section Run

variable {entries : List SettingEntry} {block : SchemaBlock} {buffers : LineBuffers}
  {cfg : ConfigFields} {i : Nat}

theorem lines_orderedFile (entries : List SettingEntry) (block : SchemaBlock) (i : Nat) :
    Lines (orderedFile entries block i)
      ((entries.take i).map (fun entry => entry.entry.line) ++
        ⟨schemaKey, some [dash]⟩ :: behindSchema entries block i) := by
  have behind := lines_entries ((entries.drop i).map SettingEntry.entry)
    (.blank (fun _ => List.not_mem_nil.elim))
  have closed := behind.prepend block.closed.2
  have blocked := lines_schema block.indented block.first block.others
    (.append block.closed.1 block.closed.2 _) closed
  have lined := lines_entries ((entries.take i).map SettingEntry.entry) blocked
  simp only [List.append_nil, List.map_map] at lined
  simp only [orderedFile, entriesText, SchemaBlock.text, behindSchema, List.append_assoc,
    List.cons_append]
  exact lined

theorem lastKey_append (key : CString) (lines more : List Line) :
    lastKey key (lines ++ more) = lastKey (lastKey key lines) more := by
  simp only [lastKey, List.getLastD_eq_getLast?, List.map_append, List.getLast?_append]
  cases (more.map fun line => CString.ofBuffer line.key).getLast? <;> rfl

theorem lastKey_entries (key : CString) (before : i < entries.length) :
    ¬(truncatedKey defaultKeySize (lastKey key (behindSchema entries block i))).contains
      "\x7d" := by
  rw [behindSchema, lastKey_append]
  generalize lastKey key _ = key
  have some_ : entries.drop i ≠ [] := by simpa using before
  obtain ⟨first, rest, split⟩ := List.exists_cons_of_ne_nil some_
  have member := lastKey_mem key first.entry.line (rest.map fun entry => entry.entry.line)
  rw [← List.map_cons (f := fun entry : SettingEntry => entry.entry.line), ← split, List.map_map,
    List.mem_map] at member
  obtain ⟨entry, _, last⟩ := member
  rw [← last, Function.comp_apply, ConfigEntry.line_key, entry.named]
  exact entry.setting.noBrace

theorem truncatedKey_dashed (column : Column) :
    (truncatedKey defaultKeySize (.ofBuffer (dash :: space :: column.name))).contains "\x7d" ↔
      closingBrace ∈ if column.name.length ≤ 30 then column.name else [] := by
  have length : (CString.ofBuffer (dash :: space :: column.name)).bytes.length =
      column.name.length + 2 := by
    rw [column.dashed_bytes]
    simp
  have size : defaultKeySize.toNat = 32 := rfl
  rw [Arena.truncatedKey_eq column.dashed_short, contains_brace, keptKey, length, size]
  by_cases short : column.name.length ≤ 30
  · have notDash : ¬125 = 45 := by decide
    have notSpace : ¬125 = 32 := by decide
    rw [if_neg (by omega), if_pos short, column.dashed_bytes, List.mem_cons, List.mem_cons,
      mem_bytes_brace]
    simp only [notDash, notSpace, false_or]
  · rw [if_pos (by omega), if_neg short]
    simp [CString.empty]

theorem lastKey_block (key : CString) :
    (truncatedKey defaultKeySize (lastKey key (behindSchema entries block entries.length))).contains
        "\x7d" ↔ closingBrace ∈ block.keptName := by
  rw [behindSchema, List.drop_length, List.map_nil, List.append_nil, SchemaBlock.keptName]
  cases others : block.others using List.reverseRecOn with
  | nil =>
      have last : lastKey key (⟨block.first.name, some block.first.word⟩ :: [].map Column.line) =
          .ofBuffer block.first.name := rfl
      rw [last, truncatedKey_name]
      exact block.first.closed_iff
  | append_singleton columns column =>
      have last : lastKey key (⟨block.first.name, some block.first.word⟩ ::
          (columns ++ [column]).map Column.line) = .ofBuffer (dash :: space :: column.name) := by
        rw [List.map_append, ← List.cons_append, lastKey_append]
        rfl
      rw [last, List.getLast?_concat]
      exact truncatedKey_dashed column

/-- The settings are those of the entries in front of the schema, and the entries behind it are not
read. -/
theorem readBtreeConfig_orderedFile (entries : List SettingEntry) (block : SchemaBlock)
    (buffers : LineBuffers) (cfg : ConfigFields) (i : Nat) :
    let last := truncatedKey defaultKeySize
      (lastKey (.ofBuffer schemaKey) (behindSchema entries block i))
    let read := (entries.take i).foldl SettingEntry.assign cfg
    (¬last.contains "\x7d" → FitsCommand read.name → ∃ fuel result,
      readBtreeConfig fuel (some (orderedFile entries block i)) true buffers cfg = some result) ∧
    ∀ fuel result,
      readBtreeConfig fuel (some (orderedFile entries block i)) true buffers cfg = some result →
        ¬last.contains "\x7d" ∧ FitsCommand read.name ∧ result.1.setting = read.filled := by
  have others : ∀ line ∈ (entries.take i).map fun entry => entry.entry.line,
      configKey (.ofBuffer line.key) ≠ .schema := by
    intro line member
    obtain ⟨entry, _, rfl⟩ := List.mem_map.mp member
    rw [ConfigEntry.line_key, entry.named, entry.setting.configKey_key]
    exact entry.setting.configKey_ne_schema
  have text : Lines (startScanner (orderedFile entries block i) buffers).stream.rest _ :=
    lines_orderedFile entries block i
  obtain ⟨ends, shape⟩ :=
    readWithTable_lines text rfl others schemaKey_schema schemaKey_cut buffers.value cfg
  refine ⟨fun closed fits => ?_, fun fuel result run => ?_⟩
  · obtain ⟨fuel, read⟩ := ends closed
    obtain ⟨⟨after, table⟩, read⟩ := Option.isSome_iff_exists.mp read
    have lines := readWithTable_readLines fuel (startScanner (orderedFile entries block i) buffers)
      buffers.value cfg none
    obtain ⟨_, assigned, _⟩ := shape fuel _ read
    rw [foldl_assignLine] at assigned
    rw [← assigned] at fits
    rw [read] at lines
    refine ⟨fuel, fillDefaults after, ?_⟩
    rw [readBtreeConfig, ← startScanner, ← lines]
    exact if_pos fits
  · rw [readBtreeConfig, ← startScanner, ← readWithTable_readLines _ _ _ _ none] at run
    cases read : readWithTable fuel (startScanner (orderedFile entries block i) buffers)
        buffers.value cfg none with
    | none =>
        rw [read] at run
        cases run
    | some after =>
        rw [read] at run
        obtain ⟨closed, assigned, _⟩ := shape fuel after read
        rw [foldl_assignLine] at assigned
        simp only [Option.map_some, not_true_eq_false, ↓reduceIte, Option.ite_none_right_eq_some,
          Option.some.injEq] at run
        obtain ⟨fits, rfl⟩ := run
        rw [fillDefaults_setting, ← assigned]
        exact ⟨closed, fits, rfl⟩

theorem orderedFile_ends (noBrace : closingBrace ∉ block.keptName) (inside : i ≤ entries.length)
    (fits : FitsCommand ((entries.take i).foldl SettingEntry.assign cfg).name) :
    ∃ fuel result,
      readBtreeConfig fuel (some (orderedFile entries block i)) true buffers cfg = some result := by
  refine (readBtreeConfig_orderedFile entries block buffers cfg i).1 ?_ fits
  rcases inside.lt_or_eq with before | rfl
  · exact lastKey_entries _ before
  · rw [lastKey_block]
    exact noBrace

theorem orderIrrelevant_of_redundant (fits : FitsCommand cfg.name)
    (noBrace : closingBrace ∉ block.keptName) (redundant : ∀ entry ∈ entries, entry.Redundant cfg) :
    OrderIrrelevant entries block buffers cfg := by
  refine ⟨cfg.filled, fun i inside => ?_⟩
  have same : ((entries.take i).foldl SettingEntry.assign cfg).filled = cfg.filled :=
    filled_foldl fun entry member => redundant entry (List.mem_of_mem_take member)
  have name : ((entries.take i).foldl SettingEntry.assign cfg).name = cfg.name :=
    Sum.inl.inj (congrFun same .name)
  obtain ⟨fuel, result, run⟩ :=
    @orderedFile_ends entries block buffers cfg i noBrace inside (name.symm ▸ fits)
  obtain ⟨_, _, settings⟩ :=
    (readBtreeConfig_orderedFile entries block buffers cfg i).2 fuel result run
  exact ⟨fuel, result, run, settings.trans same⟩

theorem noBrace_of_orderIrrelevant (same : OrderIrrelevant entries block buffers cfg) :
    closingBrace ∉ block.keptName := by
  obtain ⟨_, same⟩ := same
  obtain ⟨fuel, result, run, _⟩ := same entries.length le_rfl
  obtain ⟨closed, _⟩ :=
    (readBtreeConfig_orderedFile entries block buffers cfg entries.length).2 fuel result run
  rw [lastKey_block] at closed
  exact closed

theorem fitsCommand_of_orderIrrelevant (same : OrderIrrelevant entries block buffers cfg) :
    FitsCommand cfg.name := by
  obtain ⟨_, same⟩ := same
  obtain ⟨fuel, result, run, _⟩ := same 0 (Nat.zero_le _)
  exact ((readBtreeConfig_orderedFile entries block buffers cfg 0).2 fuel result run).2.1

theorem redundant_of_orderIrrelevant (same : OrderIrrelevant entries block buffers cfg) :
    ∀ entry ∈ entries, entry.Redundant cfg := by
  obtain ⟨settings, same⟩ := same
  have each : ∀ i ≤ entries.length,
      ((entries.take i).foldl SettingEntry.assign cfg).filled = settings := by
    intro i inside
    obtain ⟨fuel, result, run, given⟩ := same i inside
    rw [← given]
    exact ((readBtreeConfig_orderedFile entries block buffers cfg i).2 fuel result run).2.2.symm
  refine redundant_of_filled fun i inside => ?_
  rw [each i inside]
  exact (each 0 (Nat.zero_le _)).symm

end Run

def orderEntry : SettingEntry where
  setting := .order
  entry :=
    { indent := []
      key := textBytes "order"
      gap := [space]
      value := textBytes "7"
      close := [10]
      indented := by decide
      keyed := ⟨⟨111, by decide, by decide⟩, by decide, by decide⟩
      spaced := by decide
      word := ⟨by decide, by decide, by decide⟩
      closed := by decide }
  named := rfl

def idBlock : SchemaBlock where
  indent := []
  first := idColumn
  others := []
  close := [10]
  indented := by decide
  closed := by decide

end Gaveta
