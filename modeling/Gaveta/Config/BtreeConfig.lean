import Gaveta.Config.Scanner
import Gaveta.Structures.HashTable
import Mathlib.Data.List.Infix

/-! `config.c` -/

namespace Gaveta

/-- The fields of `btree_config` that the tree reads; the schema table has no reader. -/
structure ConfigFields where
  name : CString
  indexFile : CString
  idxFreeRrnAddress : CString
  dataFreeRrnAddress : CString
  dataFile : CString
  schemaSize : UInt32
  order : UInt32
  rootRrn : UInt16
  headerSize : UInt16
deriving DecidableEq

def CString.contains (string : CString) (text : String) : Bool :=
  decide ((CString.ofText text).bytes <:+: string.bytes)

/-- `atoi`, by way of a `long` that saturates -/
def atoi (string : CString) : Int :=
  let isBlank := fun byte : Nat => byte = 32 || (9 ≤ byte && byte ≤ 13)
  let digits := fun bytes : List Nat =>
    (bytes.takeWhile fun byte => 48 ≤ byte && byte ≤ 57).foldl
      (fun value digit => value * 10 + (digit - 48)) 0
  match string.bytes.dropWhile isBlank with
  | 45 :: bytes => -(min (digits bytes) (2 ^ 63) : Nat)
  | 43 :: bytes => (min (digits bytes) (2 ^ 63 - 1) : Nat)
  | bytes => (min (digits bytes) (2 ^ 63 - 1) : Nat)

def endStr : List UInt8 → List UInt8
  | [] => []
  | byte :: rest =>
      if byte = 0 then byte :: rest
      else if byte = 34 ∨ byte = 58 ∨ byte = 10 ∨ byte = 32 then 0 :: rest
      else byte :: endStr rest

def endValue (value : List UInt8) : List UInt8 := value.take 1 ++ endStr (value.drop 1)

def storeString (buffer bytes : List UInt8) : List UInt8 :=
  bytes ++ 0 :: buffer.drop (bytes.length + 1)

def defaultKeySize : UInt16 := 32

/-- The loop of `read_schema`.  `put_ht` empties a long `key` in its place and returns true.  There is
no result without fuel, or where a scan runs over a buffer. -/
def readSchema : Nat → Scanner → Option Scanner
  | 0, _ => none
  | fuel + 1, scanner =>
      if scanner.stream.eof = false ∨ scanner.key.contains "\x7d" then
        match scanLine scanner with
        | none => none
        | some (scanner, _) =>
            readSchema fuel { scanner with key := truncatedKey defaultKeySize scanner.key }
      else some scanner

inductive ConfigKey where
  | brace
  | order
  | indexFile
  | dataFile
  | idxFreeRrnAddress
  | dataFreeRrnAddress
  | schemaSize
  | schema
  | btreeName
  | other
deriving DecidableEq

def configKey (key : CString) : ConfigKey :=
  if key = .ofText "\x7b" ∨ key = .ofText "\x7d" then .brace
  else if key.contains "order" then .order
  else if key.contains "index_file" then .indexFile
  else if key.contains "data_file" then .dataFile
  else if key.contains "idx_free_rrn_address" then .idxFreeRrnAddress
  else if key.contains "data_free_rrn_address" then .dataFreeRrnAddress
  else if key.contains "schema_size" then .schemaSize
  else if key.contains "schema" then .schema
  else if key.contains "btree_name" then .btreeName
  else .other

def assignField (cfg : ConfigFields) (value : List UInt8) :
    ConfigKey → ConfigFields × List UInt8
  | .order => ({ cfg with order := UInt32.ofInt (atoi (.ofBuffer value)) }, value)
  | .indexFile => ({ cfg with indexFile := .ofBuffer (endStr (value.drop 1)) }, endValue value)
  | .dataFile => ({ cfg with dataFile := .ofBuffer (endStr (value.drop 1)) }, endValue value)
  | .idxFreeRrnAddress =>
      ({ cfg with idxFreeRrnAddress := .ofBuffer (endStr (value.drop 1)) }, endValue value)
  | .dataFreeRrnAddress =>
      ({ cfg with dataFreeRrnAddress := .ofBuffer (endStr (value.drop 1)) }, endValue value)
  | .schemaSize => ({ cfg with schemaSize := UInt32.ofInt (atoi (.ofBuffer value)) }, value)
  | .btreeName => ({ cfg with name := .ofBuffer (endStr (value.drop 1)) }, endValue value)
  | .brace | .schema | .other => (cfg, value)

def readLines : Nat → Scanner → List UInt8 → ConfigFields → Option ConfigFields
  | 0, _, _, _ => none
  | fuel + 1, scanner, value, cfg =>
      if scanner.stream.eof then some cfg
      else
        match scanLine scanner with
        | none => none
        | some line =>
            let value := (line.2.map (storeString value)).getD value
            let key := configKey line.1.key
            let assigned := assignField cfg value key
            if key = .schema then do
              let scanner ← readSchema fuel line.1
              readLines fuel scanner value cfg
            else readLines fuel line.1 assigned.2 assigned.1

def CString.append (left right : CString) : CString where
  bytes := left.bytes ++ right.bytes
  nonNul := by
    intro byte member
    rcases List.mem_append.mp member with member | member
    · exact left.nonNul byte member
    · exact right.nonNul byte member

def publicPath (name : CString) (file : String) : CString :=
  ((CString.ofText "assets/public/").append name).append (.ofText file)

def fillDefaults (cfg : ConfigFields) : ConfigFields × Bool :=
  let cfg :=
    { cfg with
      order := if cfg.order = 0 ∨ 100 ≤ cfg.order then 20 else cfg.order
      schemaSize := if cfg.schemaSize = 0 then 128 else cfg.schemaSize }
  if cfg.name.bytes.length = 0 then (cfg, false)
  else
    ({ cfg with
        indexFile := publicPath cfg.name "/BTree.idx"
        dataFile := publicPath cfg.name "/BTree.dat"
        idxFreeRrnAddress :=
          if cfg.idxFreeRrnAddress.bytes.length = 0 then
            publicPath cfg.name "/idx_free_rrn.addr"
          else cfg.idxFreeRrnAddress
        dataFreeRrnAddress :=
          if cfg.dataFreeRrnAddress.bytes.length = 0 then
            publicPath cfg.name "/data_free_rrn.addr"
          else cfg.dataFreeRrnAddress }, true)

theorem fillDefaults_order (cfg : ConfigFields) :
    0 < (fillDefaults cfg).1.order.toNat ∧ (fillDefaults cfg).1.order.toNat < 100 := by
  have clamped : (fillDefaults cfg).1.order =
      if cfg.order = 0 ∨ 100 ≤ cfg.order then 20 else cfg.order := by
    rw [fillDefaults]
    dsimp only
    split <;> rfl
  rw [clamped]
  split_ifs with outside
  · decide
  · rw [not_or, ← UInt32.toNat_inj, UInt32.le_iff_toNat_le] at outside
    have hundred : (100 : UInt32).toNat = 100 := rfl
    have zero : (0 : UInt32).toNat = 0 := rfl
    omega

structure LineBuffers where
  key : CString
  value : List UInt8

/-- The buffer `cmd` takes "mkdir -p assets/public/" with the name behind it. -/
def FitsCommand (name : CString) : Prop := 23 + name.bytes.length < stringBufferSize

instance (name : CString) : Decidable (FitsCommand name) := inferInstanceAs (Decidable (_ < _))

/-- `read_btree_config` of a file with this content, or of none that opens; `closes` is what `fclose`
does. -/
def readBtreeConfig (fuel : Nat) (content : Option (List UInt8)) (closes : Bool)
    (buffers : LineBuffers) (cfg : ConfigFields) : Option (ConfigFields × Bool) :=
  match content with
  | none => some (cfg, false)
  | some content =>
      match readLines fuel { stream := .open_ content, key := buffers.key } buffers.value cfg with
      | none => none
      | some cfg =>
          if ¬closes then some (cfg, false)
          else if FitsCommand cfg.name then some (fillDefaults cfg)
          else none

end Gaveta
