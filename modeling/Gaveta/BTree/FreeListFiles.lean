import Gaveta.BTree.Pager
import Gaveta.Config.BtreeConfig

/-! Saving the lists of free record numbers and opening the tree again. -/

namespace Gaveta

abbrev FileSystem := CString → Option String

structure IoBuf where
  address : CString
  isOpen : Bool
  freeRrn : List Rrn

/-- `alloc_io_buf`, and once more `init_ll` for the index. -/
def allocIoBuf : IoBuf where
  address := .ofText ""
  isOpen := false
  freeRrn := []

/-- `write_u32_node` of an element of two bytes; `beyond` are the two bytes after it. -/
def writeU32Node (rrn : Rrn) (beyond : UInt16) : String :=
  toString (rrn.toNat + 65536 * beyond.toNat) ++ "\n"

/-- `export_ll_to_disk` with `write_u32_node`; `opens` is whether the path can be written. -/
def exportLl (files : FileSystem) (opens : Bool) (ll : List Rrn) (beyond : Nat → UInt16)
    (path : CString) : FileSystem × Bool :=
  if ll.isEmpty then (files, false)
  else if opens then
    let text := String.join (ll.zipIdx.map fun entry => writeU32Node entry.1 (beyond entry.2))
    (Function.update files path (some text), true)
  else (files, false)

/-- `load_list` on the list of an `io_buf`: that list after the call, and the result.  It reads from
disk only if the list is `NULL`, which its first test has excluded. -/
def loadList (i : List Rrn) (_s : CString) : List Rrn × Bool :=
  if i.isEmpty then
    -- `init_ll` sets the parameter, not the list of the `io_buf`
    (i, true)
  else (i, true)

/-- `create_index_file` and `create_data_file`; `creates` is whether a missing file can be created. -/
def createIoFile (files : FileSystem) (fileName : CString) (creates : Bool) (io : IoBuf) :
    FileSystem × IoBuf :=
  let io := { io with address := fileName }
  if io.isOpen then (files, io)
  else if (files fileName).isSome then (files, { io with isOpen := true })
  else if creates then (Function.update files fileName (some ""), { io with isOpen := true })
  else (files, io)

def createIndexFile (files : FileSystem) (cfg : ConfigFields) : Bool → IoBuf → FileSystem × IoBuf :=
  createIoFile files cfg.indexFile

def createDataFile (files : FileSystem) (cfg : ConfigFields) : Bool → IoBuf → FileSystem × IoBuf :=
  createIoFile files cfg.dataFile

def loadFile (files : FileSystem) (cfg : ConfigFields) (isData : Bool) (io : IoBuf) : IoBuf :=
  let fileName := if isData then cfg.dataFile else cfg.indexFile
  if io.isOpen then io
  else if (files fileName).isSome then
    -- the path of the tree's file, not the one of the saved list
    { address := fileName, isOpen := true, freeRrn := (loadList io.freeRrn fileName).1 }
  else { io with address := fileName }

def freeRrnAddress (cfg : ConfigFields) (isData : Bool) : CString :=
  if isData then cfg.dataFreeRrnAddress else cfg.idxFreeRrnAddress

/-- Opens a file of the tree in a new process, by way of the functions that create it if `creating`
says so. -/
def reopen (files : FileSystem) (cfg : ConfigFields) (isData : Bool) (creating : Option Bool) :
    IoBuf :=
  match creating with
  | none => loadFile files cfg isData allocIoBuf
  | some creates =>
      let created :=
        if isData then createDataFile files cfg creates allocIoBuf
        else createIndexFile files cfg creates allocIoBuf
      loadFile created.1 cfg isData created.2

theorem loadList_freeRrn (i : List Rrn) (s : CString) : (loadList i s).1 = i := by
  rw [loadList, ite_self]

theorem loadFile_freeRrn (files : FileSystem) (cfg : ConfigFields) (isData : Bool) (io : IoBuf) :
    (loadFile files cfg isData io).freeRrn = io.freeRrn := by
  rw [loadFile]
  generalize (if isData then cfg.dataFile else cfg.indexFile) = fileName
  split_ifs
  · rfl
  · exact loadList_freeRrn io.freeRrn fileName
  · rfl

theorem createIoFile_freeRrn (files : FileSystem) (fileName : CString) (creates : Bool)
    (io : IoBuf) : (createIoFile files fileName creates io).2.freeRrn = io.freeRrn := by
  rw [createIoFile]
  dsimp only
  split_ifs <;> rfl

theorem reopen_freeRrn (files : FileSystem) (cfg : ConfigFields) (isData : Bool)
    (creating : Option Bool) : (reopen files cfg isData creating).freeRrn = [] := by
  cases creating with
  | none => exact loadFile_freeRrn files cfg isData allocIoBuf
  | some creates =>
      rw [reopen, loadFile_freeRrn]
      cases isData
      · exact createIoFile_freeRrn files cfg.indexFile creates allocIoBuf
      · exact createIoFile_freeRrn files cfg.dataFile creates allocIoBuf

def SurvivesRestart (files : FileSystem) (opens : Bool) (ll : List Rrn) (beyond : Nat → UInt16)
    (cfg : ConfigFields) (isData : Bool) (creating : Option Bool) : Prop :=
  (reopen (exportLl files opens ll beyond (freeRrnAddress cfg isData)).1 cfg isData
    creating).freeRrn = ll

theorem survivesRestart_iff (files : FileSystem) (opens : Bool) (ll : List Rrn)
    (beyond : Nat → UInt16) (cfg : ConfigFields) (isData : Bool) (creating : Option Bool) :
    SurvivesRestart files opens ll beyond cfg isData creating ↔ ll = [] := by
  rw [SurvivesRestart, reopen_freeRrn]
  exact eq_comm

theorem saved_rrn_is_lost :
    ¬∀ files opens ll beyond cfg isData creating,
      SurvivesRestart files opens ll beyond cfg isData creating := by
  intro survives
  have kept := survives (fun _ => none) true [3] (fun _ => 0)
    (fillDefaults
      { name := .ofText "t", indexFile := .ofText "", idxFreeRrnAddress := .ofText "",
        dataFreeRrnAddress := .ofText "", dataFile := .ofText "", schemaSize := 0, order := 0,
        rootRrn := 0, headerSize := 0 }).1 false (some true)
  rw [SurvivesRestart, reopen_freeRrn] at kept
  cases kept

end Gaveta
