import Gaveta.Config.Termination

/-! What `read_btree_config` leaves as it finds it. -/

namespace Gaveta

def ReadsConfig (content : List UInt8) (buffers : LineBuffers) (cfg result : ConfigFields) : Prop :=
  ∃ fuel, readBtreeConfig fuel (some content) true buffers cfg = some (result, true)

/-- The fields that the tree reads are the same whatever was in the structure before. -/
def ConfigFromFile (content : List UInt8) (buffers : LineBuffers) : Prop :=
  ∀ cfg other result otherResult, ReadsConfig content buffers cfg result →
    ReadsConfig content buffers other otherResult → result = otherResult

def ConfigFields.setRootRrn (cfg : ConfigFields) (rrn : UInt16) : ConfigFields :=
  { cfg with rootRrn := rrn }

section

variable (cfg : ConfigFields) (rrn : UInt16)

theorem assignField_setRootRrn (value : List UInt8) (key : ConfigKey) :
    assignField (cfg.setRootRrn rrn) value key =
      ((assignField cfg value key).1.setRootRrn rrn, (assignField cfg value key).2) := by
  cases key <;> rfl

theorem assignField_rootRrn (value : List UInt8) (key : ConfigKey) :
    (assignField cfg value key).1.rootRrn = cfg.rootRrn := by
  cases key <;> rfl

theorem readLines_setRootRrn (fuel : Nat) (scanner : Scanner) (value : List UInt8) :
    readLines fuel scanner value (cfg.setRootRrn rrn) =
      (readLines fuel scanner value cfg).map fun result => result.setRootRrn rrn := by
  induction fuel generalizing scanner value cfg with
  | zero => rfl
  | succ fuel ih =>
      rw [readLines, readLines]
      cases scanLine scanner with
      | none => split <;> rfl
      | some line =>
          dsimp only
          split
          · rfl
          · split
            · cases readSchema fuel line.1 with
              | none => rfl
              | some after => exact ih cfg after _
            · rw [assignField_setRootRrn]
              exact ih _ _ _

theorem readLines_rootRrn {fuel : Nat} {scanner : Scanner} {value : List UInt8}
    {result : ConfigFields} (read : readLines fuel scanner value cfg = some result) :
    result.rootRrn = cfg.rootRrn := by
  induction fuel generalizing scanner value cfg with
  | zero => cases read
  | succ fuel ih =>
      rw [readLines] at read
      split at read
      · rw [← Option.some.inj read]
      · cases scanned : scanLine scanner with
        | none => simp [scanned] at read
        | some line =>
            simp only [scanned] at read
            split at read
            · obtain ⟨after, _, rest⟩ := Option.bind_eq_some_iff.mp read
              exact ih cfg rest
            · rw [ih _ read, assignField_rootRrn]

theorem fillDefaults_setRootRrn :
    fillDefaults (cfg.setRootRrn rrn) =
      ((fillDefaults cfg).1.setRootRrn rrn, (fillDefaults cfg).2) := by
  by_cases unnamed : cfg.name.bytes.length = 0
  · simp only [fillDefaults, ConfigFields.setRootRrn, unnamed, ↓reduceIte]
    rfl
  · simp only [fillDefaults, ConfigFields.setRootRrn, unnamed, ↓reduceIte]
    rfl

theorem fillDefaults_rootRrn : (fillDefaults cfg).1.rootRrn = cfg.rootRrn := by
  rw [fillDefaults]
  dsimp only
  split <;> rfl

end

variable {content : List UInt8} {buffers : LineBuffers} {cfg result : ConfigFields}

theorem readsConfig_iff {fuel : Nat} :
    readBtreeConfig fuel (some content) true buffers cfg = some (result, true) ↔
      ∃ read, readLines fuel (startScanner content buffers) buffers.value cfg = some read ∧
        FitsCommand read.name ∧ fillDefaults read = (result, true) := by
  rw [startScanner]
  simp only [readBtreeConfig]
  cases readLines fuel { stream := .open_ content, key := buffers.key } buffers.value cfg <;> simp

theorem ReadsConfig.setRootRrn (reads : ReadsConfig content buffers cfg result) (rrn : UInt16) :
    ReadsConfig content buffers (cfg.setRootRrn rrn) (result.setRootRrn rrn) := by
  obtain ⟨fuel, finished⟩ := reads
  obtain ⟨read, lines, fits, filled⟩ := readsConfig_iff.mp finished
  refine ⟨fuel, readsConfig_iff.mpr ⟨read.setRootRrn rrn, ?_, fits, ?_⟩⟩
  · rw [readLines_setRootRrn, lines, Option.map_some]
  · rw [fillDefaults_setRootRrn, filled]

theorem ReadsConfig.rootRrn (reads : ReadsConfig content buffers cfg result) :
    result.rootRrn = cfg.rootRrn := by
  obtain ⟨fuel, finished⟩ := reads
  obtain ⟨read, lines, _, filled⟩ := readsConfig_iff.mp finished
  have kept := fillDefaults_rootRrn read
  rw [filled] at kept
  rw [kept, readLines_rootRrn cfg lines]

/-- `root_rrn` is never assigned, so it has the value that it had before. -/
theorem config_never_from_file (reads : ReadsConfig content buffers cfg result) :
    ¬ConfigFromFile content buffers := by
  intro fromFile
  have same := fromFile cfg _ result _ reads (reads.setRootRrn (cfg.rootRrn + 1))
  have kept := reads.rootRrn
  rw [same] at kept
  have moved : cfg.rootRrn + 1 = cfg.rootRrn := kept
  exact absurd moved (by simp)

def shortConfig : List UInt8 :=
  [111, 114, 100, 101, 114, 58, 32, 55, 10, 98, 116, 114, 101, 101, 95, 110, 97, 109, 101, 58, 32,
    34, 116, 34, 10]

theorem config_never_from_file_short :
    ∃ result, ReadsConfig shortConfig noBuffers blankFields result ∧
      ¬ConfigFromFile shortConfig noBuffers := by
  have runs : ((readBtreeConfig 4 (some shortConfig) true noBuffers blankFields).map
      Prod.snd) = some true := by
    decide +kernel
  obtain ⟨⟨result, ok⟩, read, rfl⟩ := Option.map_eq_some_iff.mp runs
  have reads : ReadsConfig shortConfig noBuffers blankFields result := ⟨4, read⟩
  exact ⟨result, reads, config_never_from_file reads⟩

theorem short_config_keeps_root :
    ¬∀ cfg other result otherResult, ReadsConfig shortConfig noBuffers cfg result →
      ReadsConfig shortConfig noBuffers other otherResult →
        result.rootRrn = otherResult.rootRrn := by
  intro same
  have runs : ((readBtreeConfig 4 (some shortConfig) true noBuffers blankFields).map
      Prod.snd) = some true := by
    decide +kernel
  obtain ⟨⟨result, ok⟩, read, rfl⟩ := Option.map_eq_some_iff.mp runs
  have reads : ReadsConfig shortConfig noBuffers blankFields result := ⟨4, read⟩
  have equal : result.rootRrn = 1 := same _ _ _ _ reads (reads.setRootRrn 1)
  rw [reads.rootRrn] at equal
  exact absurd equal (by decide)

end Gaveta
