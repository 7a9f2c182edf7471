import Tgrep.Data.CrashLogic
import Tgrep.Data.FinMap
import Mathlib.Data.Prod.Lex

/-!
# Publishing staged index files

An index directory, the backups of the publications into it, and the programs that change them:
publishing staged files, rolling back, recovering an interrupted publication, and removing retired
backups. Every rename, removal and creation is one action.

## Main definitions

* `Publish.FileName`, `Publish.stagedPublishOrder`: the index files, in publication order.
* `Publish.Disk`, `Publish.Action`, `Action.apply`: the directories and the atomic actions.
* `Publish.moveStagedFiles`, `Publish.rollback`, `Publish.publishStagedIndex`: publication.
* `Publish.recoverPending`, `Publish.cleanupRetired`: recovery and the removal of backups.

## Implementation notes

Only ordinary files and directories occur, and a backup directory holds nothing but index files
and records. `Disk.created` is a history variable: the commit markers that were ever created.
Whether the reader of a published generation opens is an input of the publication.
-/

namespace Tgrep

namespace Publish

open Crash (Prog Outcome)

/-! ### Directories -/

/-- The files of an index. -/
inductive FileName where
  | indexBin
  | lookupBin
  | filesBin
  | extraPaths
  | filestamps
  | metaJson
  deriving DecidableEq

/-- The name of a file. -/
def FileName.text : FileName → String
  | indexBin => "index.bin"
  | lookupBin => "lookup.bin"
  | filesBin => "files.bin"
  | extraPaths => "files-extra.bin"
  | filestamps => "filestamps.json"
  | metaJson => "meta.json"

/-- The core files of an index. -/
def coreIndexFileNames : List FileName := [.indexBin, .lookupBin, .filesBin, .extraPaths]

/-- The order of publication: the core files, the evidence, and `meta.json` last. -/
def stagedPublishOrder : List FileName := coreIndexFileNames ++ [.filestamps] ++ [.metaJson]

/-- The contents of the index files of a directory. -/
abbrev Files (α : Type) := FileName → Option α

/-- What a publication record holds: text that does not parse, or a record. -/
inductive RecordFile where
  | malformed
  | record (version : ℕ) (originalFiles : List String)
  deriving DecidableEq

/-- A backup directory. -/
structure Generation (α : Type) where
  /-- The files saved in it. -/
  saved : Files α
  /-- `publication.json`. -/
  record : Option RecordFile
  /-- `publication.json.tmp`. -/
  temp : Option RecordFile

/-- The process and the sequence number in the name of a backup. -/
abbrev GenerationId := ℕ ×ₗ ℕ

/-- An index directory, a staging directory, and the backups in `.retired`. -/
structure Disk (α : Type) where
  /-- The index directory. -/
  target : Files α
  /-- The staging directory. -/
  staging : Files α
  /-- The directories `generation-<id>`. -/
  generations : FinMap GenerationId (Generation α)
  /-- The files `committed-<id>`. -/
  committed : Finset GenerationId
  /-- The commit markers that were ever created. -/
  created : Finset GenerationId

variable {α : Type}

/-- Set the content of a file. -/
def Files.set (files : Files α) (name : FileName) (content : Option α) : Files α :=
  fun n => if n = name then content else files n

@[simp] lemma Files.set_self (files : Files α) (name : FileName) (content : Option α) :
    files.set name content name = content := by
  simp [Files.set]

lemma Files.set_of_ne (files : Files α) {name n : FileName} (content : Option α) (h : n ≠ name) :
    files.set name content n = files n := by
  simp [Files.set, h]

/-- The files saved in a backup, none if there is no such backup. -/
def Disk.savedIn (s : Disk α) (id : GenerationId) : Files α :=
  fun n => (s.generations.get? id).bind fun g => g.saved n

/-- The record of a backup, if there is one. -/
def Disk.recordOf (s : Disk α) (id : GenerationId) : Option RecordFile :=
  (s.generations.get? id).bind Generation.record

/-- Replace a backup directory. -/
def Disk.setGeneration (s : Disk α) (id : GenerationId) (g : Generation α) : Disk α :=
  { s with generations := s.generations.insert id g }

/-! ### Actions -/

/-- The atomic actions. -/
inductive Action where
  /-- Create the directory `generation-<id>`. -/
  | createGeneration (id : GenerationId)
  /-- Create a new `publication.json.tmp`. -/
  | createRecord (id : GenerationId)
  /-- Write it. -/
  | writeRecord (id : GenerationId) (originalFiles : List String)
  /-- Rename it to `publication.json`. -/
  | renameRecord (id : GenerationId)
  /-- Rename an index file into the backup. -/
  | backUp (id : GenerationId) (name : FileName)
  /-- Flush a staged file. -/
  | syncStaged (name : FileName)
  /-- Rename a staged file into the index directory. -/
  | publish (name : FileName)
  /-- Flush the index directory's entries. -/
  | syncTarget
  /-- Remove an index file. -/
  | removeTarget (name : FileName)
  /-- Rename a saved file back into the index directory. -/
  | restore (id : GenerationId) (name : FileName)
  /-- Remove `publication.json`. -/
  | removeRecord (id : GenerationId)
  /-- Remove `publication.json.tmp`. -/
  | removeRecordTemp (id : GenerationId)
  /-- Remove a saved file. -/
  | removeSaved (id : GenerationId) (name : FileName)
  /-- Remove an empty backup directory. -/
  | removeGeneration (id : GenerationId)
  /-- Create a new `committed-<id>`. -/
  | createMarker (id : GenerationId)
  /-- Remove `committed-<id>`. -/
  | removeMarker (id : GenerationId)

/-- A change of a backup directory, if it exists and the change can be done. -/
def Disk.onGeneration (s : Disk α) (id : GenerationId)
    (f : Generation α → Option (Generation α)) : Option (Disk α) :=
  (s.generations.get? id).bind fun g => (f g).map fun g' => s.setGeneration id g'

/-- The effect of an action, unless it cannot be done. -/
def Action.apply (action : Action) (s : Disk α) : Option (Disk α) :=
  match action with
  | createGeneration id =>
    if s.generations.contains id then none
    else some (s.setGeneration id ⟨fun _ => none, none, none⟩)
  | createRecord id => s.onGeneration id fun g =>
    if g.temp.isSome then none else some { g with temp := some .malformed }
  | writeRecord id originalFiles => s.onGeneration id fun g =>
    if g.temp.isSome then some { g with temp := some (.record 1 originalFiles) } else none
  | renameRecord id => s.onGeneration id fun g =>
    g.temp.map fun record => { g with record := some record, temp := none }
  | backUp id name => (s.target name).bind fun content => s.onGeneration id
      (fun g => some { g with saved := Files.set g.saved name (some content) }) |>.map
      fun s' => { s' with target := Files.set s.target name none }
  | syncStaged name => if (s.staging name).isSome then some s else none
  | publish name => (s.staging name).map fun content =>
    { s with target := Files.set s.target name (some content),
             staging := Files.set s.staging name none }
  | syncTarget => some s
  | removeTarget name =>
    if (s.target name).isSome then some { s with target := Files.set s.target name none } else none
  | restore id name => (s.generations.get? id).bind fun g => (g.saved name).map fun content =>
    { s.setGeneration id { g with saved := Files.set g.saved name none } with
      target := Files.set s.target name (some content) }
  | removeRecord id => s.onGeneration id fun g =>
    if g.record.isSome then some { g with record := none } else none
  | removeRecordTemp id => s.onGeneration id fun g =>
    if g.temp.isSome then some { g with temp := none } else none
  | removeSaved id name => s.onGeneration id fun g =>
    if (g.saved name).isSome then some { g with saved := Files.set g.saved name none } else none
  | removeGeneration id => (s.generations.get? id).bind fun g =>
    if stagedPublishOrder.all (fun name => (g.saved name).isNone) && g.record.isNone &&
        g.temp.isNone then
      some { s with generations := s.generations.erase id }
    else none
  | createMarker id =>
    if id ∈ s.committed then none
    else some { s with committed := insert id s.committed, created := insert id s.created }
  | removeMarker id =>
    if id ∈ s.committed then some { s with committed := s.committed.erase id } else none

/-- A program on the directories. -/
abbrev DiskProg (α ρ : Type) := Prog (Disk α) Action ρ

/-! ### Publication -/

/-- A publication under way: its backup, and the files backed up and published, in order. -/
structure StagedFileMove where
  backup : GenerationId
  backedUp : List FileName
  published : List FileName

/-- Create a backup directory under the first of some names that is not taken. -/
def createBackup : List GenerationId → DiskProg α (Option GenerationId)
  | [] => pure none
  | id :: ids => do
    let s ← Prog.read
    if id ∈ s.committed then createBackup ids
    else
      match ← Prog.perform (.createGeneration id) with
      | .done => pure (some id)
      | .refused => createBackup ids
      | .failed => pure none

/-- The names of the index files of a directory. -/
def originalFiles (files : Files α) : List String :=
  (stagedPublishOrder.filter fun name => (files name).isSome).map FileName.text

/-- Record which index files there are. -/
def recordOriginalFiles (id : GenerationId) : DiskProg α Bool := do
  let s ← Prog.read
  match ← Prog.perform (.createRecord id) with
  | .done =>
    match ← Prog.perform (.writeRecord id (originalFiles s.target)) with
    | .done =>
      match ← Prog.perform (.renameRecord id) with
      | .done => pure true
      | _ => pure false
    | _ => pure false
  | _ => pure false

/-- Remove published files. The result is the files that could not be removed. -/
def removePublished : List FileName → DiskProg α (List FileName)
  | [] => pure []
  | name :: names => do
    let outcome ← Prog.perform (.removeTarget name)
    let pending ← removePublished names
    if outcome = .failed then pure (name :: pending) else pure pending

/-- Restore saved files, but not over published files that could not be removed. The result is the
files that are still saved, and whether a rename failed. -/
def restoreBackups (id : GenerationId) (published : List FileName) :
    List FileName → DiskProg α (List FileName × Bool)
  | [] => pure ([], false)
  | name :: names => do
    if name ∈ published then
      let (pending, failed) ← restoreBackups id published names
      pure (name :: pending, failed)
    else
      let outcome ← Prog.perform (.restore id name)
      let (pending, failed) ← restoreBackups id published names
      if outcome = .failed then pure (name :: pending, true) else pure (pending, failed)

/-- Remove the record of a backup. The result is whether that succeeded. -/
def removeRecord (id : GenerationId) : DiskProg α Bool := do
  let outcome ← Prog.perform (.removeRecord id)
  if outcome = .failed then pure false
  else
    let outcome ← Prog.perform (.removeRecordTemp id)
    pure (decide (outcome ≠ .failed))

/-- Undo a publication. The result is whether that succeeded. -/
def rollback (m : StagedFileMove) : DiskProg α Bool := do
  let pending ← removePublished m.published.reverse
  let (_, failed) ← restoreBackups m.backup pending m.backedUp.reverse
  if failed || !pending.isEmpty then pure false
  else
    let removed ← removeRecord m.backup
    if removed then
      let _ ← Prog.perform (.removeGeneration m.backup)
      pure true
    else pure false

/-- Withdraw files before any core file is replaced. -/
def withdraw : List FileName → StagedFileMove → DiskProg α (Except StagedFileMove StagedFileMove)
  | [], m => pure (.ok m)
  | name :: names, m => do
    let s ← Prog.read
    if (s.target name).isSome then
      match ← Prog.perform (.backUp m.backup name) with
      | .done => withdraw names { m with backedUp := m.backedUp ++ [name] }
      | _ => pure (.error m)
    else withdraw names m

/-- Flush a staged file and rename it into the index directory. The result is whether that
succeeded. -/
def publishStagedFile (name : FileName) : DiskProg α Bool := do
  match ← Prog.perform (.syncStaged name) with
  | .done =>
    match ← Prog.perform (.publish name) with
    | .done =>
      match ← Prog.perform .syncTarget with
      | .done => pure true
      | _ => pure false
    | _ => pure false
  | _ => pure false

/-- Back up a core file or `meta.json` that is there. -/
def backUpTarget (name : FileName) (m : StagedFileMove) :
    DiskProg α (Except StagedFileMove StagedFileMove) := do
  let s ← Prog.read
  if name ≠ .filestamps ∧ (s.target name).isSome then
    match ← Prog.perform (.backUp m.backup name) with
    | .done => pure (.ok { m with backedUp := m.backedUp ++ [name] })
    | _ => pure (.error m)
  else pure (.ok m)

/-- Publish the staged files in order. -/
def publishAll : List FileName → StagedFileMove →
    DiskProg α (Except StagedFileMove StagedFileMove)
  | [], m => pure (.ok m)
  | name :: names, m => do
    let s ← Prog.read
    if (s.staging name).isNone then publishAll names m
    else
      match ← backUpTarget name m with
      | .error m => pure (.error m)
      | .ok m =>
        let published ← publishStagedFile name
        if published then publishAll names { m with published := m.published ++ [name] }
        else pure (.error m)

/-- What became of a publication. -/
inductive PublishStatus where
  | published
  | failed
  | rollbackFailed
  deriving DecidableEq

/-- Give up a publication: what was moved is rolled back. -/
def fail (m : StagedFileMove) : DiskProg α PublishStatus := do
  let done ← rollback m
  pure (if done then .failed else .rollbackFailed)

/-- Move the staged files into the index directory. -/
def moveStagedFiles (ids : List GenerationId) :
    DiskProg α (Except PublishStatus StagedFileMove) := do
  match ← createBackup ids with
  | none => pure (.error .failed)
  | some id =>
    let recorded ← recordOriginalFiles id
    if recorded then
      match ← withdraw [.filestamps, .metaJson] ⟨id, [], []⟩ with
      | .error m => .error <$> fail m
      | .ok m =>
        match ← publishAll stagedPublishOrder m with
        | .error m => .error <$> fail m
        | .ok m => pure (.ok m)
    else .error <$> fail ⟨id, [], []⟩

/-! ### Retired backups -/

/-- Remove the files of a backup. The result is whether that succeeded. -/
def removeSavedFiles (id : GenerationId) : List FileName → DiskProg α Bool
  | [] => pure true
  | name :: names => do
    let outcome ← Prog.perform (.removeSaved id name)
    if outcome = .failed then pure false else removeSavedFiles id names

/-- Remove a backup. The result is whether it is gone. -/
def removeGeneration (id : GenerationId) : DiskProg α Bool := do
  let s ← Prog.read
  if s.generations.contains id then
    let files ← removeSavedFiles id stagedPublishOrder
    if files then
      let record ← removeRecord id
      if record then
        let outcome ← Prog.perform (.removeGeneration id)
        pure (decide (outcome = .done))
      else pure false
    else pure false
  else pure true

/-- Remove committed backups, each with its marker at last. -/
def cleanupMarkers : List GenerationId → DiskProg α Unit
  | [] => pure ()
  | id :: ids => do
    let gone ← removeGeneration id
    if gone then
      let _ ← Prog.perform (.removeMarker id)
      cleanupMarkers ids
    else cleanupMarkers ids

/-- Remove the committed backups that there are. -/
def cleanupRetired : DiskProg α Unit := do
  let s ← Prog.read
  cleanupMarkers (s.committed.sort (· ≤ ·))

/-- Publish a staged index. `valid` says whether the reader of the published generation opens. -/
def publishStagedIndex (ids : List GenerationId) (valid : Bool) : DiskProg α PublishStatus := do
  match ← moveStagedFiles ids with
  | .error status => pure status
  | .ok m =>
    if valid then
      match ← Prog.perform (.createMarker m.backup) with
      | .done =>
        cleanupRetired
        pure .published
      | _ => fail m
    else fail m

/-! ### Recovery -/

/-- Why a recovery stops. -/
inductive RecoverError where
  | unreadableRecord
  | invalidRecord
  | multiplePublications
  | unrecordedFile
  | missingFile (name : FileName)
  | io
  deriving DecidableEq

/-- Whether a record is of the known version and names index files, each once. -/
def validRecord (version : ℕ) (originalFiles : List String) : Bool :=
  decide (version = 1) && (originalFiles.all fun name =>
    stagedPublishOrder.any fun allowed => decide (allowed.text = name)) &&
    decide originalFiles.Nodup

/-- The backups with a record that are not committed. -/
def pendingRecords (committed : Finset GenerationId) : List (GenerationId × Generation α) →
    Except RecoverError (List (GenerationId × List String))
  | [] => .ok []
  | (id, g) :: backups =>
    if id ∈ committed then pendingRecords committed backups
    else
      match g.record with
      | none => pendingRecords committed backups
      | some .malformed => .error .unreadableRecord
      | some (.record version originalFiles) =>
        if validRecord version originalFiles then
          (pendingRecords committed backups).map fun pending => (id, originalFiles) :: pending
        else .error .invalidRecord

/-- The pending publications of the directory. -/
def Disk.pending (s : Disk α) : Except RecoverError (List (GenerationId × List String)) :=
  pendingRecords s.committed s.generations.toList

/-- Remove an index file that is there. -/
def removeIfThere (name : FileName) : DiskProg α Bool := do
  let s ← Prog.read
  if (s.target name).isSome then
    let outcome ← Prog.perform (.removeTarget name)
    pure (decide (outcome = .done))
  else pure true

/-- Bring back the original files, one after the other. -/
def recoverFiles (id : GenerationId) (original : List String) :
    List FileName → DiskProg α (Except RecoverError Unit)
  | [] => pure (.ok ())
  | name :: names => do
    let s ← Prog.read
    if (s.savedIn id name).isSome then
      if name.text ∈ original then
        let removed ← removeIfThere name
        if removed then
          match ← Prog.perform (.restore id name) with
          | .done => recoverFiles id original names
          | _ => pure (.error .io)
        else pure (.error .io)
      else pure (.error .unrecordedFile)
    else if name.text ∈ original then
      if (s.target name).isSome then recoverFiles id original names
      else pure (.error (.missingFile name))
    else
      let removed ← removeIfThere name
      if removed then recoverFiles id original names else pure (.error .io)

/-- Recover one pending publication. -/
def recoverPublication (id : GenerationId) (original : List String) :
    DiskProg α (Except RecoverError Unit) := do
  match ← recoverFiles id original stagedPublishOrder with
  | .error e => pure (.error e)
  | .ok () =>
    match ← Prog.perform (.removeRecord id) with
    | .done =>
      let _ ← Prog.perform (.removeGeneration id)
      pure (.ok ())
    | _ => pure (.error .io)

/-- Restore an interrupted publication. -/
def recoverPending : DiskProg α (Except RecoverError Unit) := do
  let s ← Prog.read
  match s.pending with
  | .error e => pure (.error e)
  | .ok [] => pure (.ok ())
  | .ok [(id, original)] => recoverPublication id original
  | .ok _ => pure (.error .multiplePublications)

end Publish

end Tgrep
