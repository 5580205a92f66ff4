import DBStream.ForStd.SortedMap
import DBStream.Native.ClusterLogLoad

/-!
# The cluster log

`clusterLog` of `cluster/clusterLog.cpp`.  The files that were made are a list, in which
`m_currentLogFile`, the values of `m_files` and `m_next` are places.  `append` calls itself without a
bound, so it takes fuel.
-/

namespace DBStream.Native.CLUSTER

structure ClusterLog where
  m_logIndex : LogIndexInfo
  m_commitLogIndex : LogIndexInfo
  m_currentLogFile : Nat
  m_files : List (LogIndexInfo × Nat)
  files : List LogFile

namespace ClusterLog

variable (l : ClusterLog) (cfg : LogConfig)

/-- `*m_currentLogFile`. -/
def current : Option LogFile := l.files[l.m_currentLogFile]?

/-- A store to a file. -/
def setFile (i : Nat) (f : LogFile) : ClusterLog := { l with files := l.files.set i f }

/-- `find`; `nullptr` is `some none`. -/
def find (logIndex : LogIndexInfo) : Option (Option Nat) :=
  if l.m_files = [] then some none
  else do
    let f ← l.current
    if f.m_beginLogIndex ≤ logIndex then return some l.m_currentLogFile
    else
      -- `lower_bound`
      match l.m_files.find? fun p => logIndex ≤ p.1 with
      | none => return none
      | some (_, i) =>
        let f ← l.files[i]?
        if f.m_beginLogIndex > logIndex then return none
        else return some i

/-- The error of `rollback` if there is no file to roll back to. -/
def notFound (logIndex : LogIndexInfo) : Option ErrorCode := do
  let i := match l.m_files with
    | [] => l.m_currentLogFile
    | (_, i) :: _ => i
  let f ← l.files[i]?
  if f.m_beginLogIndex > logIndex then return .rollbackTooEarlier else return .logIndexNotFound

/-- `rollback` deletes the files behind the current one.  The first `deleteFile` closes its file and
    fails: it removes `.idx`, and the index files are named `.index`. -/
def deleteFiles : Option (Option ErrorCode × ClusterLog) := do
  let f ← l.current
  match f.m_next with
  | none => return (none, l)
  | some i =>
    let f ← l.files[i]?
    let f ← f.close
    return (some .ioError, l.setFile i f)

/-- `rollback`: the status and the log. -/
def rollback (logIndex : LogIndexInfo) : Option (Option ErrorCode × ClusterLog) := do
  if l.m_commitLogIndex ≥ logIndex then return (some .rollbackCommited, l)
  else
    match ← l.find logIndex with
    | none => return (some (← l.notFound logIndex), l)
    | some i =>
      match ← { l with m_currentLogFile := i }.deleteFiles with
      | (some code, l) => return (some code, l)
      | (none, l) =>
        let f ← l.current
        match ← f.rollback logIndex with
        | (some code, f) => return (some code, l.setFile i f)
        | (none, f) =>
          return (none, { l.setFile i { f with m_next := none } with
            m_files := l.m_files.filter fun p => p.1 ≠ f.m_logIndex })

/-- `createNewFile`: the status and the log.  The name of a file follows from its id. -/
def createNewFile (logIndex : LogIndexInfo) : Option (Option ErrorCode × ClusterLog) := do
  let f ← l.current
  let fileId := f.m_fileId + 1
  if l.files.any fun f => f.m_fileId = fileId then return (some .ioError, l)
  else
    let file := LogFile.create fileId f.m_logIndex logIndex
    let f ← { f with m_next := some l.files.length }.close
    return (none, { l.setFile l.m_currentLogFile f with
      files := l.files.set l.m_currentLogFile f ++ [file]
      m_files := SortedEntries.insert logIndex l.files.length l.m_files
      m_currentLogFile := l.files.length })

/-- `append` after the current file has stored the entry. -/
def accept (logEntry : LogEntryRpcBase) : Option ErrorCode × ClusterLog :=
  if logEntry.logIndex.term > l.m_logIndex.term ∧
      logEntry.logIndex.term ≠ l.m_logIndex.term + 1 then (some .prevNotMatch, l)
  else if logEntry.leaderCommitIndex > l.m_commitLogIndex.logIndex then
    (none, { l with m_commitLogIndex := { l.m_commitLogIndex with
      logIndex := if l.m_logIndex.logIndex > logEntry.leaderCommitIndex then
        logEntry.leaderCommitIndex else l.m_logIndex.logIndex } })
  else (none, l)

/-- The case `errorCode::full` of `append`, before it calls itself. -/
def rotate (f : LogFile) (logIndex : LogIndexInfo) : Option (Option ErrorCode × ClusterLog) := do
  match ← f.finish with
  | .error code => return (some code, l)
  | .ok f => (l.setFile l.m_currentLogFile f).createNewFile logIndex

/-- `append`: the status and the log. -/
def append : Nat → ClusterLog → LogEntryRpcBase → Option (Option ErrorCode × ClusterLog)
  | 0, _, _ => none
  | fuel + 1, l, logEntry => do
    let f ← l.current
    match ← f.append cfg logEntry with
    | .ok f => return (l.setFile l.m_currentLogFile f).accept logEntry
    | .error .full =>
      match ← l.rotate f logEntry.logIndex with
      | (some code, l) => return (some code, l)
      | (none, l) => append fuel l logEntry
    | .error .rollback =>
      match ← l.rollback logEntry.logIndex with
      | (some code, l) => return (some code, l)
      | (none, l) => append fuel l logEntry
    | .error code => return (some code, l)

/-- The files of `m_files` are closed. -/
def closeFiles (files : List LogFile) : List (LogIndexInfo × Nat) → Option (List LogFile)
  | [] => some files
  | (_, i) :: rest => do
    let f ← files[i]?
    let f ← f.close
    closeFiles (files.set i f) rest

/-- `close`: the files as they are on disk.  What `writeCurrentBlock` returns is ignored. -/
def close : Option (List LogFile) := do
  let f ← l.current
  let f ← match ← f.writeCurrentBlock with
    | .error _ => some f
    | .ok f => some f
  let f ← f.close
  closeFiles (l.files.set l.m_currentLogFile f) l.m_files

/-! ## Names -/

/-- The name of a data file. -/
def fileName (logFileNamePrefix : List Char) (fileId : Nat) : List Char :=
  logFileNamePrefix ++ ['.'] ++ Nat.toDigits 10 fileId ++ ['.', 'l', 'o', 'g']

def INDEX_NAME : List Char := ['.', 'i', 'n', 'd', 'e', 'x']

/-- The names and contents of the files of a log. -/
def directory (logFileNamePrefix : List Char) (files : List LogFile) :
    List (List Char × List UInt8) :=
  files.flatMap fun f =>
    let name := fileName logFileNamePrefix f.m_fileId
    (name, f.file) :: f.indexFile.toList.map fun d => (name ++ INDEX_NAME, d)

/-- A decimal digit. -/
def isDigit (ch : Char) : Bool := '0' ≤ ch && ch ≤ '9'

/-- `init` reads the id of a file from its name. -/
def parseName (logFileNamePrefix name : List Char) : Option Nat :=
  if name.take logFileNamePrefix.length ≠ logFileNamePrefix then none
  else
    match name.drop logFileNamePrefix.length with
    | '.' :: pos =>
      let id := (pos.takeWhile isDigit).foldl
        (fun id ch => (id * 10 + ch.toNat - '0'.toNat) % 2 ^ 64) 0
      if pos.dropWhile isDigit = [] then some id else none
    | _ => none

/-- The files that `init` finds, by id. -/
def findFiles (logFileNamePrefix : List Char) (dir : List (List Char × List UInt8)) :
    List (Nat × List Char) :=
  dir.foldl (fun files p =>
    match parseName logFileNamePrefix p.1 with
    | none => files
    | some id => SortedEntries.insert id p.1 files) []

/-- The content of a file of a directory. -/
def readDir (dir : List (List Char × List UInt8)) (name : List Char) : Option (List UInt8) :=
  (dir.find? fun p => p.1 = name).map (·.2)

/-! ## Starting -/

/-- `init` reads the heads of the files it has found. -/
def openFiles (dir : List (List Char × List UInt8)) (prev : Nat) (l : ClusterLog) :
    List (Nat × List Char) → Option (Status ClusterLog)
  | [] => some (.ok l)
  | (id, name) :: rest =>
    if id ≠ (prev + 1) % 2 ^ 64 ∧ prev ≠ 0 then some (.error .missingLogFile)
    else do
      let file ← readDir dir name
      match (LogFile.new id file (readDir dir (name ++ INDEX_NAME))).readMetaInfo with
      | .error code => return .error code
      | .ok f =>
        let l := { l with
          files := l.files ++ [f]
          m_files := SortedEntries.insert f.m_beginLogIndex l.files.length l.m_files }
        openFiles dir id l rest

/-- A log without files, as the constructor makes it. -/
def empty : ClusterLog where
  m_logIndex := ⟨0, 0⟩
  m_commitLogIndex := ⟨0, 0⟩
  m_currentLogFile := 0
  m_files := []
  files := []

/-- A log with its first file. -/
def first : ClusterLog :=
  { empty with
    m_files := [(⟨1, 1⟩, 0)]
    files := [LogFile.create 1 ⟨1, 0⟩ ⟨1, 1⟩] }

/-- `init` recovers the last file. -/
def recoverLast (junk : Nat → UInt8) (fuel : Nat) (l : ClusterLog) : Option (Status ClusterLog) := do
  let (_, i) ← l.m_files.getLast?
  let f ← l.files[i]?
  dsReturnIfFailed (f.recovery cfg junk fuel) fun f =>
    some (.ok { l.setFile i f with m_currentLogFile := i })

def init (logFileNamePrefix : List Char) (dir : List (List Char × List UInt8))
    (lastCommited : LogIndexInfo) (junk : Nat → UInt8) (fuel : Nat) : Option (Status ClusterLog) :=
  let found := findFiles logFileNamePrefix dir
  if found ≠ [] then
    dsReturnIfFailed (openFiles dir 0 empty found) (recoverLast cfg junk fuel)
  else if lastCommited = ⟨0, 0⟩ then
    if (readDir dir (fileName logFileNamePrefix 1)).isSome then some (.error .ioError)
    else some (.ok first)
  else some (.error .missingLogFile)

end ClusterLog

end DBStream.Native.CLUSTER
