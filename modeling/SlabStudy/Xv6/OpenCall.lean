import SlabStudy.Xv6.InodePaths

/-!
# The call open

`create` and `sys_open` of `sysfile.c`, with the file table of `file.c` and the
descriptors of the calling process.  A log transaction is not modelled; what it
writes is on the disk when the call returns.
-/

namespace SlabStudy.Xv6

open Library

abbrev owronly : Nat := 0x001
abbrev ordwr : Nat := 0x002

namespace FsState

variable (devsw : Devsw)

/-- Change the copy of an inode that is locked, and update it on disk. -/
def setInode (s : FsState) (ip : Fin ninode) (copy : Dinode) : FsState :=
  s.unlock ip ⟨(s.icache ip).inum, copy, iupdate s.disk (s.icache ip).inum copy⟩

/-- `ilock` by a caller that holds the locks of `held`. -/
def ilockHeld (s : FsState) (held : List (Fin ninode)) (ip : Fin ninode) :
    Except DirStop FsState :=
  if ip ∈ held then .error .deadlock else below (s.ilock ip)

/-- The entries "." and ".." of a new directory. -/
def createDots (s : FsState) (dp ip : Fin ninode) : Except DirStop FsState := do
  let s := s.setInode dp { (s.icache dp).copy with nlink := short ((s.icache dp).copy.nlink + 1) }
  let (dot, s) ← s.dirlink devsw [dp, ip] ip (nameBytes ['.']) (s.icache ip).inum
  if dot < 0 then .error .createDots
  else
    let (dots, s) ← s.dirlink devsw [dp, ip] ip (nameBytes ['.', '.']) (s.icache dp).inum
    if dots < 0 then .error .createDots else .ok s

/-- The part of `create` behind `ialloc`. -/
def createNew (s : FsState) (dp : Fin ninode) (name : Name) (ip : Fin ninode) (type : InodeType)
    (major minor : Int) : Except DirStop FsState := do
  let s ← s.ilockHeld [dp] ip
  let s := s.setInode ip { (s.icache ip).copy with
    major := short major, minor := short minor, nlink := 1 }
  let s ← if type = .dir then s.createDots devsw dp ip else .ok s
  let (linked, s) ← s.dirlink devsw [dp, ip] dp (nameBytes name) (s.icache ip).inum
  if linked < 0 then .error .createDirlink else below (s.iput dp)

/-- The inode of a new path, or of an existing file if a file is asked for; it is locked. -/
def create (s : FsState) (cwd : Fin ninode) (path : List Char) (type : InodeType)
    (major minor : Int) : Except DirStop (Option (Fin ninode) × FsState) := do
  let (parent, s) ← s.namex devsw cwd path true
  match parent with
  | none => .ok (none, s)
  | some (dp, name) => do
      let s ← below (s.ilock dp)
      let (found, s) ← s.dirlookup devsw dp (nameBytes name)
      match found with
      | some (_, ip) => do
          let s ← below (s.iput dp)
          let s ← below (s.ilock ip)
          if type = .file ∧ (s.icache ip).copy.type = .file then .ok (some ip, s)
          else
            let s ← below (s.iput ip)
            .ok (none, s)
      | none => do
          let (ip, s) ← below (s.ialloc type)
          let s ← s.createNew devsw dp name ip type major minor
          .ok (some ip, s)

/-- The inode that `sys_open` opens, locked. -/
def openInode (s : FsState) (cwd : Fin ninode) (path : List Char) (omode : Nat) :
    Except DirStop (Option (Fin ninode) × FsState) :=
  if omode &&& ocreate ≠ 0 then s.create devsw cwd path .file 0 0
  else do
    let (found, s) ← s.namex devsw cwd path false
    match found with
    | none => .ok (none, s)
    | some (ip, _) => do
        let s ← below (s.ilock ip)
        if (s.icache ip).copy.type = .dir ∧ omode ≠ ordonly then
          let s ← below (s.iput ip)
          .ok (none, s)
        else .ok (some ip, s)

/-- The directory of the path exists, and the last name is not in it. -/
def Creates (s : FsState) (cwd : Fin ninode) (path : List Char) : Prop :=
  ∃ d name, s.disk.resolvePath true (s.pathStart cwd path) (pathElements path) = some (d, name) ∧
    s.disk.entry d name = none

end FsState

/-! ## file.c -/

/-- Open files per system. -/
abbrev nfile : Nat := 100

instance : NeZero nfile := ⟨by decide⟩

inductive FileType where
  | none
  | pipe
  | inode
  deriving DecidableEq, Repr

/-- `struct file`, but for its pipe. -/
structure File where
  type : FileType
  ref : Nat
  readable : Bool
  writable : Bool
  ip : Fin ninode
  off : Nat

/-- The file system and the files, as one process sees them. -/
structure OpenState where
  fs : FsState
  file : Fin nfile → File
  ofile : Fin nofile → Option (Fin nfile)
  cwd : Fin ninode

namespace OpenState

variable (devsw : Devsw)

def setFile (s : OpenState) (f : Fin nfile) (entry : File) : OpenState :=
  { s with file := Function.update s.file f entry }

/-- Allocate a file structure. -/
def filealloc (s : OpenState) : Option (Fin nfile × OpenState) :=
  ((List.finRange nfile).find? fun f => decide ((s.file f).ref = 0)).map fun f =>
    (f, s.setFile f { s.file f with ref := 1 })

/-- Allocate a file descriptor for the given file. -/
def fdalloc (s : OpenState) (f : Fin nfile) : Option (Fin nofile × OpenState) :=
  ((List.finRange nofile).find? fun fd => (s.ofile fd).isNone).map fun fd =>
    (fd, { s with ofile := Function.update s.ofile fd (some f) })

/-- Close a file; `pipeclose` touches no inode. -/
def fileclose (s : OpenState) (f : Fin nfile) : Except DirStop OpenState :=
  let ff := s.file f
  if ff.ref < 1 then .error .fileclose
  else if ff.ref - 1 > 0 then .ok (s.setFile f { ff with ref := ff.ref - 1 })
  else
    let s := s.setFile f { ff with ref := 0, type := .none }
    if ff.type = .inode then do
      let fs ← below (s.fs.iput ff.ip)
      .ok { s with fs := fs }
    else .ok s

/-- The part of `sys_open` behind the inode, which is locked. -/
def openFile (s : OpenState) (ip : Fin ninode) (omode : Nat) : Except DirStop (Int × OpenState) :=
  match s.filealloc with
  | none => do
      let fs ← below (s.fs.iput ip)
      .ok (-1, { s with fs := fs })
  | some (f, s) =>
      match s.fdalloc f with
      | none => do
          let s ← s.fileclose f
          let fs ← below (s.fs.iput ip)
          .ok (-1, { s with fs := fs })
      | some (fd, s) =>
          .ok (fd, s.setFile f { s.file f with
            type := .inode
            ip := ip
            off := 0
            readable := omode &&& owronly = 0
            writable := omode &&& owronly ≠ 0 ∨ omode &&& ordwr ≠ 0 })

/-- `sys_open`; the arguments are there if `argstr` and `argint` fetch them, `omode` as a number
without sign. -/
def sysOpen (s : OpenState) (args : Option (List Char × Nat)) : Except DirStop (Int × OpenState) :=
  match args with
  | none => .ok (-1, s)
  | some (path, omode) => do
      let (found, fs) ← s.fs.openInode devsw s.cwd path omode
      let s := { s with fs := fs }
      match found with
      | none => .ok (-1, s)
      | some ip => s.openFile ip omode

/-! ## What open changes -/

/-- The trees, the inodes, their contents and the free maps of two disks are the same. -/
structure SameFiles (d e : FsDisk) : Prop where
  entry : ∀ i name, e.entry i name = d.entry i name
  type : ∀ i, (e.dinode i).type = (d.dinode i).type
  nlink : ∀ i, (e.dinode i).nlink = (d.dinode i).nlink
  size : ∀ i, (e.dinode i).size = (d.dinode i).size
  content : ∀ i, e.content (e.dinode i) = d.content (d.dinode i)
  bit : e.bit = d.bit

/-- There is no free entry in the file table, or no free descriptor. -/
def TablesFull (s : OpenState) : Prop := (∀ f, (s.file f).ref ≠ 0) ∨ ∀ fd, s.ofile fd ≠ none

/-- A file would be created that cannot be opened. -/
def CreatesInVain (s : OpenState) (args : Option (List Char × Nat)) : Prop :=
  ∃ path omode, args = some (path, omode) ∧ omode &&& ocreate ≠ 0 ∧
    s.fs.Creates s.cwd path ∧ s.TablesFull

/-- A state between two calls. -/
structure Settled (s : OpenState) : Prop where
  consistent : s.fs.Consistent
  current : (s.fs.icache s.cwd).ref > 0
  /-- `fileclose` leaves a free entry without a type. -/
  idle : ∀ f, (s.file f).ref = 0 → (s.file f).type = .none

end OpenState

end SlabStudy.Xv6
