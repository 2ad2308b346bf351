import SlabStudy.Xv6.InodeCache
import SlabStudy.Xv6.Machine

/-!
# Directories, path names and the calls on them

The directory layer of `fs.c` (`dirlookup`, `dirlink`, `namex`), the file
system calls of `sysfile.c`, and what `exit` and `exec` do to inodes.  A
directory is seen as its sequence of `struct dirent`, the inode cache as the
count of references to each inode.  An inode is written through to disk after
every change, so one copy of it stands for the cached and the on-disk one.
A call runs to its end before the next one starts.
-/

namespace SlabStudy.Xv6

/-! ## fs.h and fcntl.h -/

/-- Root i-number. -/
abbrev rootino : Nat := 1
/-- Length of a name in a directory entry. -/
abbrev dirsiz : Nat := 14
/-- Entries of the largest directory, `MAXFILE * BSIZE / sizeof(struct dirent)`. -/
abbrev maxdirent : Nat := maxfile * bsize / 16
abbrev ordonly : Nat := 0x000
abbrev ocreate : Nat := 0x200

/-- Names and paths are the characters in front of the terminating zero. -/
abbrev Name : Type := List Char

/-- `struct dirent`; `inum` is 0 in an empty entry. -/
structure Dirent where
  inum : Nat
  name : Name
  deriving DecidableEq, Repr

/-- An inode, with its content if it is a directory. -/
structure Node where
  type : InodeType
  major : Int
  minor : Int
  nlink : Int
  entries : List Dirent

/-- A value stored in a `short`. -/
def short (n : Int) : Int := n.bmod 65536

/-- The inodes of the disk. -/
structure Image where
  ninodes : Nat
  node : Nat → Node

/-- The file system as the calls see it. -/
structure Fs (P : Type) extends Image where
  /-- References to the entry of an inode in the inode cache. -/
  ref : Nat → Nat
  /-- The entry has been read from disk. -/
  valid : Nat → Bool
  /-- The sleep-locks that the running call holds. -/
  locked : Nat → Bool
  cwd : P → Option Nat
  /-- The inode of each open file; every file is open in one descriptor. -/
  ofile : P → Fin nofile → Option Nat

/-- How a call can end other than by returning. -/
inductive Fault where
  /-- `panic("iget: no inodes")` -/
  | noInodes
  /-- `panic("ialloc: no inodes")` -/
  | noDiskInodes
  /-- `panic("ilock")` -/
  | ilock
  /-- `panic("ilock: no type")` -/
  | noType
  /-- `panic("iunlock")` -/
  | iunlock
  /-- `panic("dirlookup not DIR")` -/
  | notDir
  /-- `panic("dirlink")` -/
  | dirlink
  /-- `panic("create dots")` -/
  | createDots
  /-- `panic("create: dirlink")` -/
  | createDirlink
  /-- `panic("unlink: nlink < 1")` -/
  | unlink
  /-- `acquiresleep` on the lock of this inode, which the caller holds. -/
  | deadlock (inum : Nat)
  /-- A process without current directory resolves a path. -/
  | noCwd
  deriving DecidableEq, Repr

/-! ## Directory content -/

/-- Both names are the same up to the length of a name on disk. -/
def namecmp (s t : Name) : Bool := s.take dirsiz == t.take dirsiz

namespace Node

/-- Entry `k`. -/
def entry (n : Node) (k : Nat) : Dirent := n.entries.getD k ⟨0, []⟩

/-- The first entry for `name`. -/
def lookup (n : Node) (name : Name) : Option Nat :=
  n.entries.findIdx? fun de => de.inum != 0 && namecmp name de.name

/-- The first empty entry, else the end of the directory. -/
def vacant (n : Node) : Nat :=
  (n.entries.findIdx? fun de => de.inum == 0).getD n.entries.length

/-- Write entry `k`, which may be the one behind the last. -/
def write (n : Node) (k : Nat) (de : Dirent) : Node :=
  { n with entries := n.entries.take k ++ de :: n.entries.drop (k + 1) }

/-- Is the directory empty except for "." and ".." ? -/
def isdirempty (n : Node) : Bool := (n.entries.drop 2).all fun de => de.inum == 0

end Node

namespace Fs

variable {P : Type}

def setNode (s : Fs P) (i : Nat) (n : Node) : Fs P :=
  { s with node := Function.update s.node i n }

/-- `ip->nlink += by`, with the `iupdate` that follows. -/
def addLink (s : Fs P) (i : Nat) (n : Int) : Fs P :=
  s.setNode i { s.node i with nlink := short ((s.node i).nlink + n) }

/-! ## The inode cache -/

/-- The inodes that have an entry in the cache. -/
def active (s : Fs P) : Nat := ((List.range s.ninodes).filter fun i => decide (0 < s.ref i)).length

def iget (s : Fs P) (i : Nat) : Except Fault (Fs P) :=
  if 0 < s.ref i then .ok { s with ref := Function.update s.ref i (s.ref i + 1) }
  else if s.active < ninode then
    -- recycle an inode cache entry
    .ok { s with
      ref := Function.update s.ref i 1
      valid := Function.update s.valid i false }
  else .error .noInodes

def idup (s : Fs P) (i : Nat) : Fs P :=
  { s with ref := Function.update s.ref i (s.ref i + 1) }

def ilock (s : Fs P) (i : Nat) : Except Fault (Fs P) :=
  if s.ref i < 1 then .error .ilock
  else if s.locked i then .error (.deadlock i)
  else if ¬ s.valid i ∧ (s.node i).type = .free then .error .noType
  else .ok { s with
    valid := Function.update s.valid i true
    locked := Function.update s.locked i true }

def iunlock (s : Fs P) (i : Nat) : Except Fault (Fs P) :=
  if ¬ s.locked i ∨ s.ref i < 1 then .error .iunlock
  else .ok { s with locked := Function.update s.locked i false }

/-- Drop a reference; free the inode if it has no links and no other references. -/
def iput (s : Fs P) (i : Nat) : Except Fault (Fs P) :=
  if s.locked i then .error (.deadlock i)
  else
    let s := if s.valid i ∧ (s.node i).nlink = 0 ∧ s.ref i = 1 then
        s.setNode i { s.node i with type := .free, entries := [] }
      else s
    -- an entry without references is recycled, and read again
    .ok { s with
      ref := Function.update s.ref i (s.ref i - 1)
      valid := Function.update s.valid i (s.valid i && decide (1 < s.ref i)) }

def iunlockput (s : Fs P) (i : Nat) : Except Fault (Fs P) := do
  let s ← s.iunlock i
  s.iput i

def ialloc (s : Fs P) (type : InodeType) : Except Fault (Nat × Fs P) :=
  match (List.range' 1 (s.ninodes - 1)).find? fun i => decide ((s.node i).type = .free) with
  | some i => do
      let s ← (s.setNode i ⟨type, 0, 0, 0, []⟩).iget i
      .ok (i, s)
  | none => .error .noDiskInodes

/-! ## Directories -/

/-- Look for a directory entry; the result is its number and the inode it names, referenced. -/
def dirlookup (s : Fs P) (dp : Nat) (name : Name) : Except Fault (Option (Nat × Nat) × Fs P) :=
  if (s.node dp).type ≠ .dir then .error .notDir
  else
    match (s.node dp).lookup name with
    | none => .ok (none, s)
    | some off => do
        let inum := ((s.node dp).entry off).inum
        let s ← s.iget inum
        .ok (some (off, inum), s)

/-- Write a new directory entry; `false` for the result -1. -/
def dirlink (s : Fs P) (dp : Nat) (name : Name) (inum : Nat) : Except Fault (Bool × Fs P) := do
  let (found, s) ← s.dirlookup dp name
  match found with
  | some (_, ip) =>
      let s ← s.iput ip
      .ok (false, s)
  | none =>
      let off := (s.node dp).vacant
      -- `writei` beyond the largest file
      if maxdirent ≤ off then .error .dirlink
      else .ok (true, s.setNode dp ((s.node dp).write off ⟨inum % 65536, name.take dirsiz⟩))

end Fs

/-! ## Paths -/

/-- The next path element, and the path behind it without leading slashes. -/
def skipelem (path : List Char) : Option (Name × List Char) :=
  let path := path.dropWhile (· == '/')
  if path = [] then none
  else some ((path.takeWhile (· != '/')).take dirsiz,
    (path.dropWhile (· != '/')).dropWhile (· == '/'))

/-- The elements that repeated calls of `skipelem` deliver, at most `n`. -/
def elements : Nat → List Char → List Name
  | 0, _ => []
  | n + 1, path =>
      match skipelem path with
      | none => []
      | some (name, rest) => name :: elements n rest

/-- The elements of a path, which are no more than its characters. -/
def pathElements (path : List Char) : List Name := elements path.length path

namespace Fs

variable {P : Type}

/-- The loop of `namex` over the elements that are left; the caller holds a reference to `ip`. -/
def namexLoop (nameiparent : Bool) :
    Fs P → Nat → List Name → Except Fault (Option (Nat × Name) × Fs P)
  | s, ip, [] =>
      if nameiparent then do
        let s ← s.iput ip
        .ok (none, s)
      else .ok (some (ip, []), s)
  | s, ip, name :: rest => do
      let s ← s.ilock ip
      if (s.node ip).type ≠ .dir then
        let s ← s.iunlockput ip
        .ok (none, s)
      else if nameiparent ∧ rest = [] then
        -- stop one level early
        let s ← s.iunlock ip
        .ok (some (ip, name), s)
      else
        let (next, s) ← s.dirlookup ip name
        match next with
        | none =>
            let s ← s.iunlockput ip
            .ok (none, s)
        | some (_, next) =>
            let s ← s.iunlockput ip
            namexLoop nameiparent s next rest

/-- The inode at which `namex` starts, referenced. -/
def namexStart (s : Fs P) (p : P) (path : List Char) : Except Fault (Nat × Fs P) :=
  if path.head? = some '/' then do
    let s ← s.iget rootino
    .ok (rootino, s)
  else
    match s.cwd p with
    | some cwd => .ok (cwd, s.idup cwd)
    | none => .error .noCwd

/-- Look up the inode for a path name, or its parent and the final path element. -/
def namex (s : Fs P) (p : P) (path : List Char) (nameiparent : Bool) :
    Except Fault (Option (Nat × Name) × Fs P) := do
  let (ip, s) ← s.namexStart p path
  namexLoop nameiparent s ip (pathElements path)

def namei (s : Fs P) (p : P) (path : List Char) : Except Fault (Option Nat × Fs P) := do
  let (found, s) ← s.namex p path false
  .ok (found.map Prod.fst, s)

def nameiparent (s : Fs P) (p : P) (path : List Char) :
    Except Fault (Option (Nat × Name) × Fs P) :=
  s.namex p path true

/-! ## File-system calls -/

/-- Create the path `new` as a link to the same inode as `old`. -/
def sysLink (s : Fs P) (p : P) (old new : List Char) : Except Fault (Int × Fs P) := do
  let (found, s) ← s.namei p old
  match found with
  | none => .ok (-1, s)
  | some ip =>
      let s ← s.ilock ip
      if (s.node ip).type = .dir then
        let s ← s.iunlockput ip
        .ok (-1, s)
      else
        let s := s.addLink ip 1
        let s ← s.iunlock ip
        let (parent, s) ← s.nameiparent p new
        let (linked, s) ← match parent with
          | none => .ok (false, s)
          | some (dp, name) => do
              let s ← s.ilock dp
              let (linked, s) ← s.dirlink dp name ip
              let s ← s.iunlockput dp
              .ok (linked, s)
        if linked then
          let s ← s.iput ip
          .ok (0, s)
        else
          -- bad
          let s ← s.ilock ip
          let s := s.addLink ip (-1)
          let s ← s.iunlockput ip
          .ok (-1, s)

def sysUnlink (s : Fs P) (p : P) (path : List Char) : Except Fault (Int × Fs P) := do
  let (parent, s) ← s.nameiparent p path
  match parent with
  | none => .ok (-1, s)
  | some (dp, name) =>
      let s ← s.ilock dp
      -- cannot unlink "." or ".."
      if namecmp name ['.'] ∨ namecmp name ['.', '.'] then
        let s ← s.iunlockput dp
        .ok (-1, s)
      else
        let (found, s) ← s.dirlookup dp name
        match found with
        | none =>
            let s ← s.iunlockput dp
            .ok (-1, s)
        | some (off, ip) =>
            let s ← s.ilock ip
            if (s.node ip).nlink < 1 then .error .unlink
            else if (s.node ip).type = .dir ∧ ¬ (s.node ip).isdirempty then
              let s ← s.iunlockput ip
              let s ← s.iunlockput dp
              .ok (-1, s)
            else
              let s := s.setNode dp ((s.node dp).write off ⟨0, []⟩)
              let s := if (s.node ip).type = .dir then s.addLink dp (-1) else s
              let s ← s.iunlockput dp
              let s := s.addLink ip (-1)
              let s ← s.iunlockput ip
              .ok (0, s)

/-- The part of `create` behind `ialloc`: fill the new inode `ip` and enter it in `dp`. -/
def createNew (s : Fs P) (dp : Nat) (name : Name) (ip : Nat) (type : InodeType)
    (major minor : Int) : Except Fault (Fs P) := do
  let s ← s.ilock ip
  let s := s.setNode ip { s.node ip with major := major, minor := minor, nlink := 1 }
  let s ← if type = .dir then do
      -- create . and .. entries
      let s := s.addLink dp 1
      let (dot, s) ← s.dirlink ip ['.'] ip
      if ¬ dot then .error .createDots
      else
        let (dots, s) ← s.dirlink ip ['.', '.'] dp
        if ¬ dots then .error .createDots else .ok s
    else .ok s
  let (linked, s) ← s.dirlink dp name ip
  if ¬ linked then .error .createDirlink
  else s.iunlockput dp

/-- The inode of a new path, or of an existing file if a file is asked for; it is locked. -/
def create (s : Fs P) (p : P) (path : List Char) (type : InodeType) (major minor : Int) :
    Except Fault (Option Nat × Fs P) := do
  let (parent, s) ← s.nameiparent p path
  match parent with
  | none => .ok (none, s)
  | some (dp, name) =>
      let s ← s.ilock dp
      let (found, s) ← s.dirlookup dp name
      match found with
      | some (_, ip) =>
          let s ← s.iunlockput dp
          let s ← s.ilock ip
          if type = .file ∧ (s.node ip).type = .file then .ok (some ip, s)
          else
            let s ← s.iunlockput ip
            .ok (none, s)
      | none =>
          let (ip, s) ← s.ialloc type
          let s ← s.createNew dp name ip type (short major) (short minor)
          .ok (some ip, s)

/-- The first free descriptor of a process. -/
def fdalloc (s : Fs P) (p : P) : Option (Fin nofile) :=
  (List.finRange nofile).find? fun fd => (s.ofile p fd).isNone

variable [DecidableEq P]

def setFile (s : Fs P) (p : P) (fd : Fin nofile) (file : Option Nat) : Fs P :=
  { s with ofile := Function.update s.ofile p (Function.update (s.ofile p) fd file) }

def setCwd (s : Fs P) (p : P) (cwd : Option Nat) : Fs P :=
  { s with cwd := Function.update s.cwd p cwd }

/-- The inode that `sys_open` opens, locked. -/
def openInode (s : Fs P) (p : P) (path : List Char) (omode : Nat) :
    Except Fault (Option Nat × Fs P) :=
  if omode &&& ocreate ≠ 0 then s.create p path .file 0 0
  else do
    let (found, s) ← s.namei p path
    match found with
    | none => .ok (none, s)
    | some ip =>
        let s ← s.ilock ip
        if (s.node ip).type = .dir ∧ omode ≠ ordonly then
          let s ← s.iunlockput ip
          .ok (none, s)
        else .ok (some ip, s)

/-- `room` says whether `filealloc` finds a free entry in the file table. -/
def sysOpen (s : Fs P) (p : P) (path : List Char) (omode : Nat) (room : Bool) :
    Except Fault (Int × Fs P) := do
  let (found, s) ← s.openInode p path omode
  match found with
  | none => .ok (-1, s)
  | some ip =>
      match if room then s.fdalloc p else none with
      | none =>
          let s ← s.iunlockput ip
          .ok (-1, s)
      | some fd =>
          let s ← s.iunlock ip
          .ok (fd, s.setFile p fd (some ip))

/-- What `sys_mkdir` and `sys_mknod` do. -/
def createOnly (s : Fs P) (p : P) (path : List Char) (type : InodeType) (major minor : Int) :
    Except Fault (Int × Fs P) := do
  let (made, s) ← s.create p path type major minor
  match made with
  | none => .ok (-1, s)
  | some ip =>
      let s ← s.iunlockput ip
      .ok (0, s)

def sysMkdir (s : Fs P) (p : P) (path : List Char) : Except Fault (Int × Fs P) :=
  s.createOnly p path .dir 0 0

def sysMknod (s : Fs P) (p : P) (path : List Char) (major minor : Int) :
    Except Fault (Int × Fs P) :=
  s.createOnly p path .dev major minor

def sysChdir (s : Fs P) (p : P) (path : List Char) : Except Fault (Int × Fs P) := do
  let (found, s) ← s.namei p path
  match found with
  | none => .ok (-1, s)
  | some ip =>
      let s ← s.ilock ip
      if (s.node ip).type ≠ .dir then
        let s ← s.iunlockput ip
        .ok (-1, s)
      else
        let s ← s.iunlock ip
        match s.cwd p with
        | none => .error .noCwd
        | some cwd =>
            let s ← s.iput cwd
            .ok (0, s.setCwd p (some ip))

def sysClose (s : Fs P) (p : P) (fd : Fin nofile) : Except Fault (Int × Fs P) :=
  match s.ofile p fd with
  | none => .ok (-1, s)
  | some ip => do
      let s ← (s.setFile p fd none).iput ip
      .ok (0, s)

/-- The loop of `exit` over the descriptors. -/
def closeFiles (p : P) : Fs P → List (Fin nofile) → Except Fault (Fs P)
  | s, [] => .ok s
  | s, fd :: fds => do
      let s ← match s.ofile p fd with
        | none => .ok s
        | some ip => do
            let s ← s.iput ip
            .ok (s.setFile p fd none)
      closeFiles p s fds

def exit (s : Fs P) (p : P) : Except Fault (Fs P) := do
  let s ← closeFiles p s (List.finRange nofile)
  match s.cwd p with
  | none => .error .noCwd
  | some cwd =>
      let s ← s.iput cwd
      .ok (s.setCwd p none)

omit [DecidableEq P] in
/-- What `exec` does with the inode of the program, which it only reads. -/
def exec (s : Fs P) (p : P) (path : List Char) : Except Fault (Fs P) := do
  let (found, s) ← s.namei p path
  match found with
  | none => .ok s
  | some ip =>
      let s ← s.ilock ip
      s.iunlockput ip

end Fs

/-- The calls of one process. -/
inductive FsCall where
  | open (path : List Char) (omode : Nat) (room : Bool)
  | mkdir (path : List Char)
  | mknod (path : List Char) (major minor : Int)
  | link (old new : List Char)
  | unlink (path : List Char)
  | chdir (path : List Char)
  | close (fd : Fin nofile)
  | exit
  | exec (path : List Char)

variable {P : Type} [DecidableEq P]

/-- The state after a call that returns. -/
def Fs.call (s : Fs P) (p : P) : FsCall → Except Fault (Fs P)
  | .open path omode room => (s.sysOpen p path omode room).map Prod.snd
  | .mkdir path => (s.sysMkdir p path).map Prod.snd
  | .mknod path major minor => (s.sysMknod p path major minor).map Prod.snd
  | .link old new => (s.sysLink p old new).map Prod.snd
  | .unlink path => (s.sysUnlink p path).map Prod.snd
  | .chdir path => (s.sysChdir p path).map Prod.snd
  | .close fd => (s.sysClose p fd).map Prod.snd
  | .exit => s.exit p
  | .exec path => s.exec p path

end SlabStudy.Xv6
