import NetworkFileSystem.Effects.Fallible
import NetworkFileSystem.Posix.Tree

/-!
# Resolving a path

A path is split at its slashes into components and walked from the root, one component at a time;
a symbolic link on the way is replaced by the components of its target, at most forty times.

A slash at the end of a path asks for a directory.  For a lookup this is the same as one more
component `.`: it makes the walk follow a link in the last place and fail on anything that is not
a directory (`walkComps`).  Calls that create or remove a name look the last component up
themselves (`FS.slot`).

Three lookups are provided: `FS.resolve` follows a link in the last place, `FS.lresolve` does not,
and `FS.slot` yields the directory and the name of the last component.  A path that does not start
with a slash is walked from the root as well: the programs modelled over this library only pass
absolute paths, apart from link targets, which start where the link is (`FS.base`).
-/

namespace Posix

open Effects

def dot : Name := ['.']

def dotdot : Name := ['.', '.']

/-- The non-empty parts of a path between its slashes. -/
def components (p : CStr) : List Name := (p.splitOn '/').filter (· ≠ [])

/-- Whether the path ends in a slash. -/
def trailing (p : CStr) : Bool := p.getLast? = some '/'

/-- The components a lookup walks. -/
def walkComps (p : CStr) : List Name := components p ++ if trailing p then [dot] else []

/-- What a call checks of a path before it looks at the file system. -/
def getname (p : CStr) : Except Errno Unit := do
  need (p ≠ []) ENOENT
  need (p.length < 4096) ENAMETOOLONG

/-- How many symbolic links one lookup follows. -/
abbrev maxSymlinks : ℕ := 40

namespace FS

variable (fs : FS)

/-- The parent and the entries of a directory. -/
def dir (d : Ino) : Except Errno (Ino × List (Name × Ino)) :=
  match fs.node d with
  | some n => match n.body with
    | .dir p es => .ok (p, es)
    | _ => .error ENOTDIR
  | none => .error ENOTDIR

/-- Where the name `x` leads from a directory. -/
def pick (d parent : Ino) (es : List (Name × Ino)) (x : Name) : Option Ino :=
  if x = dot then some d else if x = dotdot then some parent else es.lookup x

/-- The inode that the name `x` names in the directory `d`. -/
def child (d : Ino) (x : Name) : Except Errno Ino := do
  let (parent, es) ← fs.dir d
  need (x.length ≤ 255) ENAMETOOLONG
  let i ← orElse ENOENT (pick d parent es x)
  need (fs.node i).isSome ENOENT
  pure i

/-- The target of a symbolic link. -/
def linkTarget (i : Ino) : Option CStr :=
  match fs.node i with
  | some n => match n.body with
    | .symlink t => some t
    | _ => none
  | none => none

/-- Where a link found in the directory `d` starts from. -/
def base (d : Ino) (target : CStr) : Ino := if target.head? = some '/' then fs.root else d

/-- Walk the components; `jump` takes over at a symbolic link. -/
def walkWith (jump : Ino → List Name → Except Errno Ino) : Ino → List Name → Except Errno Ino
  | cur, [] => .ok cur
  | cur, x :: rest => do
    let i ← fs.child cur x
    match fs.linkTarget i with
    | some t => jump (fs.base cur t) (walkComps t ++ rest)
    | none => walkWith jump i rest

/-- Walk the components, following at most the given number of symbolic links. -/
def walk : ℕ → Ino → List Name → Except Errno Ino
  | 0 => fs.walkWith fun _ _ => .error ELOOP
  | n + 1 => fs.walkWith (walk n)

/-- Look a path up, following a link in the last place. -/
def resolve (p : CStr) : Except Errno Ino := do
  getname p
  fs.walk maxSymlinks fs.root (walkComps p)

/-- Look a path up without following a link in the last place. -/
def lresolve (p : CStr) : Except Errno Ino := do
  getname p
  match (walkComps p).getLast? with
  | none => pure fs.root
  | some x =>
    let d ← fs.walk maxSymlinks fs.root (walkComps p).dropLast
    fs.child d x

/-- The directory a path leads to and the name of its last component; the name is empty for the
root itself. -/
def slot (p : CStr) : Except Errno (Ino × Name) := do
  getname p
  match (components p).getLast? with
  | none => pure (fs.root, [])
  | some x =>
    let d ← fs.walk maxSymlinks fs.root (components p).dropLast
    let _ ← fs.dir d
    pure (d, x)

/-- A last component that no name can be created or removed under. -/
def special (x : Name) : Bool := x = [] ∨ x = dot ∨ x = dotdot

/-- Whether `i` is a directory. -/
def isDir (i : Ino) : Bool :=
  match fs.node i with
  | some n => n.kind = .dir
  | none => false

end FS

end Posix
