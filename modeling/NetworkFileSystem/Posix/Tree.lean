import Mathlib.Algebra.Order.Ring.Int
import Mathlib.Data.List.Basic
import Mathlib.Tactic.Common

/-!
# The tree of a Unix file system

A file system is a finite table of inodes.  Directories map names to inode numbers and know their
parent, so a file may have several names while a directory has one.  An inode is never dropped
from the table: a file without a name is simply not reachable from the root any more.

All changes go through two primitives, `FS.modify` (rewrite one inode) and `FS.alloc` (take the
next unused inode number).  The structure carries the fact that numbers from `next` on are
unused, so what an allocated number names is always new.

`FS.Persists P` is the frame relation of the development: every inode is still there and is
related to its old self by `P`.

Only the times that `utime` sets are kept; the time stamps the kernel updates on its own are not
modelled, and neither are quotas, mount points and extended attributes.
-/

namespace Posix

/-- A C string without its terminating NUL, one `Char` for each byte. -/
abbrev CStr := List Char

abbrev Name := List Char

abbrev Ino := ℕ

abbrev Errno := ℕ

abbrev EPERM : Errno := 1
abbrev ENOENT : Errno := 2
abbrev ENXIO : Errno := 6
abbrev EBADF : Errno := 9
abbrev ENOMEM : Errno := 12
abbrev EACCES : Errno := 13
abbrev EBUSY : Errno := 16
abbrev EEXIST : Errno := 17
abbrev ENOTDIR : Errno := 20
abbrev EISDIR : Errno := 21
abbrev EINVAL : Errno := 22
abbrev ESPIPE : Errno := 29
abbrev ENAMETOOLONG : Errno := 36
abbrev ENOTEMPTY : Errno := 39
abbrev ELOOP : Errno := 40

/-- What an inode is, with what only inodes of that kind have. -/
inductive Body
  | reg (data : List UInt8)
  | dir (parent : Ino) (entries : List (Name × Ino))
  | symlink (target : CStr)
  | fifo
  | sock
  | chr (dev : Int)
  | blk (dev : Int)
  deriving DecidableEq, Repr

/-- The kind alone. -/
inductive Kind
  | reg | dir | symlink | fifo | sock | chr | blk
  deriving DecidableEq, Repr

def Body.kind : Body → Kind
  | reg _ => .reg
  | dir _ _ => .dir
  | symlink _ => .symlink
  | fifo => .fifo
  | sock => .sock
  | chr _ => .chr
  | blk _ => .blk

structure Inode where
  body : Body
  uid : UInt32
  gid : UInt32
  /-- The twelve permission bits. -/
  perm : UInt32
  nlink : ℕ
  atime : Int
  mtime : Int
  ctime : Int
  /-- Whether `atime` and `mtime` were set by `utime`. -/
  stamped : Bool
  deriving DecidableEq, Repr

namespace Inode

abbrev kind (n : Inode) : Kind := n.body.kind

/-- An inode with an owner and permission bits, and nothing else of interest. -/
def plain (body : Body) (owner perm : UInt32) : Inode where
  body := body
  uid := owner
  gid := owner
  perm := perm
  nlink := 1
  atime := 0
  mtime := 0
  ctime := 0
  stamped := false

/-- The content of a regular file. -/
def data? (n : Inode) : Option (List UInt8) :=
  match n.body with
  | .reg d => some d
  | _ => none

/-- Rewrite the entries of a directory and shift its link count. -/
def onEntries (f : List (Name × Ino) → List (Name × Ino)) (links : ℕ → ℕ) (n : Inode) : Inode :=
  match n.body with
  | .dir p es => { n with body := .dir p (f es), nlink := links n.nlink }
  | _ => n

@[simp] theorem onEntries_uid (f : List (Name × Ino) → List (Name × Ino)) (l : ℕ → ℕ) (n : Inode) :
    (n.onEntries f l).uid = n.uid := by
  unfold onEntries; split <;> rfl

@[simp] theorem onEntries_gid (f : List (Name × Ino) → List (Name × Ino)) (l : ℕ → ℕ) (n : Inode) :
    (n.onEntries f l).gid = n.gid := by
  unfold onEntries; split <;> rfl

@[simp] theorem onEntries_perm (f : List (Name × Ino) → List (Name × Ino)) (l : ℕ → ℕ)
    (n : Inode) : (n.onEntries f l).perm = n.perm := by
  unfold onEntries; split <;> rfl

@[simp] theorem onEntries_kind (f : List (Name × Ino) → List (Name × Ino)) (l : ℕ → ℕ)
    (n : Inode) : (n.onEntries f l).body.kind = n.body.kind := by
  unfold onEntries; split <;> simp_all [Body.kind]

@[simp] theorem onEntries_data (f : List (Name × Ino) → List (Name × Ino)) (l : ℕ → ℕ)
    (n : Inode) : (n.onEntries f l).data? = n.data? := by
  unfold onEntries
  split
  · simp_all [data?]
  · rfl

/-- Only directories have entries that can be changed. -/
theorem onEntries_body_eq_dir {f : List (Name × Ino) → List (Name × Ino)} {l : ℕ → ℕ} {n : Inode}
    {p : Ino} {es : List (Name × Ino)} :
    (n.onEntries f l).body = .dir p es ↔ ∃ es', n.body = .dir p es' ∧ es = f es' := by
  unfold onEntries
  constructor
  · intro h
    split at h
    · next q es' hb =>
      cases h
      exact ⟨es', hb, rfl⟩
    · next hno => exact absurd h (hno p es)
  · rintro ⟨es', hb, rfl⟩
    simp [hb]

end Inode

/-- A file system: its root, its inodes, and the first inode number not used so far. -/
structure FS where
  root : Ino
  node : Ino → Option Inode
  next : Ino
  fresh : ∀ i, next ≤ i → node i = none

namespace FS

variable (fs : FS)

/-- Rewrite the inode `i`, if there is one. -/
def modify (i : Ino) (f : Inode → Inode) : FS where
  root := fs.root
  node k := if k = i then (fs.node k).map f else fs.node k
  next := fs.next
  fresh k hk := by simp [fs.fresh k hk]

/-- Put a new inode at the next number. -/
def alloc (n : Inode) : FS where
  root := fs.root
  node k := if k = fs.next then some n else fs.node k
  next := fs.next + 1
  fresh k hk := by
    have hlt : fs.next < k := hk
    rw [if_neg (Nat.ne_of_gt hlt)]
    exact fs.fresh k (Nat.le_of_lt hlt)

/-- The file system with these inodes, numbered from the root on. -/
def ofNodes (nodes : List Inode) : FS where
  root := 0
  node i := nodes[i]?
  next := nodes.length
  fresh _ hi := List.getElem?_eq_none hi

variable {fs}

@[simp] theorem modify_root (i : Ino) (f : Inode → Inode) : (fs.modify i f).root = fs.root := rfl

@[simp] theorem modify_next (i : Ino) (f : Inode → Inode) : (fs.modify i f).next = fs.next := rfl

@[simp] theorem alloc_root (n : Inode) : (fs.alloc n).root = fs.root := rfl

/-- The inodes after one has changed. -/
theorem modify_node (i k : Ino) (f : Inode → Inode) :
    (fs.modify i f).node k = if k = i then (fs.node k).map f else fs.node k := rfl

@[simp] theorem modify_node_self (i : Ino) (f : Inode → Inode) :
    (fs.modify i f).node i = (fs.node i).map f := by simp [modify]

theorem modify_node_ne {i k : Ino} (f : Inode → Inode) (h : k ≠ i) :
    (fs.modify i f).node k = fs.node k := by simp [modify, h]

/-- The inodes after one was added. -/
theorem alloc_node (n : Inode) (k : Ino) :
    (fs.alloc n).node k = if k = fs.next then some n else fs.node k := rfl

@[simp] theorem alloc_node_next (n : Inode) : (fs.alloc n).node fs.next = some n := by
  simp [alloc]

@[simp] theorem node_next : fs.node fs.next = none := fs.fresh _ (Nat.le_refl _)

theorem ne_next {i : Ino} {n : Inode} (h : fs.node i = some n) : i ≠ fs.next := by
  rintro rfl
  simp at h

/-- The inodes that were there stay as they are when one is added. -/
theorem alloc_node_of_some {i : Ino} {n m : Inode} (h : fs.node i = some n) :
    (fs.alloc m).node i = some n := by
  rw [alloc_node, if_neg (ne_next h), h]

theorem alloc_node_ne {i : Ino} (n : Inode) (h : i ≠ fs.next) :
    (fs.alloc n).node i = fs.node i := by rw [alloc_node, if_neg h]

/-! ## What persists -/

/-- Every inode is still there, related to its former self by `P`. -/
def Persists (P : Inode → Inode → Prop) (fs fs' : FS) : Prop :=
  ∀ i n, fs.node i = some n → ∃ n', fs'.node i = some n' ∧ P n n'

variable {P : Inode → Inode → Prop} {fs' fs'' : FS}

/-- Every inode is related to itself, so nothing has happened. -/
theorem Persists.refl (hP : ∀ n, P n n) (fs : FS) : Persists P fs fs :=
  fun _ n h => ⟨n, h, hP n⟩

/-- Two changes in a row. -/
theorem Persists.trans (hP : ∀ a b c, P a b → P b c → P a c) (h : Persists P fs fs')
    (h' : Persists P fs' fs'') : Persists P fs fs'' := by
  intro i n hn
  obtain ⟨n', hn', hp⟩ := h i n hn
  obtain ⟨n'', hn'', hp'⟩ := h' i n' hn'
  exact ⟨n'', hn'', hP _ _ _ hp hp'⟩

/-- Rewriting one inode persists as far as that rewriting goes. -/
theorem persists_modify (hP : ∀ n, P n n) {i : Ino} {f : Inode → Inode}
    (hf : ∀ n, fs.node i = some n → P n (f n)) : Persists P fs (fs.modify i f) := by
  intro k n hn
  by_cases hk : k = i
  · subst hk
    exact ⟨f n, by simp [hn], hf n hn⟩
  · exact ⟨n, by rw [modify_node_ne f hk, hn], hP n⟩

/-- A new inode changes no other. -/
theorem persists_alloc (hP : ∀ n, P n n) (m : Inode) : Persists P fs (fs.alloc m) :=
  fun _ n hn => ⟨n, alloc_node_of_some hn, hP n⟩

end FS

end Posix
