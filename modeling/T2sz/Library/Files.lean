import Mathlib.Logic.Function.Basic
import Mathlib.Tactic.Common

/-!
Files and the paths that lead to them.

A path leads, links followed, to a name in a directory; a name may have a file.
Several paths lead to one name, and several names may have one file. Opening for
writing empties the file that is there, or makes one; removing takes the name
away. The results say what such an operation leaves alone.
-/

namespace Files

universe u v w

/-- The device and the number of an inode. -/
structure FileId where
  dev : Nat
  ino : Nat
  deriving DecidableEq

inductive FileType
  | regular
  | directory
  /-- A pipe, a device, a socket. -/
  | other
  deriving DecidableEq

/-- `size` is the size that the system reports: of a regular file the length of its
content, unless it is zero. -/
structure File (β : Type w) where
  type : FileType
  size : Nat
  content : List β
  /-- Reading it ends in an error behind the content. -/
  fails : Bool
  sized : type = .regular → size ≠ 0 → content.length = size

/-- A regular file of this content. -/
def File.ofContent {β : Type w} (content : List β) : File β where
  type := .regular
  size := content.length
  content := content
  fails := false
  sized := fun _ _ => rfl

structure FileSystem (π : Type u) (ν : Type v) (β : Type w) where
  resolve : π → ν
  /-- The path is that of a symbolic link. -/
  isLink : π → Bool
  entry : ν → Option FileId
  file : FileId → File β

variable {π : Type u} {ν : Type v} {β : Type w}

namespace FileSystem

/-- The file that a path leads to. -/
def stat (fs : FileSystem π ν β) (path : π) : Option FileId := fs.entry (fs.resolve path)

def write (fs : FileSystem π ν β) (id : FileId) (content : List β) : FileSystem π ν β :=
  { fs with file := Function.update fs.file id (.ofContent content) }

/-- A file that is at no name yet. -/
def Unused (fs : FileSystem π ν β) (id : FileId) : Prop := ∀ name, fs.entry name ≠ some id

/-- Nothing else was done than to make, to write or to remove a file at this path. -/
structure Confined (fs fs' : FileSystem π ν β) (path : π) (fresh : FileId) : Prop where
  resolve : fs'.resolve = fs.resolve
  entries : ∀ name, name ≠ fs.resolve path → fs'.entry name = fs.entry name
  files : ∀ id, id ≠ fresh → fs.stat path ≠ some id → fs'.file id = fs.file id

variable {fs fs' : FileSystem π ν β} {path path' : π} {id id' fresh : FileId}
  {content content' : List β}

@[simp] theorem stat_write (fs : FileSystem π ν β) (id : FileId) (content : List β) (path : π) :
    (fs.write id content).stat path = fs.stat path := rfl

theorem file_write (fs : FileSystem π ν β) (id : FileId) (content : List β) :
    (fs.write id content).file id = .ofContent content :=
  Function.update_self ..

theorem file_write_of_ne (h : id' ≠ id) : (fs.write id content).file id' = fs.file id' :=
  Function.update_of_ne h ..

theorem write_write (fs : FileSystem π ν β) (id : FileId) (content content' : List β) :
    (fs.write id content).write id content' = fs.write id content' := by
  simp only [write, Function.update_idem]

variable [DecidableEq ν]

def link (fs : FileSystem π ν β) (path : π) (id : FileId) : FileSystem π ν β :=
  { fs with entry := Function.update fs.entry (fs.resolve path) (some id) }

def unlink (fs : FileSystem π ν β) (path : π) : FileSystem π ν β :=
  { fs with entry := Function.update fs.entry (fs.resolve path) none }

/-- A path with this content: a regular file is overwritten, a new one is made, and
what is no regular file keeps nothing. -/
def put (fs : FileSystem π ν β) (path : π) (fresh : FileId) (content : List β) :
    FileSystem π ν β :=
  match fs.stat path with
  | none => (fs.link path fresh).write fresh content
  | some id => if (fs.file id).type = .regular then fs.write id content else fs

@[simp] theorem file_link (fs : FileSystem π ν β) (path : π) (id : FileId) :
    (fs.link path id).file = fs.file := rfl

theorem stat_link (fs : FileSystem π ν β) (path : π) (id : FileId) :
    (fs.link path id).stat path = some id :=
  Function.update_self ..

theorem stat_unlink (fs : FileSystem π ν β) (path : π) : (fs.unlink path).stat path = none :=
  Function.update_self ..

section Put

theorem put_of_none (h : fs.stat path = none) :
    fs.put path fresh content = (fs.link path fresh).write fresh content := by
  rw [put, h]

theorem put_of_regular (hid : fs.stat path = some id) (h : (fs.file id).type = .regular) :
    fs.put path fresh content = fs.write id content := by
  rw [put, hid]
  exact if_pos h

/-- What is no regular file keeps nothing. -/
theorem put_of_ne_regular (hid : fs.stat path = some id) (h : (fs.file id).type ≠ .regular) :
    fs.put path fresh content = fs := by
  rw [put, hid]
  exact if_neg h

/-- Where a path leads that was written to. -/
theorem stat_put (fs : FileSystem π ν β) (path : π) (fresh : FileId) (content : List β) :
    (fs.put path fresh content).stat path = some ((fs.stat path).getD fresh) := by
  cases hstat : fs.stat path with
  | none =>
      rw [put_of_none hstat, stat_write]
      exact stat_link fs path fresh
  | some id =>
      by_cases hregular : (fs.file id).type = .regular
      · rw [put_of_regular hstat hregular]
        exact hstat
      · rw [put_of_ne_regular hstat hregular]
        exact hstat

/-- What was written is there, if it is a regular file or a new one. -/
theorem file_put (h : ∀ id, fs.stat path = some id → (fs.file id).type = .regular) :
    (fs.put path fresh content).file ((fs.stat path).getD fresh) = .ofContent content := by
  cases hstat : fs.stat path with
  | none =>
      rw [put_of_none hstat]
      exact file_write _ _ _
  | some id =>
      rw [put_of_regular hstat (h id hstat)]
      exact file_write _ _ _

theorem put_write (h : fs.stat path = some id) :
    (fs.write id content).put path fresh content' = fs.write id content' := by
  have hstat : (fs.write id content).stat path = some id := h
  have hregular : ((fs.write id content).file id).type = .regular := by
    rw [file_write]
    rfl
  rw [put_of_regular hstat hregular, write_write]

/-- The second write counts. -/
theorem put_put (fs : FileSystem π ν β) (path : π) (fresh : FileId) (content content' : List β) :
    (fs.put path fresh content).put path fresh content' = fs.put path fresh content' := by
  cases hstat : fs.stat path with
  | none =>
      rw [put_of_none hstat, put_of_none hstat]
      exact put_write (stat_link fs path fresh)
  | some id =>
      by_cases hregular : (fs.file id).type = .regular
      · rw [put_of_regular hstat hregular, put_of_regular hstat hregular]
        exact put_write hstat
      · rw [put_of_ne_regular hstat hregular]

theorem confined_put (fs : FileSystem π ν β) (path : π) (fresh : FileId) (content : List β) :
    Confined fs (fs.put path fresh content) path fresh := by
  cases hstat : fs.stat path with
  | none =>
      rw [put_of_none hstat]
      refine ⟨rfl, fun name hname => Function.update_of_ne hname .., fun id hid _ => ?_⟩
      rw [file_write_of_ne hid, file_link]
  | some id =>
      by_cases hregular : (fs.file id).type = .regular
      · rw [put_of_regular hstat hregular]
        refine ⟨rfl, fun _ _ => rfl, fun id' _ hne => file_write_of_ne ?_⟩
        rintro rfl
        exact hne hstat
      · rw [put_of_ne_regular hstat hregular]
        exact ⟨rfl, fun _ _ => rfl, fun _ _ _ => rfl⟩

end Put

theorem Confined.unlink (h : Confined fs fs' path fresh) :
    Confined fs (fs'.unlink path) path fresh := by
  refine ⟨h.resolve, fun name hname => ?_, h.files⟩
  rw [← h.entries name hname]
  refine Function.update_of_ne ?_ ..
  rwa [h.resolve]

end FileSystem

end Files
