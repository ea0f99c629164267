import Mathlib.Tactic.Ring
import Mathlib.Data.List.Basic

/-!
`io::FileHandle`, `io::MemoryMappedFile` and `io::MemoryMappedStreamWriter`.

`Os` is what the system keeps: the bytes of every file (a file that does not exist is
empty) and whether it has refused a call so far. A mapping has no bytes of its own, it is
a view of its file's. What the system answers to the calls that an operation makes is an
argument of the operation (`Calls`), so an operation is stated for every way in which its
calls can fail. A size travels to `ftruncate` as an `off_t`, and one of `2 ^ 63` or more
is negative there and always refused.

`usize` has `w` bits. Hints and asynchronous write-backs (`advise`, `flush`) change
nothing that is modelled here.
-/

namespace Fpag.Io

variable {π : Type} {w : Nat}

/-! ## The system -/

/-- The files, by their paths, and whether a system call has failed. -/
structure Os (π : Type) : Type where
  files : π → List UInt8
  refused : Bool

/-- What the system answers to `open`, `ftruncate`, `fstat` and `mmap` during one operation. -/
structure Calls : Type where
  opens : Bool
  resizes : Bool
  stats : Bool
  maps : Bool
  deriving DecidableEq, Repr

/-- The system answers every call. -/
def Calls.all : Calls := ⟨true, true, true, true⟩

def Os.refuse (os : Os π) : Os π := { os with refused := true }

/-- The file at the path has new contents. -/
def Os.put [DecidableEq π] (os : Os π) (path : π) (contents : List UInt8) : Os π :=
  { os with files := Function.update os.files path contents }

/-- A file after `ftruncate`. -/
def resized (file : List UInt8) (size : Nat) : List UInt8 :=
  file.take size ++ List.replicate (size - file.length) 0

/-- A file after a store of `data` at a position inside it. -/
def overwritten (file : List UInt8) (position : Nat) (data : List UInt8) : List UInt8 :=
  file.take position ++ data ++ file.drop (position + data.length)

/-! ## Files and mappings -/

/-- `io::FileAccess`. -/
inductive FileAccess : Type
  | read
  | readWrite
  deriving DecidableEq, Repr

/-- `io::FileHandle`. -/
structure FileHandle (π : Type) : Type where
  handle : Option π
  access : FileAccess

namespace FileHandle

def isValid (file : FileHandle π) : Bool := file.handle.isSome

/-- `FileHandle::close`. -/
def close (file : FileHandle π) : FileHandle π := { file with handle := none }

/-- `FileHandle::open`. -/
def open_ (path : π) (access : FileAccess) (os : Os π) (calls : Calls) :
    FileHandle π × Os π × Bool :=
  if calls.opens then (⟨some path, access⟩, os, true) else (⟨none, access⟩, os.refuse, false)

/-- `FileHandle::resize`. -/
def resize [DecidableEq π] (file : FileHandle π) (newSize : BitVec w) (os : Os π)
    (calls : Calls) : Os π × Bool :=
  match file.handle with
  | none => (os, false)
  | some path =>
      if file.access ≠ .readWrite then (os, false)
      else if calls.resizes ∧ newSize.toNat < 2 ^ 63 then
        (os.put path (resized (os.files path) newSize.toNat), true)
      else (os.refuse, false)

/-- `FileHandle::get_size`. -/
def getSize (file : FileHandle π) (os : Os π) (calls : Calls) : BitVec w × Os π :=
  match file.handle with
  | none => (0, os)
  | some path =>
      if calls.stats then (BitVec.ofNat w (os.files path).length, os) else (0, os.refuse)

end FileHandle

/-- `io::MemoryMappedFile`: the file behind `data_` and the position of its first mapped byte. -/
structure MemoryMappedFile (π : Type) (w : Nat) : Type where
  data : Option (π × BitVec w)
  size : BitVec w

namespace MemoryMappedFile

def isMapped (mmap : MemoryMappedFile π w) : Bool := mmap.data.isSome

/-- `MemoryMappedFile::close`. -/
def close (mmap : MemoryMappedFile π w) : MemoryMappedFile π w :=
  if mmap.isMapped then ⟨none, 0⟩ else mmap

/-- How much of a file of `fileSize` bytes `map` asks for. -/
def extent (fileSize offset length : BitVec w) : Option (BitVec w) :=
  if fileSize = 0 then none
  else if fileSize ≤ offset then none
  else if length = 0 then some (fileSize - offset)
  else if offset + length < offset ∨ fileSize < offset + length then none
  else some length

/-- `MemoryMappedFile::map`. -/
def map (mmap : MemoryMappedFile π w) (file : FileHandle π) (offset length : BitVec w)
    (os : Os π) (calls : Calls) : MemoryMappedFile π w × Os π × Bool :=
  let mmap := mmap.close
  match file.handle with
  | none => (mmap, os, false)
  | some path =>
      let stat := file.getSize os calls
      match extent stat.1 offset length with
      | none => (mmap, stat.2, false)
      | some size =>
          if calls.maps then (⟨some (path, offset), size⟩, stat.2, true)
          else (⟨none, 0⟩, stat.2.refuse, false)

end MemoryMappedFile

/-! ## The writer -/

/-- `io::MemoryMappedStreamWriter`. -/
structure StreamWriter (π : Type) (w : Nat) : Type where
  file : FileHandle π
  mmap : MemoryMappedFile π w
  capacity : BitVec w
  writeOffset : BitVec w

/-- An address that the writer computes: null, one that belongs to no mapping, or one that is
`behind` bytes into a mapping. -/
inductive Pointer (π : Type) (w : Nat) : Type
  | null
  | wild (address : BitVec w)
  | mapped (mmap : MemoryMappedFile π w) (behind : BitVec w)

/-- A store of `data` through an address; `none` is a store outside of a mapping. -/
def Pointer.store [DecidableEq π] (os : Os π) (data : List UInt8) : Pointer π w → Option (Os π)
  | .mapped ⟨some (path, first), size⟩ behind =>
      let position := first.toNat + behind.toNat
      if behind.toNat + data.length ≤ size.toNat ∧
          position + data.length ≤ (os.files path).length then
        some (os.put path (overwritten (os.files path) position data))
      else none
  | _ => none

namespace StreamWriter

/-- The default constructor. -/
def construct : StreamWriter π w := ⟨⟨none, .read⟩, ⟨none, 0⟩, 0, 0⟩

variable [DecidableEq π]

/-- `MemoryMappedStreamWriter::open`. -/
def open_ (s : StreamWriter π w) (path : π) (initialCapacity : BitVec w) (os : Os π)
    (calls : Calls) : StreamWriter π w × Os π × Bool :=
  let (file, os, opened) := FileHandle.open_ path .readWrite os calls
  let s := { s with file := file }
  if opened = false then (s, os, false)
  else
    let s := { s with capacity := initialCapacity }
    let (os, resized) := s.file.resize s.capacity os calls
    if resized = false then ({ s with file := s.file.close }, os, false)
    else
      let (mmap, os, mapped) := s.mmap.map s.file 0 s.capacity os calls
      let s := { s with mmap := mmap }
      if mapped = false then ({ s with file := s.file.close }, os, false)
      else ({ s with writeOffset := 0 }, os, true)

/-- The capacity that the writer grows to. -/
def newCapacity (s : StreamWriter π w) (requiredBytes : BitVec w) : BitVec w :=
  let needed := s.writeOffset + requiredBytes
  if s.capacity * 2 < needed then needed else s.capacity * 2

omit [DecidableEq π] in
theorem le_newCapacity (s : StreamWriter π w) (length : BitVec w) :
    (s.writeOffset + length).toNat ≤ (s.newCapacity length).toNat := by
  simp only [newCapacity]
  split
  · exact Nat.le_refl _
  · next enough => exact Nat.not_lt.mp enough

/-- `MemoryMappedStreamWriter::reserve_extra`. -/
def reserveExtra (s : StreamWriter π w) (requiredBytes : BitVec w) (os : Os π) (calls : Calls) :
    StreamWriter π w × Os π × Bool :=
  if s.writeOffset + requiredBytes ≤ s.capacity then (s, os, true)
  else
    let newCapacity := s.newCapacity requiredBytes
    let s := { s with mmap := s.mmap.close }
    let (os, resized) := s.file.resize newCapacity os calls
    if resized = false then (s, os, false)
    else
      let (mmap, os, mapped) := s.mmap.map s.file 0 newCapacity os calls
      let s := { s with mmap := mmap }
      if mapped = false then (s, os, false)
      else ({ s with capacity := newCapacity }, os, true)

/-- `mmap_.data() + write_offset_`. -/
def head (s : StreamWriter π w) : Pointer π w :=
  if s.mmap.isMapped then .mapped s.mmap s.writeOffset
  else if s.writeOffset = 0 then .null
  else .wild s.writeOffset

/-- `MemoryMappedStreamWriter::write`; `none` is a store outside of a mapping. -/
def write (s : StreamWriter π w) (data : List UInt8) (os : Os π) (calls : Calls) :
    Option (StreamWriter π w × Os π × Bool) :=
  let length := BitVec.ofNat w data.length
  let (s, os, reserved) := s.reserveExtra length os calls
  if reserved = false then some (s, os, false)
  else
    match s.head.store os data with
    | none => none
    | some os => some ({ s with writeOffset := s.writeOffset + length }, os, true)

/-- `MemoryMappedStreamWriter::prepare_write_buffer`. -/
def prepareWriteBuffer (s : StreamWriter π w) (length : BitVec w) (os : Os π) (calls : Calls) :
    StreamWriter π w × Os π × Pointer π w :=
  let (s, os, reserved) := s.reserveExtra length os calls
  if reserved = false then (s, os, .null) else (s, os, s.head)

/-- `MemoryMappedStreamWriter::commit_write`. -/
def commitWrite (s : StreamWriter π w) (length : BitVec w) : StreamWriter π w :=
  { s with writeOffset := s.writeOffset + length }

/-- `MemoryMappedStreamWriter::finish`. -/
def finish (s : StreamWriter π w) (os : Os π) (calls : Calls) : StreamWriter π w × Os π :=
  if s.file.isValid = false then (s, os)
  else
    let s := { s with mmap := s.mmap.close }
    let (os, _) := s.file.resize s.writeOffset os calls
    ({ s with file := s.file.close }, os)

/-- `MemoryMappedStreamWriter::bytes_written`. -/
def bytesWritten (s : StreamWriter π w) : BitVec w := s.writeOffset

/-- What a defaulted move leaves behind: the handle and the mapping are taken, the counters
stay. -/
def movedFrom (s : StreamWriter π w) : StreamWriter π w :=
  { s with file := s.file.close, mmap := ⟨none, 0⟩ }

end StreamWriter

end Fpag.Io
