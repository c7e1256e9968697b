import Rdwarfs.Lib.Bisect
import Rdwarfs.Lib.Utf8
import Rdwarfs.Source.Fs.Filesystem
import Rdwarfs.Source.Fs.Walk

/-!
# Looking a path up

fs/read.rs:115-120, 660-683, 771-776, 808-822, 970-972: `lookup`, `lookup_child`, `lookup_one`
and `split_path`. Names compare bytewise, which is how byte lists are ordered. Which characters
`Debug` escapes depends on the toolchain's Unicode tables: combining marks within a script's own
block and unassigned code points are not modelled.
-/
namespace Rdwarfs.Source.Fs

open Lib.Machine Metadata

structure Node where
  inode : UInt32
  kind : InodeKind
  deriving DecidableEq, Repr

def splitPath (path : Bytes) : List Bytes := (path.splitOn slash).filter (· ≠ [])

/-- Code points that `str`'s `Debug` writes by number: controls, format characters, blanks other
than the space, marks, private use and noncharacters. -/
def numbered : List (Nat × Nat) :=
  [(0x00, 0x1F), (0x7F, 0xA0), (0xAD, 0xAD), (0x300, 0x36F), (0x483, 0x489), (0x600, 0x605),
    (0x61C, 0x61C), (0x6DD, 0x6DD), (0x70F, 0x70F), (0x890, 0x891), (0x8E2, 0x8E2),
    (0x1680, 0x1680), (0x180B, 0x180F), (0x1AB0, 0x1AFF), (0x1DC0, 0x1DFF), (0x2000, 0x200F),
    (0x2028, 0x202F), (0x205F, 0x206F), (0x20D0, 0x20FF), (0x3000, 0x3000), (0xE000, 0xF8FF),
    (0xFDD0, 0xFDEF), (0xFE00, 0xFE0F), (0xFE20, 0xFE2F), (0xFEFF, 0xFEFF), (0xFFF0, 0xFFFB),
    (0xFFFE, 0xFFFF), (0x110BD, 0x110BD), (0x110CD, 0x110CD), (0x13430, 0x1343F),
    (0x1BCA0, 0x1BCA3), (0x1D173, 0x1D182), (0x1FFFE, 0x1FFFF), (0x2FFFE, 0x2FFFF),
    (0x3FFFE, 0x10FFFF)]

def escapeDebug (c : Char) : String :=
  match c with
  | '\x00' => "\\0"
  | '\t' => "\\t"
  | '\n' => "\\n"
  | '\r' => "\\r"
  | '"' => "\\\""
  | '\\' => "\\\\"
  | c =>
    if numbered.any fun range => range.1 ≤ c.toNat && c.toNat ≤ range.2 then
      "\\u\x7b" ++ String.ofList (Nat.toDigits 16 c.toNat) ++ "\x7d"
    else c.toString

/-- The component as an error shows it: `{:?}` of its lossy text. -/
def shown (component : Bytes) : String :=
  (Lib.Utf8.lossyText component).toList.foldl (fun out c => out ++ escapeDebug c) "\"" ++ "\""

example : shown [0x61, 0x0D, 0x01, 0x22, 0xE2, 0x80, 0x8B] =
    "\"a\\r\\u\x7b1\x7d\\\"\\u\x7b200b\x7d\"" := by decide +kernel

namespace Filesystem

variable (fs : Filesystem)

/-- One round of the search of `lookup_one`. -/
def compareEntry (name : Bytes) (i : Nat) : Result (Ordering × UInt32) := do
  let entry ← index fs.dirEntries i
  let own ← fs.entryName entry.nameIndex
  return (compare own name, entry.inodeNum)

def lookupOne (dirInode : UInt32) (name : Bytes) : Result (Option UInt32) := do
  let (start, stop) ← fs.dirEntryRange dirInode
  Lib.Bisect.find (fs.compareEntry name) start stop

/-- Find a child of `dirInode` by name. -/
def lookupChild (dirInode : UInt32) (name : Bytes) : Result (Option UInt32) := do
  let kind ← fs.kind dirInode
  refuseIf (kind ≠ .directory) (corrupt s!"inode {dirInode} is not a directory")
  fs.lookupOne dirInode name

/-- The loop of `lookup` over the components. -/
def lookupFrom (inode : UInt32) : List Bytes → Result UInt32
  | [] => .ok inode
  | component :: rest =>
    if component = [] then lookupFrom inode rest
    else do
      let kind ← fs.kind inode
      refuseIf (kind ≠ .directory) (corrupt s!"component {shown component} not under directory")
      let found ← fs.lookupOne inode component
      let next ← okOr found (corrupt s!"no entry {shown component} in inode {inode}")
      lookupFrom next rest

/-- Resolve a slash-separated path, taken from the root. -/
def lookup (path : Bytes) : Result Node := do
  let inode ← fs.lookupFrom 0 (splitPath path)
  let kind ← fs.kind inode
  return { inode, kind }

end Filesystem

end Rdwarfs.Source.Fs
