import Rdwarfs.Source.Metadata.Thrift

/-!
# The history section

format/history.rs:13-139: who wrote an image, with what. Informational, and read as far as it
can be.
-/
namespace Rdwarfs.Source.Format

open Lib.Machine Metadata Metadata.ThriftReader

structure HistoryVersion where
  major : UInt16
  minor : UInt16
  patch : UInt16
  isRelease : Bool
  gitRev : Option String
  gitBranch : Option String
  gitDesc : Option String
  deriving DecidableEq, Repr

namespace HistoryVersion

def default : HistoryVersion where
  major := 0
  minor := 0
  patch := 0
  isRelease := false
  gitRev := none
  gitBranch := none
  gitDesc := none

end HistoryVersion

structure HistoryEntry where
  version : HistoryVersion
  systemId : String
  compilerId : String
  arguments : Option (List String)
  /-- Epoch seconds. -/
  timestamp : Option UInt64
  libraryVersions : List String
  deriving DecidableEq, Repr

namespace HistoryEntry

def default : HistoryEntry where
  version := HistoryVersion.default
  systemId := ""
  compilerId := ""
  arguments := none
  timestamp := none
  libraryVersions := []

end HistoryEntry

namespace History

def decodeError (message : String) : Error := .decode "history" message

def readUtf8 : Reader String := readString

/-- `for _ in 0..count { out.push(read()?) }` -/
def pushEach {α : Type} (read : Reader α) : Nat → List α → Reader (List α)
  | 0, out => return out
  | count + 1, out => do
    let value ← read
    pushEach read count (out ++ [value])

def readStringList : Reader (List String) := do
  let (element, count) ← readListHeader
  if element ≠ .binary then failWith (decodeError "expected a list of strings")
  else pushEach readUtf8 count []

/-- `.max(0) as u16` -/
def word16 (v : Int16) : UInt16 := UInt16.ofNat (max v.toInt 0).toNat

/-- `.max(0) as u64` -/
def word64 (v : Int) : UInt64 := UInt64.ofNat (max v 0).toNat

def readVersion : Reader HistoryVersion := fun reader => (do
  readStructBegin
  let version ← whileFields (fun header version =>
      match header.id, header.ttype with
      | 1, .i16 => do return { version with major := word16 (← readI16) }
      | 2, .i16 => do return { version with minor := word16 (← readI16) }
      | 3, .i16 => do return { version with patch := word16 (← readI16) }
      | 4, .boolTrue => return { version with isRelease := true }
      | 4, .boolFalse => return { version with isRelease := false }
      | 5, .binary => do return { version with gitRev := some (← readUtf8) }
      | 6, .binary => do return { version with gitBranch := some (← readUtf8) }
      | 7, .binary => do return { version with gitDesc := some (← readUtf8) }
      | _, ttype => do
        skipValue ttype
        return version)
    (reader.remaining + 1) HistoryVersion.default
  readStructEnd
  return version : Reader HistoryVersion) reader

def readEntry : Reader HistoryEntry := fun reader => (do
  readStructBegin
  let entry ← whileFields (fun header entry =>
      match header.id, header.ttype with
      | 1, .struct => do return { entry with version := ← readVersion }
      | 2, .binary => do return { entry with systemId := ← readUtf8 }
      | 3, .binary => do return { entry with compilerId := ← readUtf8 }
      | 4, .list => do return { entry with arguments := some (← readStringList) }
      | 5, .i64 => do return { entry with timestamp := some (word64 (← readI64)) }
      | 6, .set => do
        let (element, count) ← readSetHeader
        if element ≠ .binary then
          failWith (decodeError "library_versions is not a set of strings")
        else return { entry with
          libraryVersions := ← pushEach readUtf8 count entry.libraryVersions }
      | _, ttype => do
        skipValue ttype
        return entry)
    (reader.remaining + 1) HistoryEntry.default
  readStructEnd
  return entry : Reader HistoryEntry) reader

def readEntries : Reader (List HistoryEntry) := fun reader => (do
  readStructBegin
  let entries ← whileFields (fun header entries =>
      match header.id, header.ttype with
      | 1, .list => do
        let (element, count) ← readListHeader
        if element ≠ .struct then failWith (decodeError "history entries are not structs")
        else pushEach readEntry count entries
      | _, ttype => do
        skipValue ttype
        return entries)
    (reader.remaining + 1) []
  readStructEnd
  return entries : Reader (List HistoryEntry)) reader

/-- Decode a `HISTORY` section payload into its entries. -/
def parse (payload : Bytes) : Result (List HistoryEntry) := do
  let (entries, _) ← readEntries (ThriftReader.new payload)
  return entries

end History

end Rdwarfs.Source.Format
